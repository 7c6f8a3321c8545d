import Ashd.Cgi.Bridges

/-!
# FastCGI parameters

`bufcatkv` of src/callfcgi.c appends a name and a value to a block of parameters, each with its
length in front: one byte, or four with the high bit set. Nothing stands between two pairs.

Main results:
* `decodeLen_lenBytes`: a length is read back, whatever follows it.
* `decodePairs_bufcatkv`: so is a block of parameters.
-/

namespace Ashd.Cgi.Params

/-! ## Model -/

/-- The length `n` of a name or a value in `bufcatkv` (src/callfcgi.c:403–410, 411–418). -/
def bufcatlen (dst : Charbuf) (n : ℕ) : Charbuf :=
  if n < 128 then bufcat dst [UInt8.ofNat n]
  else
    let dst := bufcat dst [UInt8.ofNat ((n &&& 0x7f000000) >>> 24 ||| 0x80)]
    let dst := bufcat dst [UInt8.ofNat ((n &&& 0x00ff0000) >>> 16)]
    let dst := bufcat dst [UInt8.ofNat ((n &&& 0x0000ff00) >>> 8)]
    bufcat dst [UInt8.ofNat (n &&& 0x000000ff)]

/-- `bufcatkv` (src/callfcgi.c:399–421). -/
def bufcatkv (dst : Charbuf) (key val : Bytes) : Charbuf :=
  let kl := (cstr key).length
  let vl := (cstr val).length
  let dst := bufcatlen dst kl
  let dst := bufcatlen dst vl
  let dst := bufcat dst (key.take kl)
  bufcat dst (val.take vl)

/-- One call of `mkcgienv`: `bufaddenv` (src/callfcgi.c:423–433) with what its format expands to,
    or `bufcatkv`. -/
def bufaddenv (dst : Charbuf) : Entry → Charbuf
  | .fmt name val => bufcatkv dst name val
  | .kv name val => bufcatkv dst name val

/-- `mkcgienv` (src/callfcgi.c:450–520). -/
def mkcgienv (cwd : Bytes) (req : Hthead) (dst : Charbuf) : Charbuf :=
  (fcgienv cwd req).foldl bufaddenv dst

/-! ## Specification -/

/-- A length in four bytes, the first of which has its high bit set. -/
def decodeLong (b₃ : UInt8) : Bytes → Option (ℕ × Bytes)
  | b₂ :: b₁ :: b₀ :: block =>
    some (b₃.toNat % 128 * 2 ^ 24 + b₂.toNat * 2 ^ 16 + b₁.toNat * 2 ^ 8 + b₀.toNat, block)
  | _ => none

/-- A length by the FastCGI rules, and what follows it. -/
def decodeLen : Bytes → Option (ℕ × Bytes)
  | [] => none
  | b :: block => if b < 128 then some (b.toNat, block) else decodeLong b block

/-- A name and a value, and what follows them. -/
def decodePair (block : Bytes) : Option ((Bytes × Bytes) × Bytes) := do
  let (kl, block) ← decodeLen block
  let (vl, block) ← decodeLen block
  if block.length < kl + vl then none
  else some ((block.take kl, (block.drop kl).take vl), block.drop (kl + vl))

/-- The pairs of a block. Each of them takes at least two bytes. -/
def decodePairs : ℕ → Bytes → Option (List (Bytes × Bytes))
  | _, [] => some []
  | 0, _ :: _ => none
  | n + 1, c :: block => do
    let (pair, block) ← decodePair (c :: block)
    let pairs ← decodePairs n block
    some (pair :: pairs)

/-- The parameters in a block. -/
def decode (block : Bytes) : Option (List (Bytes × Bytes)) := decodePairs block.length block

/-! ## Lengths -/

/-- What `bufcatlen` appends. -/
def lenBytes (n : ℕ) : Bytes :=
  if n < 128 then [UInt8.ofNat n]
  else [UInt8.ofNat (n / 2 ^ 24 % 128 + 128), UInt8.ofNat (n / 2 ^ 16), UInt8.ofNat (n / 2 ^ 8),
    UInt8.ofNat n]

/-- A byte out of a number, by its mask. -/
theorem mask_shift (n m k : ℕ) : (n &&& m <<< k) >>> k = n / 2 ^ k &&& m := by
  rw [Nat.shiftRight_and_distrib, Nat.shiftLeft_shiftRight, Nat.shiftRight_eq_div_pow]

theorem ofNat_and_255 (n : ℕ) : UInt8.ofNat (n &&& 255) = UInt8.ofNat n := by
  have hand : n &&& 255 = n % 256 := Nat.and_two_pow_sub_one_eq_mod n 8
  apply UInt8.toNat_inj.mp
  rw [hand, UInt8.toNat_ofNat', UInt8.toNat_ofNat', Nat.mod_mod]

theorem high_byte (n : ℕ) : (n &&& 0x7f000000) >>> 24 ||| 0x80 = n / 2 ^ 24 % 128 + 128 := by
  have hand : n / 2 ^ 24 &&& 127 = n / 2 ^ 24 % 128 := Nat.and_two_pow_sub_one_eq_mod _ 7
  have hor : 2 ^ 7 * 1 + n / 2 ^ 24 % 128 = 2 ^ 7 * 1 ||| n / 2 ^ 24 % 128 :=
    Nat.two_pow_add_eq_or_of_lt (by omega) 1
  have hmask : (n &&& 0x7f000000) >>> 24 = n / 2 ^ 24 &&& 127 := mask_shift n 127 24
  calc (n &&& 0x7f000000) >>> 24 ||| 0x80 = 2 ^ 7 * 1 ||| n / 2 ^ 24 % 128 := by
        rw [hmask, hand, Nat.or_comm]
        rfl
    _ = n / 2 ^ 24 % 128 + 128 := by rw [← hor]; omega

theorem bufcatlen_spec {dst : Charbuf} (h : dst.Ok) (n : ℕ) :
    (bufcatlen dst n).Ok ∧ (bufcatlen dst n).window 0 = dst.window 0 ++ lenBytes n := by
  unfold bufcatlen lenBytes
  split_ifs with hn
  · exact bufcat_spec h _
  · obtain ⟨h₃, w₃⟩ := bufcat_spec h [UInt8.ofNat ((n &&& 0x7f000000) >>> 24 ||| 0x80)]
    obtain ⟨h₂, w₂⟩ := bufcat_spec h₃ [UInt8.ofNat ((n &&& 0x00ff0000) >>> 16)]
    obtain ⟨h₁, w₁⟩ := bufcat_spec h₂ [UInt8.ofNat ((n &&& 0x0000ff00) >>> 8)]
    obtain ⟨h₀, w₀⟩ := bufcat_spec h₁ [UInt8.ofNat (n &&& 0x000000ff)]
    refine ⟨h₀, ?_⟩
    have h16 : (n &&& 0x00ff0000) >>> 16 = n / 2 ^ 16 &&& 255 := mask_shift n 255 16
    have h8 : (n &&& 0x0000ff00) >>> 8 = n / 2 ^ 8 &&& 255 := mask_shift n 255 8
    simp only
    rw [w₀, w₁, w₂, w₃, high_byte, h16, h8, ofNat_and_255, ofNat_and_255, ofNat_and_255]
    simp

theorem decodeLen_lenBytes {n : ℕ} (h : n < 2 ^ 31) (rest : Bytes) :
    decodeLen (lenBytes n ++ rest) = some (n, rest) := by
  unfold lenBytes
  split_ifs with hn
  · have hbyte : (UInt8.ofNat n).toNat = n := by rw [UInt8.toNat_ofNat']; omega
    have hlt : UInt8.ofNat n < 128 := by rw [UInt8.lt_iff_toNat_lt, hbyte]; exact hn
    rw [List.singleton_append, decodeLen, if_pos hlt, hbyte]
  · have hbyte : (UInt8.ofNat (n / 2 ^ 24 % 128 + 128)).toNat = n / 2 ^ 24 % 128 + 128 := by
      rw [UInt8.toNat_ofNat']
      omega
    have hge : ¬ UInt8.ofNat (n / 2 ^ 24 % 128 + 128) < 128 := by
      rw [UInt8.lt_iff_toNat_lt, hbyte]
      simp
    simp only [List.cons_append, List.nil_append]
    rw [decodeLen, if_neg hge, decodeLong, hbyte]
    simp only [UInt8.toNat_ofNat', Option.some.injEq, Prod.mk.injEq, and_true]
    omega

/-! ## Pairs -/

/-- What `bufcatkv` appends. -/
def pairBytes (p : Bytes × Bytes) : Bytes :=
  lenBytes p.1.length ++ lenBytes p.2.length ++ p.1 ++ p.2

theorem decodePair_pairBytes {p : Bytes × Bytes} (hk : p.1.length < 2 ^ 31)
    (hv : p.2.length < 2 ^ 31) (rest : Bytes) :
    decodePair (pairBytes p ++ rest) = some (p, rest) := by
  obtain ⟨k, v⟩ := p
  have hsplit : pairBytes (k, v) ++ rest =
      lenBytes k.length ++ (lenBytes v.length ++ (k ++ (v ++ rest))) := by
    simp [pairBytes]
  rw [hsplit, decodePair, decodeLen_lenBytes hk]
  simp only [bind, Option.bind]
  rw [decodeLen_lenBytes hv]
  simp only
  rw [if_neg (by simp), List.take_left, List.drop_left, List.take_left, ← List.drop_drop,
    List.drop_left, List.drop_left]

theorem pairBytes_ne_nil (p : Bytes × Bytes) : pairBytes p ≠ [] := by
  unfold pairBytes lenBytes
  split_ifs <;> simp

theorem decodePairs_pairBytes {ps : List (Bytes × Bytes)}
    (h : ∀ p ∈ ps, p.1.length < 2 ^ 31 ∧ p.2.length < 2 ^ 31) :
    ∀ n, (ps.flatMap pairBytes).length ≤ n → decodePairs n (ps.flatMap pairBytes) = some ps := by
  induction ps with
  | nil => intro n _; cases n <;> rfl
  | cons p ps ih =>
    intro n hn
    have hpos := List.length_pos_of_ne_nil (pairBytes_ne_nil p)
    rw [List.flatMap_cons, List.length_append] at hn
    obtain ⟨n, rfl⟩ := Nat.exists_eq_succ_of_ne_zero (by omega : n ≠ 0)
    have hdec := decodePair_pairBytes (h p (by simp)).1 (h p (by simp)).2 (ps.flatMap pairBytes)
    obtain ⟨c, block, hblock⟩ := List.exists_cons_of_ne_nil (pairBytes_ne_nil p)
    rw [List.flatMap_cons, hblock, List.cons_append, decodePairs, ← List.cons_append, ← hblock,
      hdec]
    simp only [bind, Option.bind]
    rw [ih (fun q hq => h q (List.mem_cons_of_mem _ hq)) n (by omega)]

theorem bufcatkv_spec {dst : Charbuf} (h : dst.Ok) (key val : Bytes) :
    (bufcatkv dst key val).Ok ∧
      (bufcatkv dst key val).window 0 = dst.window 0 ++ pairBytes (cstr key, cstr val) := by
  have htake : ∀ s : Bytes, s.take (cstr s).length = cstr s := fun s =>
    (List.prefix_iff_eq_take.mp (List.takeWhile_prefix _)).symm
  obtain ⟨h₁, w₁⟩ := bufcatlen_spec h (cstr key).length
  obtain ⟨h₂, w₂⟩ := bufcatlen_spec h₁ (cstr val).length
  obtain ⟨h₃, w₃⟩ := bufcat_spec h₂ (key.take (cstr key).length)
  obtain ⟨h₄, w₄⟩ := bufcat_spec h₃ (val.take (cstr val).length)
  refine ⟨h₄, ?_⟩
  unfold bufcatkv
  simp only
  rw [w₄, w₃, w₂, w₁, htake, htake]
  simp [pairBytes]

theorem bufaddenv_spec {dst : Charbuf} (h : dst.Ok) (e : Entry) :
    (bufaddenv dst e).Ok ∧ (bufaddenv dst e).window 0 = dst.window 0 ++ pairBytes e.pair := by
  cases e with
  | fmt name val => exact bufcatkv_spec h name val
  | kv name val => exact bufcatkv_spec h name val

/-- The block of parameters of a request. -/
theorem window_mkcgienv (cwd : Bytes) (req : Hthead) : (mkcgienv cwd req {}).window 0 =
    (fcgienv cwd req).flatMap fun e => pairBytes e.pair := by
  have h0 : Charbuf.Ok {} := ⟨Nat.zero_le _, Nat.zero_le _⟩
  exact (foldl_window (fun dst e h => bufaddenv_spec h e) (fcgienv cwd req) h0).2

/-- The block that `bufcatkv` makes of names and values, one after the other, is decoded to
    them. -/
theorem decode_bufcatkv (ps : List (Bytes × Bytes))
    (hps : ∀ p ∈ ps, NulFree p.1 ∧ NulFree p.2 ∧ p.1.length < 2 ^ 31 ∧ p.2.length < 2 ^ 31) :
    decode ((ps.foldl (fun dst p => bufcatkv dst p.1 p.2) {}).window 0) = some ps := by
  have h0 : Charbuf.Ok {} := ⟨Nat.zero_le _, Nat.zero_le _⟩
  have hcstr : (ps.flatMap fun p => pairBytes (cstr p.1, cstr p.2)) = ps.flatMap pairBytes :=
    List.flatMap_congr fun p hp => by
      rw [cstr_eq_self (hps p hp).1, cstr_eq_self (hps p hp).2.1]
  have hwin : (ps.foldl (fun dst p => bufcatkv dst p.1 p.2) {}).window 0 = ps.flatMap pairBytes :=
    (foldl_window (fun dst p h => bufcatkv_spec h p.1 p.2) ps h0).2.trans hcstr
  rw [hwin]
  exact decodePairs_pairBytes (fun p hp => (hps p hp).2.2) _ le_rfl

theorem decode_bufcatkv_host :
    decode (([(bytes "HTTP_HOST", bytes "h"), (bytes "HTTPS", [])].foldl
      (fun dst p => bufcatkv dst p.1 p.2) {}).window 0) =
      some [(bytes "HTTP_HOST", bytes "h"), (bytes "HTTPS", [])] :=
  decode_bufcatkv _ (by decide)

end Ashd.Cgi.Params
