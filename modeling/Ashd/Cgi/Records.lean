import Ashd.Common.Bytes

/-!
# FastCGI records

`sendrec` and `recvrec` of src/callfcgi.c. A record is a header of 8 bytes, at most 65535 bytes
of data, and padding up to a multiple of 8. A record without data means the end of a stream, so
none may be added to data whose length is a multiple of 65535.

Main results:
* `recvrec_recBytes`: a record is read back, whatever follows it.
* `sendrecLoop_fragments`: what `sendrec` cuts its data into.
* `records_roundtrip`: the round trip.
-/

namespace Ashd.Cgi

/-! ## Writing -/

/-- A stream that is written to. If `room` is given, then writing fails after that many bytes. -/
structure File where
  written : Bytes := []
  room : Option ℕ := none

/-- `fputc`, with `false` for `EOF`. -/
def fputc (c : UInt8) (out : File) : Bool × File :=
  match out.room with
  | none => (true, { out with written := out.written ++ [c] })
  | some 0 => (false, out)
  | some (n + 1) => (true, { written := out.written ++ [c], room := some n })

/-- Bytes that are written up to the first failure: several `fputc2` in a row, or an `fwrite`
    whose result is compared with the length. -/
def fputs : Bytes → File → Bool × File
  | [], out => (true, out)
  | c :: bs, out =>
    match fputc c out with
    | (false, out) => (false, out)
    | (true, out) => fputs bs out

/-- The header of a record (src/callfcgi.c:564–571). -/
def recHeader (type rid cl p : ℕ) : Bytes :=
  [1, UInt8.ofNat type, UInt8.ofNat ((rid &&& 0xff00) >>> 8), UInt8.ofNat (rid &&& 0x00ff),
    UInt8.ofNat ((cl &&& 0xff00) >>> 8), UInt8.ofNat (cl &&& 0x00ff), UInt8.ofNat p, 0]

/-- The padding of `cl` bytes of data. -/
def padding (cl : ℕ) : ℕ := (8 - cl % 8) % 8

/-- The loop of `sendrec`. -/
def sendrecLoop (type rid : ℕ) (data : Bytes) : ℕ → ℕ → File → ℤ × File
  | 0, _, out => (-1, out)
  | fuel + 1, off, out =>
    let cl := min (data.length - off) 65535
    match fputs (recHeader type rid cl (padding cl)) out with
    | (false, out) => (-1, out)
    | (true, out) =>
      match fputs ((data.drop off).take cl) out with
      | (false, out) => (-1, out)
      | (true, out) =>
        match fputs (List.replicate (padding cl) 0) out with
        | (false, out) => (-1, out)
        | (true, out) =>
          if off + cl < data.length then sendrecLoop type rid data fuel (off + cl) out else (0, out)

/-- `sendrec` (src/callfcgi.c:553–579). -/
def sendrec (out : File) (type rid : ℕ) (data : Bytes) : ℤ × File :=
  sendrecLoop type rid data (data.length + 1) 0 out

/-! ## Reading -/

/-- What `recvrec` hands out. The padding is still in `data`. -/
structure Record where
  type : ℕ
  rid : ℕ
  data : Bytes
  dlen : ℕ
  deriving DecidableEq

/-- The data without the padding. -/
def Record.payload (r : Record) : Bytes := r.data.take r.dlen

/-- `recvrec` (src/callfcgi.c:581–602), with `none` for -1 and what is left to read. -/
def recvrec (inp : Bytes) : Option Record × Bytes :=
  match inp with
  | h0 :: h1 :: h2 :: h3 :: h4 :: h5 :: h6 :: h7 :: inp =>
    if h0 ≠ 1 then (none, inp)
    else
      let dlen := (h4.toNat <<< 8) ||| h5.toNat
      let tl := dlen + h6.toNat
      if h7 ≠ 0 then (none, inp)
      else if inp.length < tl then (none, [])
      else (some ⟨h1.toNat, (h2.toNat <<< 8) ||| h3.toNat, inp.take tl, dlen⟩, inp.drop tl)
  | _ => (none, [])

/-- `recvrec` called `n` times. -/
def recvrecs : ℕ → Bytes → Option (List Record) × Bytes
  | 0, inp => (some [], inp)
  | n + 1, inp =>
    match recvrec inp with
    | (none, inp) => (none, inp)
    | (some r, inp) =>
      match recvrecs n inp with
      | (none, inp) => (none, inp)
      | (some rs, inp) => (some (r :: rs), inp)

/-! ## One record -/

/-- The bytes of a record with the data `f`. -/
def recBytes (type rid : ℕ) (f : Bytes) : Bytes :=
  recHeader type rid f.length (padding f.length) ++ f ++ List.replicate (padding f.length) 0

/-- The record that is read of it. -/
def recOf (type rid : ℕ) (f : Bytes) : Record :=
  ⟨type, rid, f ++ List.replicate (padding f.length) 0, f.length⟩

@[simp] theorem payload_recOf (type rid : ℕ) (f : Bytes) : (recOf type rid f).payload = f :=
  List.take_left

/-- The two bytes of a number below 2^16. -/
theorem bytes_of_short {n : ℕ} (h : n < 65536) :
    ((UInt8.ofNat ((n &&& 0xff00) >>> 8)).toNat <<< 8) ||| (UInt8.ofNat (n &&& 0x00ff)).toNat = n := by
  have hhigh : (n &&& 0xff00) >>> 8 = n / 256 := by
    have hand : (n >>> 8) &&& 255 = n >>> 8 % 2 ^ 8 := Nat.and_two_pow_sub_one_eq_mod _ 8
    rw [Nat.shiftRight_and_distrib]
    show (n >>> 8) &&& 255 = n / 256
    rw [hand, Nat.shiftRight_eq_div_pow]
    omega
  have hlow : n &&& 0x00ff = n % 256 := Nat.and_two_pow_sub_one_eq_mod n 8
  have h1 : (UInt8.ofNat (n / 256)).toNat = n / 256 := by
    rw [UInt8.toNat_ofNat']
    omega
  have h2 : (UInt8.ofNat (n % 256)).toNat = n % 256 := by
    rw [UInt8.toNat_ofNat']
    omega
  rw [hhigh, hlow, h1, h2, ← Nat.shiftLeft_add_eq_or_of_lt (by omega), Nat.shiftLeft_eq]
  omega

theorem recvrec_recBytes {type rid : ℕ} (ht : type < 256) (hr : rid < 65536) {f : Bytes}
    (hf : f.length ≤ 65535) (rest : Bytes) :
    recvrec (recBytes type rid f ++ rest) = (some (recOf type rid f), rest) := by
  have hp : padding f.length < 8 := Nat.mod_lt _ (by norm_num)
  have htype : (UInt8.ofNat type).toNat = type := by
    rw [UInt8.toNat_ofNat']
    omega
  have hpad : (UInt8.ofNat (padding f.length)).toNat = padding f.length := by
    rw [UInt8.toNat_ofNat']
    omega
  have hsplit : recBytes type rid f ++ rest = recHeader type rid f.length (padding f.length) ++
      ((f ++ List.replicate (padding f.length) 0) ++ rest) := by
    simp [recBytes]
  have hlen : (f ++ List.replicate (padding f.length) (0 : UInt8)).length =
      f.length + padding f.length := by simp
  rw [hsplit, recHeader]
  simp only [List.cons_append, List.nil_append, recvrec, ne_eq, not_true_eq_false, if_false]
  rw [bytes_of_short (by omega), bytes_of_short (by omega), hpad, htype,
    if_neg (by rw [List.length_append]; omega), ← hlen, List.take_left, List.drop_left]
  rfl

/-- With its padding, a record takes a multiple of 8 bytes. -/
theorem length_recBytes (type rid : ℕ) (f : Bytes) : 8 ∣ (recBytes type rid f).length := by
  have : (recBytes type rid f).length = 8 + f.length + padding f.length := by
    simp [recBytes, recHeader]
    omega
  rw [this]
  unfold padding
  omega

/-! ## The records of some data -/

theorem fputs_append (a b : Bytes) (out : File) :
    fputs (a ++ b) out =
      match fputs a out with
      | (false, out) => (false, out)
      | (true, out) => fputs b out := by
  induction a generalizing out with
  | nil => rfl
  | cons c a ih =>
    rw [List.cons_append, fputs, fputs]
    rcases fputc c out with ⟨_ | _, o⟩
    · rfl
    · exact ih o

/-- What was written if nothing failed. -/
theorem fputs_written {bs : Bytes} {out out' : File} (h : fputs bs out = (true, out')) :
    out'.written = out.written ++ bs := by
  induction bs generalizing out with
  | nil =>
    cases h
    exact (List.append_nil _).symm
  | cons c bs ih =>
    rw [fputs] at h
    rcases hc : fputc c out with ⟨_ | _, o⟩
    · rw [hc] at h
      cases h
    · rw [hc] at h
      have ho : o.written = out.written ++ [c] := by
        unfold fputc at hc
        split at hc <;> cases hc <;> rfl
      rw [ih h, ho, List.append_assoc, List.singleton_append]

theorem fputs_ok (bs : Bytes) {out : File} (h : out.room = none) :
    fputs bs out = (true, { out with written := out.written ++ bs }) := by
  induction bs generalizing out with
  | nil => rw [List.append_nil]; rfl
  | cons c bs ih =>
    have hc : fputc c out = (true, { out with written := out.written ++ [c] }) := by
      unfold fputc
      rw [h]
    rw [fputs, hc]
    have hnext : ({ out with written := out.written ++ [c] } : File).room = none := h
    simp only
    rw [ih hnext, List.append_assoc, List.singleton_append]

/-- The parts that data is cut into. -/
structure Fragments (data : Bytes) (fs : List Bytes) : Prop where
  flatten : fs.flatten = data
  length_le : ∀ f ∈ fs, f.length ≤ 65535
  ne : ∀ f ∈ fs, f = [] → data = []
  one : data = [] → fs.length = 1

/-- A part of the largest size, and the parts of what is left. -/
theorem Fragments.cons {data : Bytes} {fs : List Bytes} (hd : 65535 < data.length)
    (h : Fragments (data.drop 65535) fs) : Fragments data (data.take 65535 :: fs) where
  flatten := by rw [List.flatten_cons, h.flatten, List.take_append_drop]
  length_le := by
    intro f hf
    rcases List.mem_cons.mp hf with rfl | hf
    · exact List.length_take_le _ _
    · exact h.length_le f hf
  ne := by
    intro f hf h0
    subst h0
    rcases List.mem_cons.mp hf with h0 | hf
    · have := congrArg List.length h0
      rw [List.length_take, List.length_nil] at this
      omega
    · have := congrArg List.length (h.ne [] hf rfl)
      rw [List.length_drop, List.length_nil] at this
      omega
  one := by
    rintro rfl
    exact absurd hd (by simp)

/-- Everything that is left fits into one record. -/
theorem Fragments.single {data : Bytes} (hd : data.length ≤ 65535) : Fragments data [data] where
  flatten := by simp
  length_le := by simpa using hd
  ne := by
    intro f hf h0
    rw [← List.mem_singleton.mp hf, h0]
  one := fun _ => rfl

/-- One round of the loop writes one record. -/
theorem sendrecLoop_round (type rid : ℕ) (data : Bytes) (fuel off : ℕ) (out : File) :
    sendrecLoop type rid data (fuel + 1) off out =
      match fputs (recBytes type rid ((data.drop off).take 65535)) out with
      | (false, out) => (-1, out)
      | (true, out) =>
        if 65535 < (data.drop off).length then sendrecLoop type rid data fuel (off + 65535) out
        else (0, out) := by
  generalize hcl : min (data.length - off) 65535 = cl
  have htake : (data.drop off).take 65535 = (data.drop off).take cl := by
    rw [← hcl, ← List.length_drop, List.take_eq_take_min, Nat.min_comm]
  have hlen : ((data.drop off).take cl).length = cl := by
    rw [List.length_take, List.length_drop]
    omega
  have hnext : (if off + cl < data.length then sendrecLoop type rid data fuel (off + cl) else Prod.mk 0) =
      if 65535 < (data.drop off).length then sendrecLoop type rid data fuel (off + 65535)
      else Prod.mk 0 := by
    rw [List.length_drop]
    by_cases hlong : 65535 < data.length - off
    · have : cl = 65535 := by omega
      rw [if_pos hlong, if_pos (by omega), this]
    · rw [if_neg hlong, if_neg (by omega)]
  rw [sendrecLoop, htake, recBytes, hlen, fputs_append, fputs_append]
  simp only [hcl]
  rcases fputs (recHeader type rid cl (padding cl)) out with ⟨_ | _, o₁⟩
  · rfl
  simp only
  rcases fputs ((data.drop off).take cl) o₁ with ⟨_ | _, o₂⟩
  · rfl
  simp only
  rcases fputs (List.replicate (padding cl) 0) o₂ with ⟨_ | _, o₃⟩
  · rfl
  simp only
  have := congrFun hnext o₃
  split_ifs at this ⊢ <;> exact this

/-- The loop writes the records of what is left. -/
theorem sendrecLoop_fragments (type rid : ℕ) (data : Bytes) :
    ∀ fuel off, data.length - off < fuel → ∃ fs, Fragments (data.drop off) fs ∧
      ∀ out, sendrecLoop type rid data fuel off out =
        match fputs (fs.flatMap (recBytes type rid)) out with
        | (ok, out) => (if ok then 0 else -1, out) := by
  intro fuel
  induction fuel with
  | zero => intro off h; omega
  | succ fuel ih =>
    intro off h
    by_cases hlong : 65535 < (data.drop off).length
    · have hdrop := List.length_drop (i := off) (l := data)
      obtain ⟨fs, hfs, hloop⟩ := ih (off + 65535) (by omega)
      rw [← List.drop_drop] at hfs
      refine ⟨_, .cons hlong hfs, fun out => ?_⟩
      rw [sendrecLoop_round, List.flatMap_cons, fputs_append]
      rcases fputs (recBytes type rid ((data.drop off).take 65535)) out with ⟨_ | _, o⟩
      · rfl
      · simp only [if_pos hlong]
        exact hloop o
    · refine ⟨_, .single (by omega), fun out => ?_⟩
      rw [sendrecLoop_round, List.take_of_length_le (by omega), List.flatMap_singleton]
      rcases fputs (recBytes type rid (data.drop off)) out with ⟨_ | _, o⟩
      · rfl
      · simp only [if_neg hlong]
        rfl

/-! ## Reading them back -/

theorem recvrecs_fragments {type rid : ℕ} (ht : type < 256) (hr : rid < 65536) {fs : List Bytes}
    (h : ∀ f ∈ fs, f.length ≤ 65535) (rest : Bytes) :
    recvrecs fs.length (fs.flatMap (recBytes type rid) ++ rest) =
      (some (fs.map (recOf type rid)), rest) := by
  induction fs with
  | nil => rfl
  | cons f fs ih =>
    rw [List.length_cons, List.flatMap_cons, List.append_assoc, recvrecs,
      recvrec_recBytes ht hr (h f (by simp))]
    simp only
    rw [ih fun g hg => h g (List.mem_cons_of_mem _ hg)]
    rfl

theorem dvd_length_flatMap (type rid : ℕ) (fs : List Bytes) :
    8 ∣ (fs.flatMap (recBytes type rid)).length := by
  induction fs with
  | nil => exact dvd_zero 8
  | cons f fs ih =>
    rw [List.flatMap_cons, List.length_append]
    exact dvd_add (length_recBytes type rid f) ih

/-- Records `rs` as `enc` is read back: of one type and id, with the parts of `data`, each
    starting at a multiple of 8 bytes. -/
structure ReadBack (type rid : ℕ) (data enc : Bytes) (rs : List Record) : Prop where
  same : ∀ r ∈ rs, r.type = type ∧ r.rid = rid
  payload : rs.flatMap Record.payload = data
  ne : ∀ r ∈ rs, r.payload = [] → data = []
  one : data = [] → rs.length = 1
  whole : ∀ rest, recvrecs rs.length (enc ++ rest) = (some rs, rest)
  aligned : ∀ rest k, k ≤ rs.length → ∃ used left, enc ++ rest = used ++ left ∧ 8 ∣ used.length ∧
    recvrecs k (enc ++ rest) = (some (rs.take k), left)

theorem Fragments.readBack {type rid : ℕ} (ht : type < 256) (hr : rid < 65536) {data : Bytes}
    {fs : List Bytes} (h : Fragments data fs) :
    ReadBack type rid data (fs.flatMap (recBytes type rid)) (fs.map (recOf type rid)) where
  same := by
    intro r hr
    obtain ⟨f, -, rfl⟩ := List.mem_map.mp hr
    exact ⟨rfl, rfl⟩
  payload := by
    rw [List.flatMap_map]
    simp only [payload_recOf]
    rw [← h.flatten, List.flatMap_id']
  ne := by
    intro r hr
    obtain ⟨f, hf, rfl⟩ := List.mem_map.mp hr
    rw [payload_recOf]
    exact h.ne f hf
  one := fun h0 => by rw [List.length_map, h.one h0]
  whole := by
    intro rest
    rw [List.length_map]
    exact recvrecs_fragments ht hr h.length_le rest
  aligned := by
    intro rest k hk
    rw [List.length_map] at hk
    have hlen : (fs.take k).length = k := by rw [List.length_take]; omega
    have hsplit : fs.flatMap (recBytes type rid) ++ rest = (fs.take k).flatMap (recBytes type rid) ++
        ((fs.drop k).flatMap (recBytes type rid) ++ rest) := by
      rw [← List.append_assoc, ← List.flatMap_append, List.take_append_drop]
    refine ⟨_, _, hsplit, dvd_length_flatMap type rid _, ?_⟩
    have htake : ∀ f ∈ fs.take k, f.length ≤ 65535 :=
      fun f hf => h.length_le f (List.mem_of_mem_take hf)
    have := recvrecs_fragments ht hr htake ((fs.drop k).flatMap (recBytes type rid) ++ rest)
    rw [hlen] at this
    rw [hsplit, this, List.map_take]

/-- **Record round trip.** What `sendrec` writes, which it does unless the stream fails, is read
    back as records of the type and the id it was given, which hold the data. -/
theorem records_roundtrip (type rid : ℕ) (ht : type < 256) (hr : rid < 65536) (data : Bytes) :
    ∃ enc rs, ReadBack type rid data enc rs ∧
      (∀ out out', sendrec out type rid data = (0, out') → out'.written = out.written ++ enc) ∧
      ∀ out, out.room = none →
        sendrec out type rid data = (0, { out with written := out.written ++ enc }) := by
  obtain ⟨fs, hfs, hloop⟩ := sendrecLoop_fragments type rid data (data.length + 1) 0 (by omega)
  refine ⟨_, _, hfs.readBack ht hr, ?_, ?_⟩
  · intro out out' h
    rw [sendrec, hloop] at h
    rcases hput : fputs (fs.flatMap (recBytes type rid)) out with ⟨_ | _, o⟩
    · rw [hput] at h
      simp at h
    · rw [hput] at h
      cases h
      exact fputs_written hput
  · intro out h
    rw [sendrec, hloop, fputs_ok _ h]
    rfl

theorem records_roundtrip_stdin :
    ∃ enc rs, ReadBack 5 1 (bytes "hello") enc rs ∧
      (∀ out out', sendrec out 5 1 (bytes "hello") = (0, out') →
        out'.written = out.written ++ enc) ∧
      ∀ out, out.room = none →
        sendrec out 5 1 (bytes "hello") = (0, { out with written := out.written ++ enc }) :=
  records_roundtrip 5 1 (by decide) (by decide) (bytes "hello")

end Ashd.Cgi
