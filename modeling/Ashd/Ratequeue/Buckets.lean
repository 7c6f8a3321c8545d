import Ashd.Ratequeue.Timeheap

/-!
# Buckets by their sources

Neither the table nor the heap has any say in what becomes of a request: `serve` and
`checkbtime` do what `Buckets.serve` and `Buckets.check` do to a map from sources to buckets.

Main results:
* `serve_refines`, `checkbtime_refines`: the map is what the steps of the program go by, and
  the table and the heap stay in order.
-/

namespace Ashd.Ratequeue

variable {α : Type*}

/-- A bucket without its position in the heap. -/
def Bucket.plain (b : Bucket α) : Bucket α := { b with thpos := 0 }

/-- The buckets by their sources. -/
abbrev Buckets (α : Type*) := ℕ × Bytes → Option (Bucket α)

/-- The buckets of a state, for which `m` says where they are. -/
def view (s : State α) (m : ℕ × Bytes → Option ℕ) : Buckets α := fun k =>
  (m k).map fun bk => (s.mem bk).plain

/-- The buckets that are in use. -/
def Live (m : ℕ × Bytes → Option ℕ) (bk : ℕ) : Prop := ∃ k, m k = some bk

section Map

variable [Field α] [LinearOrder α] (cf : Config α)

/-- What a request does to the buckets, and what becomes of requests. -/
def Buckets.serve (inet_pton : ℕ → Bytes → Option Bytes) (now : α) (w : Waiting) (v : Buckets α) :
    Buckets α × List Event :=
  let src := reqsource inet_pton w.req
  match tickbucket cf now ((v src.key).getD (newBucket src now).plain) with
  | (b, sent) =>
    match serveBucket cf now w b with
    | (b, evs) => (Function.update v src.key (some b), sent.map Event.passed ++ evs)

/-- What a check of the bucket of a source does. -/
def Buckets.check (now : α) (k : ℕ × Bytes) (v : Buckets α) : Buckets α × List Event :=
  match v k with
  | none => (v, [])
  | some b =>
    match tickbucket cf now b with
    | (b, sent) =>
      if b.level = 0 ∧ now ≥ b.etime + cf.retain ∧ b.blocked ≤ 0 then
        (Function.update v k none, sent.map Event.passed ++ b.brim.map Event.closed)
      else (Function.update v k (some b), sent.map Event.passed)

/-! ## Positions do not matter -/

theorem tickbucket_plain (now : α) (b : Bucket α) :
    tickbucket cf now b.plain = ((tickbucket cf now b).1.plain, (tickbucket cf now b).2) := by
  unfold tickbucket leak Bucket.plain
  simp only
  split_ifs <;> rfl

theorem ticked_fields {now : α} {b b' : Bucket α} {sent : List Waiting}
    (h : tickbucket cf now b = (b', sent)) : b'.id = b.id ∧ b'.thpos = b.thpos := by
  unfold tickbucket leak at h
  simp only at h
  split_ifs at h <;> cases h <;> exact ⟨rfl, rfl⟩

theorem serveBucket_plain (now : α) (w : Waiting) (b : Bucket α) :
    serveBucket cf now w b.plain = ((serveBucket cf now w b).1.plain, (serveBucket cf now w b).2) := by
  unfold serveBucket block Bucket.plain
  simp only
  split_ifs <;> rfl

theorem served_fields {now : α} {w : Waiting} {b b' b'' : Bucket α} {sent : List Waiting}
    {evs : List Event} (ht : tickbucket cf now b = (b', sent)) (hs : serveBucket cf now w b' = (b'', evs)) :
    b''.id = b.id ∧ b''.thpos = b.thpos := by
  have hfields : b''.id = b'.id ∧ b''.thpos = b'.thpos := by
    unfold serveBucket block at hs
    split_ifs at hs <;> cases hs <;> exact ⟨rfl, rfl⟩
  obtain ⟨hid, hpos⟩ := ticked_fields cf ht
  exact ⟨hfields.1.trans hid, hfields.2.trans hpos⟩

end Map

/-! ## Views -/

section View

variable {s s' : State α} {m m' : ℕ × Bytes → Option ℕ} {k : ℕ × Bytes} {bk : ℕ}

theorem view_some (h : m k = some bk) : view s m k = some (s.mem bk).plain := by
  unfold view
  rw [h]
  rfl

theorem view_none (h : m k = none) : view s m k = none := by
  unfold view
  rw [h]
  rfl

theorem view_eq_none : view s m k = none ↔ m k = none := by
  unfold view
  rw [Option.map_eq_none_iff]

/-- The views of two states are the same, but for one source. -/
theorem view_update {b : Option (Bucket α)} (hm : ∀ k' ≠ k, m' k' = m k')
    (hmem : ∀ k' ≠ k, ∀ bk, m k' = some bk → (s'.mem bk).plain = (s.mem bk).plain)
    (hk : view s' m' k = b) : view s' m' = Function.update (view s m) k b := by
  funext k'
  by_cases hkk : k' = k
  · rw [hkk, Function.update_self, hk]
  · rw [Function.update_of_ne hkk]
    cases hmk : m k' with
    | none => rw [view_none hmk, view_none ((hm k' hkk).trans hmk)]
    | some bk =>
      rw [view_some hmk, view_some ((hm k' hkk).trans hmk), hmem k' hkk bk hmk]

theorem SameBut.plain (h : SameBut s s') (bk : ℕ) : (s'.mem bk).plain = (s.mem bk).plain := by
  obtain ⟨n, hn⟩ := h.mem bk
  rw [hn]
  rfl

/-- Two sources have different buckets. -/
theorem TableOk.ne_of_key_ne (h : TableOk s m) {k' : ℕ × Bytes} {bk' : ℕ} (hk : m k = some bk)
    (hk' : m k' = some bk') (hne : k' ≠ k) : bk' ≠ bk := by
  rintro rfl
  exact hne (((h.maps _ _).mp hk').2.symm.trans ((h.maps _ _).mp hk).2)

/-- A new source. -/
theorem live_update (h : m k = none) {b : ℕ} : Live (Function.update m k (some bk)) b ↔ Live m b ∨ b = bk := by
  constructor
  · rintro ⟨k', hk'⟩
    by_cases hk : k' = k
    · rw [hk, Function.update_self, Option.some.injEq] at hk'
      exact .inr hk'.symm
    · rw [Function.update_of_ne hk] at hk'
      exact .inl ⟨k', hk'⟩
  · rintro (⟨k', hk'⟩ | rfl)
    · refine ⟨k', ?_⟩
      rw [Function.update_of_ne, hk']
      rintro rfl
      rw [h] at hk'
      cases hk'
    · exact ⟨k, Function.update_self ..⟩

/-- Storing the bucket of a source. -/
theorem store_plain_of_ne (h : TableOk s m) (hk : m k = some bk) {b : Bucket α} :
    ∀ k' ≠ k, ∀ bk', m k' = some bk' → ((s.store bk b).mem bk').plain = (s.mem bk').plain := by
  intro k' hne bk' hbk'
  rw [store_of_ne s b (h.ne_of_key_ne hk hbk' hne)]

end View

/-! ## Steps -/

section Steps

variable [Field α] [LinearOrder α]

/-- What is known of every entry of the heap and its bucket. -/
def Due (R : Bucket α → α → Prop) (s : State α) : Prop := ∀ e ∈ s.timeheap, R (s.mem e.bk).plain e.tm

/-- What a step that has to do with the source `k` keeps. -/
structure Step (cf : Config α) (k : ℕ × Bytes) (s : State α) (m : ℕ × Bytes → Option ℕ) (s' : State α)
    (m' : ℕ × Bytes → Option ℕ) : Prop where
  table : TableOk s' m'
  heap : Indexed s' (Live m')
  now : s'.now = s.now
  sorted : Sorted s → Sorted s'
  due : ∀ R, Due R s → (∀ b, view s' m' k = some b → R b (btime cf b)) → Due R s'

variable {cf : Config α} {s : State α} {m : ℕ × Bytes → Option ℕ} {k : ℕ × Bytes} {bk : ℕ}

variable (cf) in
/-- A bucket that is in use is given new contents, and its entry a new time. -/
theorem store_step (ht : TableOk s m) (hh : Indexed s (Live m)) (hk : m k = some bk) {b : Bucket α}
    (hid : b.id = (s.mem bk).id) (hpos : b.thpos = (s.mem bk).thpos) :
    Step cf k s m (updbtime cf bk (s.store bk b)) m ∧
      view (updbtime cf bk (s.store bk b)) m = Function.update (view s m) k (some b.plain) := by
  have hidx : Indexed (s.store bk b) (Live m) :=
    hh.congr rfl (fun bk' _ => store_thpos hpos bk') fun _ => Iff.rfl
  obtain ⟨hsame, hidx', hsorted, hent⟩ := updbtime_spec cf hidx ⟨k, hk⟩
  have hview : view (updbtime cf bk (s.store bk b)) m = Function.update (view s m) k (some b.plain) := by
    refine view_update (fun _ _ => rfl) (fun k' hne bk' hbk' => ?_) ?_
    · rw [hsame.plain, store_plain_of_ne ht hk k' hne bk' hbk']
    · rw [view_some hk, hsame.plain, store_self]
  refine ⟨⟨(ht.congr (store_table hid)).congr hsame.table, hidx', hsame.now, hsorted, fun R hR hb => ?_⟩, hview⟩
  rw [hview, Function.update_self] at hb
  intro e he
  rcases hent e he with ⟨rfl, htm⟩ | ⟨hmem, hne⟩
  · rw [hsame.plain, htm, store_self]
    exact hb _ rfl
  · rw [hsame.plain, store_of_ne _ _ hne]
    exact hR e hmem

variable (cf) in
/-- A source that has no bucket is given one. -/
theorem new_step (ht : TableOk s m) (hh : Indexed s (Live m)) {src : Source} (hm : m src.key = none)
    {s₁ : State α} (ht₁ : TableOk s₁ (Function.update m src.key (some s.fresh)))
    (hrest : s₁.rest = (Function.update s.mem s.fresh (newBucket src s.now), s.fresh + 1, s.timeheap, s.now))
    {b : Bucket α} (hid : b.id = src) (hpos : b.thpos = -1) :
    Step cf src.key s m (updbtime cf s.fresh (s₁.store s.fresh b)) (Function.update m src.key (some s.fresh)) ∧
      view (updbtime cf s.fresh (s₁.store s.fresh b)) (Function.update m src.key (some s.fresh)) =
        Function.update (view s m) src.key (some b.plain) := by
  have hmem : s₁.mem = Function.update s.mem s.fresh (newBucket src s.now) := congrArg Prod.fst hrest
  have htimes : s₁.timeheap = s.timeheap := congrArg (fun r => r.2.2.1) hrest
  have hnow : s₁.now = s.now := congrArg (fun r => r.2.2.2) hrest
  have hold : ∀ bk, Live m bk → bk ≠ s.fresh := by
    rintro bk ⟨k, hk⟩
    exact (ht.fresh bk ((ht.maps k bk).mp hk).1).ne
  have hmem' : ∀ bk, Live m bk → (s₁.store s.fresh b).mem bk = s.mem bk := by
    intro bk hbk
    rw [store_of_ne _ _ (hold bk hbk), hmem, Function.update_of_ne (hold bk hbk)]
  have hself : s₁.mem s.fresh = newBucket src s.now := by rw [hmem, Function.update_self]
  have hidx : Indexed (s₁.store s.fresh b) (Live m) :=
    hh.congr htimes (fun bk hbk => by rw [hmem' bk hbk]) fun _ => Iff.rfl
  obtain ⟨hsame, hidx', hsorted, hent⟩ := updbtime_new cf hidx (fun hl => hold _ hl rfl) (by
    rw [store_self, hpos]
    exact Int.negSucc_lt_zero 0)
  have hview : view (updbtime cf s.fresh (s₁.store s.fresh b)) (Function.update m src.key (some s.fresh)) =
      Function.update (view s m) src.key (some b.plain) := by
    refine view_update (fun k hk => Function.update_of_ne hk _ _) (fun k _ bk hbk => ?_) ?_
    · rw [hsame.plain, hmem' bk ⟨k, hbk⟩]
    · rw [view_some (Function.update_self ..), hsame.plain, store_self]
  refine ⟨⟨(ht₁.congr (store_table (by rw [hself]; exact hid))).congr hsame.table,
    hidx'.congr rfl (fun _ _ => rfl) fun bk => (live_update hm).symm, hsame.now.trans hnow,
    fun hs => hsorted ?_, fun R hR hb => ?_⟩, hview⟩
  · unfold Sorted times State.heapAt
    rw [show (s₁.store s.fresh b).timeheap = s.timeheap from htimes]
    exact hs
  · rw [hview, Function.update_self] at hb
    intro e he
    rw [hsame.plain]
    rcases hent e he with ⟨hek, htm⟩ | ⟨hmem, -⟩
    · rw [hek, htm, store_self]
      exact hb _ rfl
    · rw [show (s₁.store s.fresh b).timeheap = s.timeheap from htimes] at hmem
      obtain ⟨n, hn⟩ := List.mem_iff_getElem?.mp hmem
      rw [hmem' _ (hh.pos n e hn).2]
      exact hR e hmem

variable (cf) in
/-- `serve` does to the map what it is to do. -/
theorem serve_refines (inet_pton : ℕ → Bytes → Option Bytes) (ht : TableOk s m) (hh : Indexed s (Live m))
    (now : α) (w : Waiting) :
    serve cf inet_pton now w s = .error .nomem ∨
      ∃ s' evs m', serve cf inet_pton now w s = .ok (s', evs) ∧
        Step cf (reqsource inet_pton w.req).key { s with now := now } m s' m' ∧
        Buckets.serve cf inet_pton now w (view s m) = (view s' m', evs) := by
  obtain ⟨src, hsrc⟩ : ∃ src, src = reqsource inet_pton w.req := ⟨_, rfl⟩
  have ht' := ht.setNow now
  have hh' : Indexed { s with now := now } (Live m) := hh.congr rfl (fun _ _ => rfl) fun _ => Iff.rfl
  unfold serve Buckets.serve
  rw [← hsrc]
  rcases hashget_spec ht' src with ⟨bk, hm, hget⟩ | ⟨hm, ⟨herr, -⟩ | ⟨s₁, hget, ht₁, hrest, -⟩⟩
  · right
    obtain ⟨b, sent, htick⟩ : ∃ b sent, tickbucket cf now (s.mem bk) = (b, sent) := ⟨_, _, rfl⟩
    obtain ⟨b', evs, hserve⟩ : ∃ b' evs, serveBucket cf now w b = (b', evs) := ⟨_, _, rfl⟩
    obtain ⟨hid, hpos⟩ := served_fields cf htick hserve
    obtain ⟨hstep, hview⟩ := store_step cf ht' hh' hm hid hpos
    rw [hget]
    simp only [htick, hserve]
    refine ⟨_, _, m, rfl, hstep, ?_⟩
    rw [hview, view_some hm, Option.getD_some, tickbucket_plain, htick]
    simp only [serveBucket_plain, hserve]
    rfl
  · rw [herr]
    exact .inl rfl
  · right
    have hself : s₁.mem s.fresh = newBucket src now := by
      rw [show s₁.mem = Function.update s.mem s.fresh (newBucket src now) from congrArg Prod.fst hrest,
        Function.update_self]
    obtain ⟨b, sent, htick⟩ : ∃ b sent, tickbucket cf now (newBucket src now) = (b, sent) := ⟨_, _, rfl⟩
    obtain ⟨b', evs, hserve⟩ : ∃ b' evs, serveBucket cf now w b = (b', evs) := ⟨_, _, rfl⟩
    obtain ⟨hid, hpos⟩ := served_fields cf htick hserve
    obtain ⟨hstep, hview⟩ := new_step cf ht' hh' hm ht₁ hrest hid hpos
    rw [hget]
    simp only [hself, htick, hserve]
    refine ⟨_, _, _, rfl, hstep, ?_⟩
    rw [hview, view_none hm, Option.getD_none, tickbucket_plain, htick]
    simp only [serveBucket_plain, hserve]
    rfl

variable (cf) in
/-- At the current time, `checkbtime` does to the map what it is to do. -/
theorem checkbtime_step (ht : TableOk s m) (hh : Indexed s (Live m)) (hk : m k = some bk) :
    ∃ s' evs m', checkbtime cf bk s = .ok (s', evs) ∧ Step cf k s m s' m' ∧
      Buckets.check cf s.now k (view s m) = (view s' m', evs) := by
  obtain ⟨b, sent, htick⟩ : ∃ b sent, tickbucket cf s.now (s.mem bk) = (b, sent) := ⟨_, _, rfl⟩
  obtain ⟨hid, hpos⟩ := ticked_fields cf htick
  have hplain : tickbucket cf s.now (s.mem bk).plain = (b.plain, sent) := by
    rw [tickbucket_plain, htick]
  unfold checkbtime Buckets.check
  rw [view_some hk]
  simp only [htick, hplain]
  by_cases hfree : b.level = 0 ∧ s.now ≥ b.etime + cf.retain ∧ b.blocked ≤ 0
  · have hidx : Indexed (s.store bk b) (Live m) :=
      hh.congr rfl (fun bk' _ => store_thpos hpos bk') fun _ => Iff.rfl
    obtain ⟨s', hs', ht', hh', hnow, hmem, hsorted, hent⟩ :=
      freebucket_spec (ht.congr (store_table hid)) hidx hk
    have hplain' : ∀ bk', (s'.mem bk').plain = ((s.store bk b).mem bk').plain := by
      intro bk'
      obtain ⟨n, hn⟩ := hmem bk'
      rw [hn]
      rfl
    have hview : view s' (Function.update m k none) = Function.update (view s m) k none := by
      refine view_update (fun k' hne => Function.update_of_ne hne _ _) (fun k' hne bk' hbk' => ?_)
        (view_none (Function.update_self ..))
      rw [hplain', store_plain_of_ne ht hk k' hne bk' hbk']
    rw [if_pos (show b.level = 0 ∧ (s.store bk b).now ≥ _ ∧ _ from hfree),
      if_pos (show b.plain.level = 0 ∧ _ ≥ b.plain.etime + _ ∧ b.plain.blocked ≤ 0 from hfree), hs', store_self]
    refine ⟨s', _, _, rfl, ⟨ht', hh', hnow, hsorted, fun R hR _ e he => ?_⟩, Prod.ext hview.symm rfl⟩
    -- the entries that are left are those of other buckets
    obtain ⟨n, hn⟩ := List.mem_iff_getElem?.mp he
    obtain ⟨-, k', hk'⟩ := hh'.pos n e hn
    have hne : k' ≠ k := by
      rintro rfl
      rw [Function.update_self] at hk'
      cases hk'
    rw [Function.update_of_ne hne] at hk'
    rw [hplain', store_plain_of_ne ht hk k' hne _ hk']
    exact hR e (hent e he)
  · obtain ⟨hstep, hview⟩ := store_step cf ht hh hk hid hpos
    rw [if_neg (show ¬ (b.level = 0 ∧ (s.store bk b).now ≥ _ ∧ _) from hfree),
      if_neg (show ¬ (b.plain.level = 0 ∧ _ ≥ b.plain.etime + _ ∧ b.plain.blocked ≤ 0) from hfree)]
    exact ⟨_, _, m, rfl, hstep, Prod.ext hview.symm rfl⟩

variable (cf) in
/-- So it does at any other time. -/
theorem checkbtime_refines (ht : TableOk s m) (hh : Indexed s (Live m)) (hk : m k = some bk) (now : α) :
    ∃ s' evs m', checkbtime cf bk { s with now := now } = .ok (s', evs) ∧
      Step cf k { s with now := now } m s' m' ∧
      Buckets.check cf now k (view s m) = (view s' m', evs) :=
  checkbtime_step cf (ht.setNow now) (hh.congr rfl (fun _ _ => rfl) fun _ => Iff.rfl) hk

end Steps

end Ashd.Ratequeue
