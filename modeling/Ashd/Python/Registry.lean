import Ashd.Python.Epoller

/-!
# The registry of the epoll watcher

A channel is in the registry when its descriptor is registered for it; `fdcache` is to say so, too,
the epoll object is to have the descriptors that are registered, and a channel that was taken in is
to be closed when it leaves.

Main definitions:
* `Consistent`: what is to hold of the registry.
* `Good`: the steps that keep it so.

Main results:
* `step_consistent_iff`: a step keeps the registry consistent exactly if it is good.
* `registry_consistent_iff`: it is consistent throughout a run exactly if all its steps are good.
* `stop_inconsistent`: it is not when the watcher is stopped.
-/

namespace Ashd.Asyncio

open Lifetime

variable {Ch : Type*} [DecidableEq Ch] {s s' : Epoller Ch} {ch : Ch} {fd : ℤ} {evs : ℕ}

/-! ## What is to hold -/

/-- The two dictionaries say the same, the epoll object has the descriptors that are registered and
    what is waited for on them, and every channel has been closed once for each time it was taken
    in, except for the last if it is registered. -/
structure Consistent (s : Epoller Ch) : Prop where
  cache : ∀ ch fd, s.fdcache.lookup ch = some fd ↔ ∃ evs, s.registered.lookup fd = some (ch, evs)
  kernel : ∀ ep, s.ep = some ep → ∀ fd, ep.lookup fd = (s.registered.lookup fd).map Prod.snd
  closed : ∀ ch, isOpen ch s.calls false = some (decide (ch ∈ s.fdcache))

/-- A channel can be added: it is not registered with another descriptor, and the epoll object, if
    there is one, takes the descriptor. -/
def CanAdd (s : Epoller Ch) (ch : Ch) (fileno : Option ℤ) (takes : Bool) : Prop :=
  ∀ fd, fileno = some fd → fd ∉ s.registered →
    ch ∉ s.fdcache ∧ (s.evsfor ch ≠ 0 → s.ep ≠ none → takes = true)

/-- A descriptor that an event came for has gone to another channel, and the end of the body of the
    loop would still change something for the first one, as it is no longer waiting for anything but
    is registered with another descriptor, or waits for something else than it did. -/
def Stale (s : Epoller Ch) (fd : ℤ) (ch : Ch) (cevs : ℕ) : Prop :=
  ∃ pch evs, s.registered.lookup fd = some (pch, evs) ∧ pch ≠ ch ∧
    if s.evsfor ch = 0 then ch ∈ s.fdcache else s.evsfor ch ≠ cevs

/-- The loop can go on after `_cb`. -/
def CanResume (s : Epoller Ch) : Place Ch → Prop
  | .read fd evs ch cevs => evs &&& EPOLLOUT = 0 → ¬ Stale s fd ch cevs
  | .write fd ch cevs => ¬ Stale s fd ch cevs
  | .close => True
  | .closeall => s.registered.entries = []

/-- The steps that keep the registry consistent. -/
def Good (m : Machine Ch) : Action Ch → Prop
  | .call (.add ch fileno takes) => CanAdd m.watcher ch fileno takes
  | .call (.stop own cb rp takes) =>
    own = false →
      CanAdd { m.watcher with
        readable := Function.update m.watcher.readable cb true
        writable := Function.update m.watcher.writable cb false } cb (some rp) takes
  | .ret =>
    match m.stack with
    | .cb _ place :: _ | .handler place :: _ => CanResume m.watcher place
    | _ => True
  | .start takes => ∀ fd ∈ m.watcher.registered, takes fd = true
  | .closeall => m.watcher.registered.entries = []
  | _ => True

/-! ## Dictionaries -/

section Dict

variable {α β : Type*} [DecidableEq α] {d : AList fun _ : α => β} {a a' : α} {b : β}

theorem exists_lookup (h : a ∈ d) : ∃ b, d.lookup a = some b :=
  Option.isSome_iff_exists.mp (AList.lookup_isSome.mpr h)

theorem mem_of_lookup (h : d.lookup a = some b) : a ∈ d := AList.lookup_isSome.mp (by rw [h]; rfl)

theorem lookup_erase_eq : (d.erase a).lookup a' = if a' = a then none else d.lookup a' := by
  split_ifs with h
  · rw [h, AList.lookup_erase]
  · exact AList.lookup_erase_ne h

theorem lookup_insert_eq : (d.insert a b).lookup a' = if a' = a then some b else d.lookup a' := by
  split_ifs with h
  · rw [h, AList.lookup_insert]
  · exact AList.lookup_insert_ne h

theorem dlookup_kreplace {l : List (Σ _ : α, β)} (h : a ∈ l.keys) :
    (l.kreplace a b).dlookup a' = if a' = a then some b else l.dlookup a' := by
  induction l with
  | nil => cases h
  | cons e l ih =>
    obtain ⟨k, v⟩ := e
    unfold List.kreplace at ih ⊢
    by_cases hk : a = k
    · subst hk
      have hsome : (if a = (⟨a, v⟩ : Σ _ : α, β).1 then some (⟨a, b⟩ : Σ _ : α, β) else none) =
          some ⟨a, b⟩ := if_pos rfl
      rw [List.lookmap_cons_some _ _ hsome]
      split_ifs with ha
      · rw [ha, List.dlookup_cons_eq]
      · rw [List.dlookup_cons_ne _ _ ha, List.dlookup_cons_ne _ _ ha]
    · rw [List.lookmap_cons_none _ _ (by simp [hk])]
      by_cases hk' : a' = k
      · rw [hk', List.dlookup_cons_eq, List.dlookup_cons_eq, if_neg (Ne.symm hk)]
      · rw [List.dlookup_cons_ne _ _ hk', List.dlookup_cons_ne _ _ hk',
          ih ((List.mem_cons.mp h).resolve_left hk)]

theorem lookup_replace_eq (h : a ∈ d) :
    (d.replace a b).lookup a' = if a' = a then some b else d.lookup a' := dlookup_kreplace h

end Dict

/-! ## Taking out and changing -/

/-- Whether the registry is consistent does not depend on the thread or on the channels. -/
theorem consistent_congr (hr : s'.registered = s.registered) (hf : s'.fdcache = s.fdcache)
    (he : s'.ep = s.ep) (hc : s'.calls = s.calls) : Consistent s' ↔ Consistent s := by
  constructor
  · intro h
    exact ⟨hr ▸ hf ▸ h.cache, hr ▸ he ▸ h.kernel, hf ▸ hc ▸ h.closed⟩
  · intro h
    exact ⟨hr ▸ hf ▸ h.cache, hr ▸ he ▸ h.kernel, hf ▸ hc ▸ h.closed⟩

theorem Consistent.congr (h : Consistent s) (hr : s'.registered = s.registered)
    (hf : s'.fdcache = s.fdcache) (he : s'.ep = s.ep) (hc : s'.calls = s.calls) : Consistent s' :=
  (consistent_congr hr hf he hc).mpr h

theorem Consistent.mem_cache (h : Consistent s) (hr : s.registered.lookup fd = some (ch, evs)) :
    s.fdcache.lookup ch = some fd := (h.cache ch fd).mpr ⟨evs, hr⟩

/-- A descriptor that is registered is known to the epoll object. -/
theorem Consistent.mem_ep (h : Consistent s) {ep : AList fun _ : ℤ => ℕ} (he : s.ep = some ep) :
    fd ∈ ep ↔ fd ∈ s.registered := by
  rw [← AList.lookup_isSome, ← AList.lookup_isSome, h.kernel ep he, Option.isSome_map]

theorem isOpen_concat_of_ne {u : Use Ch} (ho : u ≠ .opened ch) (hc : u ≠ .closed ch)
    (us : List (Use Ch)) : isOpen ch (us ++ [u]) false = isOpen ch us false := by
  rw [isOpen_append]
  cases isOpen ch us false with
  | none => rfl
  | some b =>
    rw [Option.bind_some, isOpen, if_neg ho, if_neg hc]
    rfl

omit [DecidableEq Ch] in
theorem register_eq (s : Epoller Ch) (fd : ℤ) (evs : ℕ) (takes : Bool)
    (htakes : ∀ ep, s.ep = some ep → takes = true ∧ fd ∉ ep) :
    s.register fd evs takes = some { s with ep := s.ep.map (AList.insert fd evs) } := by
  obtain ⟨registered, fdcache, ep, th, stopped, readable, writable, calls⟩ := s
  cases ep with
  | none => rfl
  | some ep => exact if_pos (htakes ep rfl)

omit [DecidableEq Ch] in
theorem register_eq_none (s : Epoller Ch) (fd : ℤ) (evs : ℕ) {ep : AList fun _ : ℤ => ℕ}
    {takes : Bool} (he : s.ep = some ep) (htakes : ¬ takes = true) :
    s.register fd evs takes = none := by
  unfold Epoller.register
  rw [he]
  exact if_neg fun h => htakes h.1

omit [DecidableEq Ch] in
theorem unregister_eq (s : Epoller Ch) (fd : ℤ) (hmem : ∀ ep, s.ep = some ep → fd ∈ ep) :
    s.unregister fd = some { s with ep := s.ep.map (AList.erase fd) } := by
  obtain ⟨registered, fdcache, ep, th, stopped, readable, writable, calls⟩ := s
  cases ep with
  | none => rfl
  | some ep => exact if_pos (hmem ep rfl)

omit [DecidableEq Ch] in
theorem modify_eq (s : Epoller Ch) (fd : ℤ) (evs : ℕ) (hmem : ∀ ep, s.ep = some ep → fd ∈ ep) :
    s.modify fd evs = some { s with ep := s.ep.map (AList.replace fd evs) } := by
  obtain ⟨registered, fdcache, ep, th, stopped, readable, writable, calls⟩ := s
  cases ep with
  | none => rfl
  | some ep => exact if_pos (hmem ep rfl)

/-- The two dictionaries without a channel that is registered. -/
theorem Consistent.cache_erase (h : Consistent s) (hr : s.registered.lookup fd = some (ch, evs))
    (ch' : Ch) (fd' : ℤ) : (s.fdcache.erase ch).lookup ch' = some fd' ↔
      ∃ evs, (s.registered.erase fd).lookup fd' = some (ch', evs) := by
  rw [lookup_erase_eq, lookup_erase_eq]
  constructor
  · intro hl
    split_ifs at hl with hc
    obtain ⟨evs', hr'⟩ := (h.cache ch' fd').mp hl
    have hf : fd' ≠ fd := by
      rintro rfl
      exact hc (Prod.mk.inj (Option.some.inj (hr'.symm.trans hr))).1
    exact ⟨evs', by rw [if_neg hf, hr']⟩
  · rintro ⟨evs', hr'⟩
    split_ifs at hr' with hf
    have hl := h.mem_cache hr'
    have hc : ch' ≠ ch := by
      rintro rfl
      exact hf (Option.some.inj (hl.symm.trans (h.mem_cache hr)))
    rw [if_neg hc, hl]

theorem Consistent.isOpen_closed (h : Consistent s) (hch : ch ∈ s.fdcache) (ch' : Ch) :
    isOpen ch' (s.calls ++ [.closed ch]) false = some (decide (ch' ∈ s.fdcache.erase ch)) := by
  by_cases hc : ch' = ch
  · rw [hc, isOpen_append, h.closed ch, decide_eq_true hch]
    simp [isOpen]
  · rw [isOpen_concat_of_ne (by simp) (by simpa using Ne.symm hc), h.closed ch']
    simp [hc]

/-- A channel that is registered leaves the registry and is closed. -/
theorem Consistent.drop (h : Consistent s) (hr : s.registered.lookup fd = some (ch, evs)) :
    (s.drop ch fd).2 = .close ∧ Consistent (s.drop ch fd).1 := by
  unfold Epoller.drop
  have heq := unregister_eq
    { s with fdcache := s.fdcache.erase ch, registered := s.registered.erase fd } fd
    fun ep he => (h.mem_ep he).mpr (mem_of_lookup hr)
  simp only [heq]
  refine ⟨trivial, h.cache_erase hr, ?_, h.isOpen_closed (mem_of_lookup (h.mem_cache hr))⟩
  intro ep' hep' fd'
  obtain ⟨ep, he, rfl⟩ := Option.map_eq_some_iff.mp hep'
  simp only [Epoller.close]
  rw [lookup_erase_eq, lookup_erase_eq, h.kernel ep he]
  split_ifs <;> rfl

/-- What is waited for on a descriptor changes. -/
theorem Consistent.rewatch (h : Consistent s) (hr : s.registered.lookup fd = some (ch, evs))
    (evs' : ℕ) : (s.rewatch ch fd evs').2 = .ret ∧ Consistent (s.rewatch ch fd evs').1 := by
  have hfd := mem_of_lookup hr
  have hcache : ∀ ch' fd', s.fdcache.lookup ch' = some fd' ↔
      ∃ evs, (s.registered.replace fd (ch, evs')).lookup fd' = some (ch', evs) := by
    intro ch' fd'
    rw [lookup_replace_eq hfd, h.cache ch' fd']
    split_ifs with hf
    · rw [hf, hr]
      simp
    · rfl
  unfold Epoller.rewatch
  have heq := modify_eq { s with registered := s.registered.replace fd (ch, evs') } fd evs'
    fun ep he => (h.mem_ep he).mpr hfd
  simp only [heq]
  refine ⟨trivial, hcache, ?_, h.closed⟩
  intro ep' hep' fd'
  obtain ⟨ep, he, rfl⟩ := Option.map_eq_some_iff.mp hep'
  simp only
  rw [lookup_replace_eq ((h.mem_ep he).mpr hfd), lookup_replace_eq hfd, h.kernel ep he]
  split_ifs <;> rfl

/-! ## The methods -/

theorem remove_consistent (h : Consistent s) (ch : Ch) (ignore : Bool) :
    Consistent (s.remove ch ignore).1 := by
  unfold Epoller.remove
  cases hch : s.fdcache.lookup ch with
  | none => exact h
  | some fd =>
    obtain ⟨evs, hr⟩ := (h.cache ch fd).mp hch
    simp only [hr, ne_eq, not_true_eq_false, if_false]
    exact (h.drop hr).2

theorem update_consistent (h : Consistent s) (ch : Ch) (ignore : Bool) :
    Consistent (s.update ch ignore).1 := by
  unfold Epoller.update
  cases hch : s.fdcache.lookup ch with
  | none => exact h
  | some fd =>
    obtain ⟨evs, hr⟩ := (h.cache ch fd).mp hch
    simp only [hr, ne_eq, not_true_eq_false, if_false]
    split_ifs
    · exact (h.drop hr).2
    · exact h
    · exact (h.rewatch hr _).2

theorem ckrun_consistent_iff : Consistent s.ckrun ↔ Consistent s := by
  unfold Epoller.ckrun
  split_ifs
  · exact consistent_congr rfl rfl rfl rfl
  · rfl

theorem isOpen_opened (h : Consistent s) (hch : ch ∉ s.fdcache) (ch' : Ch) :
    isOpen ch' (s.calls ++ [.opened ch]) false = some (decide (ch' = ch ∨ ch' ∈ s.fdcache)) := by
  by_cases hc : ch' = ch
  · rw [hc, isOpen_append, h.closed ch, decide_eq_false hch]
    simp [isOpen]
  · rw [isOpen_concat_of_ne (by simpa using Ne.symm hc) (by simp), h.closed ch']
    simp [hc]

/-- A channel that is in the registry cannot be taken in once more. -/
theorem isOpen_opened_again (h : Consistent s) (hch : ch ∈ s.fdcache) (us : List (Use Ch)) :
    isOpen ch (s.calls ++ .opened ch :: us) false = none := by
  rw [isOpen_append, h.closed ch, decide_eq_true hch]
  simp [isOpen]

/-- A channel that is not in the registry is put into it, with a free descriptor. -/
theorem Consistent.insert (h : Consistent s) (hfd : fd ∉ s.registered) (hch : ch ∉ s.fdcache)
    (evs : ℕ) :
    Consistent { s with
      calls := s.calls ++ [.opened ch]
      fdcache := s.fdcache.insert ch fd
      registered := s.registered.insert fd (ch, evs)
      ep := s.ep.map (AList.insert fd evs) } where
  cache := by
    intro ch' fd'
    simp only
    rw [lookup_insert_eq, lookup_insert_eq]
    split_ifs with hc hf hf
    · simp [hc, hf]
    · rw [hc, ← h.cache ch fd', AList.lookup_eq_none.mpr hch]
      simp [Ne.symm hf]
    · rw [hf, h.cache ch' fd, AList.lookup_eq_none.mpr hfd]
      simp [Ne.symm hc]
    · exact h.cache ch' fd'
  kernel := by
    intro ep' hep' fd'
    obtain ⟨ep, he, rfl⟩ := Option.map_eq_some_iff.mp hep'
    simp only
    rw [lookup_insert_eq, lookup_insert_eq, h.kernel ep he]
    split_ifs <;> rfl
  closed := by
    intro ch'
    simp only
    rw [isOpen_opened h hch ch']
    simp

theorem add_calls (s : Epoller Ch) (ch : Ch) (hfd : fd ∉ s.registered) (takes : Bool) :
    ∃ us, (s.add ch (some fd) takes).1.calls = s.calls ++ .opened ch :: us := by
  unfold Epoller.add Epoller.register Epoller.ckrun Epoller.close
  simp only [hfd, if_false]
  split_ifs
  · exact ⟨[.closed ch], by simp⟩
  · cases s.ep with
    | none =>
      simp only
      split_ifs <;> exact ⟨[], rfl⟩
    | some ep =>
      simp only
      by_cases htakes : takes = true ∧ fd ∉ ep
      · simp only [htakes, not_false_eq_true, and_self, if_true]
        split_ifs <;> exact ⟨[], rfl⟩
      · simp only [htakes, if_false]
        exact ⟨[], rfl⟩

/-- A channel that waits for nothing is closed at once. -/
theorem Consistent.idle (h : Consistent s) (hch : ch ∉ s.fdcache) :
    Consistent (Epoller.close { s with calls := s.calls ++ [.opened ch] } ch) where
  cache := h.cache
  kernel := h.kernel
  closed := by
    intro ch'
    simp only [Epoller.close]
    by_cases hc : ch' = ch
    · rw [hc, isOpen_append, isOpen_opened h hch ch]
      simp [hch, isOpen]
    · rw [isOpen_concat_of_ne (by simp) (by simpa using Ne.symm hc), isOpen_opened h hch ch']
      exact congrArg some (decide_eq_decide.mpr (or_iff_right hc))

/-- A channel that is registered with another descriptor cannot be added. -/
theorem not_consistent_add (h : Consistent s) (hfd : fd ∉ s.registered) (hch : ch ∈ s.fdcache)
    (takes : Bool) : ¬ Consistent (s.add ch (some fd) takes).1 := by
  intro hcons
  obtain ⟨us, hus⟩ := add_calls s ch hfd takes
  have hopen := hcons.closed ch
  rw [hus, isOpen_opened_again h hch us] at hopen
  cases hopen

/-- A descriptor that is registered without the epoll object. -/
theorem not_consistent_insert (h : Consistent s) (hfd : fd ∉ s.registered)
    {ep : AList fun _ : ℤ => ℕ} (he : s.ep = some ep) {t : Epoller Ch} (hep : t.ep = s.ep)
    (hreg : t.registered = s.registered.insert fd (ch, evs)) : ¬ Consistent t := by
  intro hcons
  have hkernel := hcons.kernel ep (hep.trans he) fd
  rw [hreg, lookup_insert_eq, if_pos rfl,
    AList.lookup_eq_none.mpr fun hmem => hfd ((h.mem_ep he).mp hmem)] at hkernel
  cases hkernel

/-- Adding a channel keeps the registry consistent just if it can be added. -/
theorem add_consistent_iff (h : Consistent s) (ch : Ch) (fileno : Option ℤ) (takes : Bool) :
    Consistent (s.add ch fileno takes).1 ↔ CanAdd s ch fileno takes := by
  cases fileno with
  | none => exact iff_of_true h fun fd hfd => by cases hfd
  | some fd =>
    by_cases hfd : fd ∈ s.registered
    · have hadd : s.add ch (some fd) takes = (s, .raise) := if_pos hfd
      rw [hadd]
      refine iff_of_true h ?_
      rintro fd' ⟨⟩ hfd'
      exact absurd hfd hfd'
    have hcan : CanAdd s ch (some fd) takes ↔
        ch ∉ s.fdcache ∧ (s.evsfor ch ≠ 0 → s.ep ≠ none → takes = true) := by
      simp [CanAdd, hfd]
    rw [hcan]
    by_cases hch : ch ∈ s.fdcache
    · exact iff_of_false (not_consistent_add h hfd hch takes) fun hcan => hcan.1 hch
    unfold Epoller.add
    by_cases hevs : s.evsfor ch = 0
    · simp only [hfd, if_false, hevs, if_true]
      exact iff_of_true (h.idle hch) ⟨hch, fun hne => absurd rfl hne⟩
    simp only [hfd, if_false, hevs, ne_eq, not_false_eq_true, true_imp_iff, hch, true_and]
    by_cases htakes : s.ep ≠ none → takes = true
    · have heq := register_eq
        { s with
          calls := s.calls ++ [.opened ch]
          fdcache := s.fdcache.insert ch fd
          registered := s.registered.insert fd (ch, s.evsfor ch) } fd (s.evsfor ch) takes
        fun ep he => ⟨htakes (by rw [show s.ep = some ep from he]; simp),
          fun hmem => hfd ((h.mem_ep he).mp hmem)⟩
      simp only [heq]
      exact iff_of_true (ckrun_consistent_iff.mpr (h.insert hfd hch _)) htakes
    · refine iff_of_false ?_ htakes
      obtain ⟨hep, hno⟩ := Classical.not_imp.mp htakes
      obtain ⟨ep, he⟩ := Option.ne_none_iff_exists'.mp hep
      have heq := register_eq_none
        { s with
          calls := s.calls ++ [.opened ch]
          fdcache := s.fdcache.insert ch fd
          registered := s.registered.insert fd (ch, s.evsfor ch) } fd (s.evsfor ch) he hno
      simp only [heq]
      exact not_consistent_insert h hfd he rfl rfl

/-! ## The loop -/

omit [DecidableEq Ch] in
theorem unregister_same (h : s.unregister fd = some s') :
    s'.fdcache = s.fdcache ∧ s'.registered = s.registered := by
  unfold Epoller.unregister at h
  split at h
  · cases h
    exact ⟨rfl, rfl⟩
  · split_ifs at h
    cases h
    exact ⟨rfl, rfl⟩

omit [DecidableEq Ch] in
theorem modify_same (h : s.modify fd evs = some s') :
    s'.fdcache = s.fdcache ∧ s'.registered = s.registered := by
  unfold Epoller.modify at h
  split at h
  · cases h
    exact ⟨rfl, rfl⟩
  · split_ifs at h
    cases h
    exact ⟨rfl, rfl⟩

theorem drop_fst (s : Epoller Ch) (ch : Ch) (fd : ℤ) :
    (s.drop ch fd).1.fdcache = s.fdcache.erase ch ∧
      (s.drop ch fd).1.registered = s.registered.erase fd := by
  unfold Epoller.drop
  simp only
  split
  · exact ⟨rfl, rfl⟩
  · rename_i s' hs'
    exact unregister_same hs'

omit [DecidableEq Ch] in
theorem rewatch_fst (s : Epoller Ch) (ch : Ch) (fd : ℤ) (evs : ℕ) :
    (s.rewatch ch fd evs).1.fdcache = s.fdcache ∧
      (s.rewatch ch fd evs).1.registered = s.registered.replace fd (ch, evs) := by
  unfold Epoller.rewatch
  simp only
  split
  · exact ⟨rfl, rfl⟩
  · rename_i s' hs'
    exact modify_same hs'

theorem failed_consistent_iff {stack : List (Frame Ch)} :
    Consistent (failed s stack).watcher ↔ Consistent s := consistent_congr rfl rfl rfl rfl

/-- Taking out another channel than the one that is registered. -/
theorem not_consistent_drop {pch : Ch} (h : Consistent s)
    (hr : s.registered.lookup fd = some (pch, evs)) (hpch : pch ≠ ch) (hch : ch ∈ s.fdcache) :
    ¬ Consistent (s.drop ch fd).1 := by
  intro hcons
  obtain ⟨hcache, hreg⟩ := drop_fst s ch fd
  obtain ⟨fd', hl⟩ := exists_lookup hch
  obtain ⟨evs', hr'⟩ := (h.cache ch fd').mp hl
  have hf : fd' ≠ fd := by
    rintro rfl
    rw [hr] at hr'
    cases hr'
    exact hpch rfl
  have hr'' : (s.drop ch fd).1.registered.lookup fd' = some (ch, evs') := by
    rw [hreg, AList.lookup_erase_ne hf, hr']
  have hl' := hcons.mem_cache hr''
  rw [hcache, AList.lookup_erase] at hl'
  cases hl'

/-- Putting another channel there than the one that is registered. -/
theorem not_consistent_rewatch {pch : Ch} (h : Consistent s)
    (hr : s.registered.lookup fd = some (pch, evs)) (hpch : pch ≠ ch) (evs' : ℕ) :
    ¬ Consistent (s.rewatch ch fd evs').1 := by
  intro hcons
  obtain ⟨hcache, hreg⟩ := rewatch_fst s ch fd evs'
  obtain ⟨evs'', hr'⟩ := (hcons.cache pch fd).mp (by rw [hcache, h.mem_cache hr])
  rw [hreg, lookup_replace_eq (mem_of_lookup hr), if_pos rfl] at hr'
  cases hr'
  exact hpch rfl

/-- What the loop does last for an event keeps the registry consistent just if it is not for a
    channel that has lost its descriptor. -/
theorem settle_consistent_iff (h : Consistent s) (fd : ℤ) (ch : Ch) (cevs : ℕ)
    (stack : List (Frame Ch)) :
    Consistent (settle s fd ch cevs stack).watcher ↔ ¬ Stale s fd ch cevs := by
  unfold settle
  by_cases hfd : fd ∈ s.registered
  · obtain ⟨⟨pch, evs⟩, hr⟩ := exists_lookup hfd
    have hstale : Stale s fd ch cevs ↔
        pch ≠ ch ∧ if s.evsfor ch = 0 then ch ∈ s.fdcache else s.evsfor ch ≠ cevs := by
      simp [Stale, hr]
    rw [hstale]
    simp only [hfd, if_true]
    by_cases hpch : pch = ch
    · subst hpch
      refine iff_of_true ?_ fun hst => hst.1 rfl
      split_ifs with hevs hmem hcevs
      · have hdrop := (h.drop hr).2
        split <;> rename_i heq <;> rw [heq] at hdrop
        · exact hdrop
        · exact failed_consistent_iff.mpr hdrop
      · exact failed_consistent_iff.mpr h
      · have hrewatch := (h.rewatch hr (s.evsfor pch)).2
        split <;> rename_i heq <;> rw [heq] at hrewatch
        · exact hrewatch
        · exact failed_consistent_iff.mpr hrewatch
      · exact h
    · rw [not_and, forall_prop_of_true hpch]
      split_ifs with hevs hmem hcevs
      · refine iff_of_false ?_ (not_not.mpr hmem)
        have hno := not_consistent_drop h hr hpch hmem
        split <;> rename_i heq <;> rw [heq] at hno
        · exact hno
        · exact fun hcons => hno (failed_consistent_iff.mp hcons)
      · exact iff_of_true (failed_consistent_iff.mpr h) hmem
      · refine iff_of_false ?_ (not_not.mpr hcevs)
        have hno := not_consistent_rewatch h hr hpch (s.evsfor ch)
        split <;> rename_i heq <;> rw [heq] at hno
        · exact hno
        · exact fun hcons => hno (failed_consistent_iff.mp hcons)
      · exact iff_of_true h hcevs
  · simp only [hfd, if_false]
    refine iff_of_true h ?_
    rintro ⟨pch, evs, hr, -⟩
    exact hfd (mem_of_lookup hr)

theorem write_consistent_iff (h : Consistent s) (fd : ℤ) (evs : ℕ) (ch : Ch) (cevs : ℕ)
    (stack : List (Frame Ch)) :
    Consistent (write s fd evs ch cevs stack).watcher ↔
      (evs &&& EPOLLOUT = 0 → ¬ Stale s fd ch cevs) := by
  have hsettle := settle_consistent_iff h fd ch cevs stack
  unfold write
  split_ifs with hwrite
  · exact iff_of_true h fun hno => absurd hno hwrite.2
  · rw [hsettle]
    refine ⟨fun hno _ => hno, fun hno hstale => ?_⟩
    obtain ⟨pch, evs', hr, -⟩ := id hstale
    exact hno (by_contra fun hout => hwrite ⟨mem_of_lookup hr, hout⟩) hstale

/-- Closing all channels keeps the registry consistent just if there are none. -/
theorem closeall_consistent_iff (h : Consistent s) (stack : List (Frame Ch)) :
    Consistent (closeall s stack).watcher ↔ s.registered.entries = [] := by
  unfold closeall
  cases hlast : s.registered.entries.getLast? with
  | none =>
    refine iff_of_true ?_ (List.getLast?_eq_none_iff.mp hlast)
    exact failed_consistent_iff.mpr h
  | some e =>
    obtain ⟨fd, ch, evs⟩ := e
    have hmem := List.mem_of_getLast? hlast
    have hch := h.mem_cache (AList.mem_lookup_iff.mpr hmem)
    refine iff_of_false ?_ fun hnil => by rw [hnil] at hmem; cases hmem
    -- its descriptor is no longer registered, but `fdcache` still has it
    have hno : ∀ t : Epoller Ch, t.fdcache = s.fdcache → t.registered = s.registered.erase fd →
        ¬ Consistent t := by
      intro t hcache hreg hcons
      obtain ⟨evs', hr'⟩ := (hcons.cache ch fd).mp (by rw [hcache, hch])
      rw [hreg, AList.lookup_erase] at hr'
      cases hr'
    simp only
    split
    · exact hno _ rfl rfl
    · rename_i s' hs'
      obtain ⟨hcache, hreg⟩ := unregister_same hs'
      exact hno _ hcache hreg

theorem resume_consistent_iff (h : Consistent s) (stack : List (Frame Ch)) (place : Place Ch) :
    Consistent (resume s stack place).watcher ↔ CanResume s place := by
  cases place with
  | read fd evs ch cevs => exact write_consistent_iff h fd evs ch cevs stack
  | write fd ch cevs => exact settle_consistent_iff h fd ch cevs stack
  | close => exact iff_of_true h trivial
  | closeall => exact closeall_consistent_iff h stack

/-- An event is for the channel that is registered when it is looked at. -/
theorem dispatch_consistent (h : Consistent s) (fd : ℤ) (evs : ℕ) (stack : List (Frame Ch)) :
    Consistent (dispatch s fd evs stack).watcher := by
  unfold dispatch
  cases hr : s.registered.lookup fd with
  | none => exact h
  | some e =>
    simp only
    split_ifs
    · exact h
    · refine (write_consistent_iff h fd evs e.1 e.2 stack).mpr fun _ => ?_
      rintro ⟨pch, evs', hr', hne, -⟩
      rw [hr] at hr'
      cases hr'
      exact hne rfl

theorem exception_consistent (h : Consistent s) (stack : List (Frame Ch)) (ch : Ch)
    (place : Place Ch) : Consistent (exception s stack ch place).watcher := by
  have hremove := remove_consistent h ch false
  unfold exception
  cases hr : s.remove ch false with
  | mk s' next =>
    rw [hr] at hremove
    cases next with
    | ret => exact hremove
    | raise => exact failed_consistent_iff.mpr hremove
    | close => exact hremove

/-! ## The thread -/

omit [DecidableEq Ch] in
/-- The new epoll object has everything, if it takes everything. -/
theorem registerall_eq_some {takes : ℤ → Bool} {items : List (Σ _ : ℤ, Ch × ℕ)}
    (ep : AList fun _ : ℤ => ℕ) (hnd : items.NodupKeys) (hep : ∀ fd ∈ items.keys, fd ∉ ep)
    (htakes : ∀ fd ∈ items.keys, takes fd = true) :
    ∃ ep', Epoller.registerall takes items ep = some ep' ∧
      ∀ fd, ep'.lookup fd = ((items.dlookup fd).map Prod.snd).or (ep.lookup fd) := by
  induction items generalizing ep with
  | nil => exact ⟨ep, rfl, fun fd => rfl⟩
  | cons e items ih =>
    obtain ⟨fd, ch, evs⟩ := e
    rw [List.nodupKeys_cons] at hnd
    have hfd : fd ∉ ep := hep fd (List.mem_cons_self ..)
    have hep' : ∀ fd' ∈ items.keys, fd' ∉ ep.insert fd evs := by
      intro fd' hfd' hmem
      rcases (AList.mem_insert ep).mp hmem with rfl | hmem
      · exact hnd.1 hfd'
      · exact hep fd' (List.mem_cons_of_mem _ hfd') hmem
    obtain ⟨ep', heq, hl⟩ := ih (ep.insert fd evs) hnd.2 hep'
      fun fd' hfd' => htakes fd' (List.mem_cons_of_mem _ hfd')
    refine ⟨ep', ?_, ?_⟩
    · rw [Epoller.registerall, if_pos ⟨htakes fd (List.mem_cons_self ..), hfd⟩, heq]
    · intro fd'
      rw [hl, lookup_insert_eq]
      by_cases hf : fd' = fd
      · rw [hf, List.dlookup_cons_eq, List.dlookup_eq_none.mpr hnd.1]
        simp
      · rw [List.dlookup_cons_ne _ _ hf, if_neg hf]

omit [DecidableEq Ch] in
theorem registerall_eq_none {takes : ℤ → Bool} {items : List (Σ _ : ℤ, Ch × ℕ)}
    {ep : AList fun _ : ℤ => ℕ} (htakes : ¬ ∀ fd ∈ items.keys, takes fd = true) :
    Epoller.registerall takes items ep = none := by
  induction items generalizing ep with
  | nil => exact absurd (fun fd hfd => by cases hfd) htakes
  | cons e items ih =>
    obtain ⟨fd, ch, evs⟩ := e
    rw [Epoller.registerall]
    split_ifs with hfd
    · refine ih fun hall => htakes fun fd' hfd' => ?_
      rcases List.mem_cons.mp hfd' with rfl | hfd'
      · exact hfd.1
      · exact hall fd' hfd'
    · rfl

/-- Starting keeps the registry consistent just if the new epoll object takes everything. -/
theorem start_consistent_iff (h : Consistent s) (takes : ℤ → Bool) :
    Consistent (s.start takes) ↔ ∀ fd ∈ s.registered, takes fd = true := by
  have hkeys : ∀ fd, fd ∈ s.registered.entries.reverse.keys ↔ fd ∈ s.registered := by
    intro fd
    simp only [AList.mem_keys, AList.keys, List.keys, List.map_reverse, List.mem_reverse]
  have hperm := List.reverse_perm s.registered.entries
  have hnd := (List.perm_nodupKeys hperm).mpr s.registered.nodupKeys
  unfold Epoller.start
  by_cases htakes : ∀ fd ∈ s.registered, takes fd = true
  · obtain ⟨ep, heq, hl⟩ := registerall_eq_some ∅ hnd
      (fun fd _ => AList.notMem_empty fd) fun fd hfd => htakes fd ((hkeys fd).mp hfd)
    rw [heq]
    refine iff_of_true ⟨h.cache, ?_, h.closed⟩ htakes
    rintro _ ⟨⟩ fd
    rw [hl, List.perm_dlookup fd hnd hperm, AList.lookup_empty, Option.or_none]
    rfl
  · rw [registerall_eq_none fun hall => htakes fun fd hfd => hall fd ((hkeys fd).mpr hfd)]
    refine iff_of_false ?_ htakes
    -- all descriptors are forgotten, but not by `fdcache`
    intro hcons
    obtain ⟨fd, hfd, -⟩ := by simpa using htakes
    obtain ⟨⟨ch, evs⟩, hr⟩ := exists_lookup hfd
    obtain ⟨evs', hr'⟩ := (hcons.cache ch fd).mp (h.mem_cache hr)
    cases hr'

theorem finish_consistent (h : Consistent s) : Consistent s.finish :=
  ckrun_consistent_iff.mpr
    { cache := h.cache
      kernel := fun ep he => by cases he
      closed := h.closed }

/-! ## Steps and runs -/

theorem call_consistent_iff (h : Consistent s) (c : Call Ch) {m : Machine Ch} (hm : m.watcher = s) :
    Consistent (s.call c).1 ↔ Good m (.call c) := by
  subst hm
  cases c with
  | add ch fileno takes => exact add_consistent_iff h ch fileno takes
  | remove ch ignore => exact iff_of_true (remove_consistent h ch ignore) trivial
  | update ch ignore => exact iff_of_true (update_consistent h ch ignore) trivial
  | stop own cb rp takes =>
    cases own with
    | true =>
      exact iff_of_true (h.congr rfl rfl rfl rfl) fun hown => by cases hown
    | false =>
      have hset : Consistent { m.watcher with
          readable := Function.update m.watcher.readable cb true
          writable := Function.update m.watcher.writable cb false } := h.congr rfl rfl rfl rfl
      exact (add_consistent_iff hset cb (some rp) takes).trans
        ⟨fun hcan _ => hcan, fun hcan => hcan rfl⟩

theorem ret_consistent_iff {m m' : Machine Ch} (h : Consistent m.watcher)
    (hstep : step m .ret = some m') : Consistent m'.watcher ↔ Good m .ret := by
  obtain ⟨s, stack⟩ := m
  cases stack with
  | nil => cases hstep
  | cons frame stack =>
    cases frame <;> cases hstep
    · exact iff_of_true h trivial
    · exact resume_consistent_iff h stack _
    · exact iff_of_true h trivial
    · exact resume_consistent_iff h stack _

theorem raise_consistent {m m' : Machine Ch} {isException : Bool} (h : Consistent m.watcher)
    (hstep : step m (.raise isException) = some m') : Consistent m'.watcher := by
  obtain ⟨s, stack⟩ := m
  cases stack with
  | nil => cases hstep
  | cons frame stack =>
    cases frame <;> cases hstep
    · exact h
    · cases isException with
      | true => exact exception_consistent h stack _ _
      | false => exact failed_consistent_iff.mpr h
    · exact failed_consistent_iff.mpr h
    · exact failed_consistent_iff.mpr h

/-- A step keeps the registry consistent just if it is good. -/
theorem step_consistent_iff {m m' : Machine Ch} {a : Action Ch} (h : Consistent m.watcher)
    (hstep : step m a = some m') : Consistent m'.watcher ↔ Good m a := by
  cases a with
  | set ch readable writable =>
    cases hstep
    exact iff_of_true (h.congr rfl rfl rfl rfl) trivial
  | tgt =>
    cases hstep
    exact iff_of_true (h.congr rfl rfl rfl rfl) trivial
  | call c =>
    rw [← call_consistent_iff h c rfl]
    simp only [step] at hstep
    split at hstep <;> cases hstep <;> rename_i heq <;> rw [heq]
  | ret => exact ret_consistent_iff h hstep
  | raise isException => exact iff_of_true (raise_consistent h hstep) trivial
  | start takes =>
    simp only [step] at hstep
    split_ifs at hstep
    cases hstep
    exact start_consistent_iff h takes
  | event fd evs =>
    simp only [step] at hstep
    split_ifs at hstep
    cases hstep
    exact iff_of_true (dispatch_consistent h fd evs []) trivial
  | fail =>
    simp only [step] at hstep
    split_ifs at hstep
    cases hstep
    exact iff_of_true (failed_consistent_iff.mpr h) trivial
  | leave =>
    simp only [step] at hstep
    split_ifs at hstep
    cases hstep
    exact iff_of_true (failed_consistent_iff.mpr h) trivial
  | closeall =>
    simp only [step] at hstep
    split_ifs at hstep
    cases hstep
    exact closeall_consistent_iff h []
  | finish =>
    simp only [step] at hstep
    split_ifs at hstep
    cases hstep
    exact iff_of_true (finish_consistent h) trivial

/-- All steps of a run are good. -/
def GoodRun (m : Machine Ch) : List (Action Ch × Machine Ch) → Prop
  | [] => True
  | (a, m') :: run => Good m a ∧ GoodRun m' run

theorem new_consistent (readable writable : Ch → Bool) :
    Consistent (new readable writable).watcher where
  cache := by
    intro ch fd
    refine iff_of_false (fun h => by cases h) ?_
    rintro ⟨evs, h⟩
    cases h
  kernel := by
    intro ep h
    cases h
  closed := by
    intro ch
    rfl

theorem run_consistent_iff {m : Machine Ch} (h : Consistent m.watcher)
    {run : List (Action Ch × Machine Ch)} (hrun : IsRun m run) :
    (∀ p ∈ run, Consistent p.2.watcher) ↔ GoodRun m run := by
  induction run generalizing m with
  | nil => simp [GoodRun]
  | cons p run ih =>
    obtain ⟨a, m'⟩ := p
    obtain ⟨hstep, hrest⟩ := hrun
    rw [List.forall_mem_cons, GoodRun, ← step_consistent_iff h hstep]
    exact and_congr_right fun h' => ih h' hrest

/-- In every run of a new watcher, whatever the channels do: the registry is consistent in every
    state, also while code of a channel runs, exactly if all steps are good. -/
theorem registry_consistent_iff (readable writable : Ch → Bool)
    (run : List (Action Ch × Machine Ch)) (hrun : IsRun (new readable writable) run) :
    (∀ p ∈ run, Consistent p.2.watcher) ↔ GoodRun (new readable writable) run :=
  run_consistent_iff (new_consistent readable writable) hrun

/-! ## Two runs -/

/-- What happens, as far as it can, with what it leads to. -/
def follow (m : Machine Ch) : List (Action Ch) → List (Action Ch × Machine Ch)
  | [] => []
  | a :: acts =>
    match step m a with
    | none => []
    | some m' => (a, m') :: follow m' acts

theorem isRun_follow (m : Machine Ch) (acts : List (Action Ch)) : IsRun m (follow m acts) := by
  induction acts generalizing m with
  | nil => trivial
  | cons a acts ih =>
    rw [follow]
    cases hstep : step m a with
    | none => trivial
    | some m' => exact ⟨hstep, ih m'⟩

/-- A watcher of channels that wait for nothing yet. -/
def idle : Machine ℕ := new (fun _ => false) fun _ => false

/-- A channel is read to its end, and closed. -/
def readacts : List (Action ℕ) :=
  [.set 0 true false, .call (.add 0 (some 5) true), .start fun _ => true, .event 5 EPOLLIN,
    .set 0 false false, .ret, .ret, .leave, .finish]

theorem registry_consistent_read :
    GoodRun idle (follow idle readacts) ∧
      ∀ p ∈ follow idle readacts, Consistent p.2.watcher := by
  have hgood : GoodRun idle (follow idle readacts) := by
    refine ⟨trivial, ?_, ?_, trivial, trivial, ?_, trivial, trivial, trivial, trivial⟩
    · rintro fd ⟨⟩ -
      exact ⟨by decide, fun _ _ => rfl⟩
    · exact fun _ _ => rfl
    · -- the descriptor is still that of the channel
      rintro - ⟨pch, evs, hr, hne, -⟩
      cases hr
      exact hne rfl
  exact ⟨hgood, (registry_consistent_iff _ _ _ (isRun_follow idle readacts)).mpr hgood⟩

/-- The watcher is stopped with a channel registered, and comes to its end. -/
def stopacts : List (Action ℕ) :=
  [.set 0 true false, .call (.add 0 (some 5) true), .start fun _ => true, .tgt, .closeall, .ret,
    .finish]

/-- The channel is closed and not registered, but `fdcache` still has it, so that `update` raises
    an exception even if it is to be ignored that the channel is not there. -/
theorem stop_inconsistent :
    IsRun idle (follow idle stopacts) ∧
      ∃ p ∈ follow idle stopacts, p.2.stack.isEmpty = true ∧ p.2.watcher.th = .none ∧
        p.2.watcher.fdcache.lookup 0 = some 5 ∧ p.2.watcher.registered.lookup 5 = none ∧
        (p.2.watcher.update 0 true).2 = .raise ∧ ¬ Consistent p.2.watcher := by
  have hlast : ((follow idle stopacts).getLast?.map fun p => decide (p.2.stack.isEmpty = true ∧
      p.2.watcher.th = .none ∧ p.2.watcher.fdcache.lookup 0 = some 5 ∧
      p.2.watcher.registered.lookup 5 = none ∧ (p.2.watcher.update 0 true).2 = .raise)) =
      some true := by
    decide
  obtain ⟨p, hp, heq⟩ := Option.map_eq_some_iff.mp hlast
  obtain ⟨hstack, hth, hcache, hreg, hupdate⟩ := of_decide_eq_true heq
  refine ⟨isRun_follow idle stopacts, p, List.mem_of_getLast? hp, hstack, hth, hcache, hreg,
    hupdate, fun hcons => ?_⟩
  obtain ⟨evs, hr⟩ := (hcons.cache 0 5).mp hcache
  rw [hreg] at hr
  cases hr

end Ashd.Asyncio
