import Mathlib.Data.List.Chain
import Ashd.Htextauth.Model

/-!
# How long credentials are accepted

An entry of the cache is deleted some time after it has expired, by the request that comes
then, and after that request has been served. One that has expired can be used until then.

Main results:
* `after_tracked`: the cache knows when its credentials were used last.
* `passed_fresh_iff`: which runs pass on no request with stale credentials.
-/

namespace Ashd.Htextauth

variable {conf : Config} {s : State} {a : Arrival} {user pass : Bytes}

/-- The credentials that a request comes with. -/
def presents (conf : Config) (a : Arrival) : Option (Bytes × Bytes) :=
  match credentials conf a.req with
  | .ok (_, user, pass) => some (user, pass)
  | .error _ => none

/-- The times at which credentials have been used. -/
def uses (conf : Config) (user pass : Bytes) (as : List Arrival) : List ℤ :=
  (as.filter fun a => presents conf a = some (user, pass)).map Arrival.now

/-- The authentication program accepts the credentials when the request `a` comes after `pre`. -/
def Accepts (conf : Config) (pre : List Arrival) (a : Arrival) (user pass : Bytes) : Prop :=
  ∃ out, .ran (stdin user pass) (.exited true out) ∈ (serve conf (after conf pre) a).1

/-- If the request `a`, which comes after `pre`, is passed on, then the program accepts its
    credentials, or has accepted them before, and there have never been more than 3600 seconds
    between two uses of them since. -/
def Fresh (conf : Config) (pre : List Arrival) (a : Arrival) : Prop :=
  ∀ req, .passed req ∈ (serve conf (after conf pre) a).1 →
    ∃ user pass, presents conf a = some (user, pass) ∧
      (Accepts conf pre a user pass ∨
        ∃ pre₁ b mid, pre = pre₁ ++ b :: mid ∧ Accepts conf pre₁ b user pass ∧
          (uses conf user pass (b :: mid ++ [a])).IsChain fun t t' => t' - t ≤ 3600)

/-- The cache has no entry for the credentials of the request that was used last more than 3600
    seconds ago. -/
def Timely (conf : Config) (s : State) (a : Arrival) : Prop :=
  ∀ user pass, presents conf a = some (user, pass) →
    ∀ c ∈ s.cache, c.holds user pass = true → a.now - c.lastuse ≤ 3600

/-! ## Credentials -/

/-- There are no line ends in credentials. -/
theorem credentials_clean {req req' : Hthead} (h : credentials conf req = .ok (req', user, pass)) :
    (10 : UInt8) ∉ user ∧ (10 : UInt8) ∉ pass := by
  unfold credentials at h
  split_ifs at h
  split at h
  · cases h
  split_ifs at h
  split at h
  · cases h
  simp only at h
  split_ifs at h with hctl hcolon
  cases h
  simp only [List.any_eq_true, decide_eq_true_eq, not_exists, not_and, not_or] at hctl
  have hnl : ∀ {t : Bytes}, (∀ c ∈ t, c ∈ cstr _) → (10 : UInt8) ∉ t :=
    fun hsub hmem => (hctl 10 (hsub 10 hmem)).1 (by decide)
  exact ⟨hnl fun c hc => (List.takeWhile_sublist _).subset hc, hnl fun c hc => List.mem_of_mem_drop hc⟩

/-- What the program reads tells the credentials. -/
theorem stdin_inj {user' pass' : Bytes} (hu : (10 : UInt8) ∉ user) (hu' : (10 : UInt8) ∉ user')
    (h : stdin user pass = stdin user' pass') : user = user' ∧ pass = pass' := by
  have htake : ∀ {u p : Bytes}, (10 : UInt8) ∉ u → (stdin u p).takeWhile (· ≠ 10) = u := by
    intro u p hu
    unfold stdin
    rw [List.append_assoc]
    exact takeWhile_sep hu _
  have huser : user = user' := by rw [← htake (p := pass) hu, h, htake hu']
  subst huser
  refine ⟨rfl, ?_⟩
  simpa [stdin] using h

theorem presents_of_credentials {req : Hthead} (h : credentials conf a.req = .ok (req, user, pass)) :
    presents conf a = some (user, pass) := by
  unfold presents
  rw [h]

theorem presents_clean (h : presents conf a = some (user, pass)) :
    (10 : UInt8) ∉ user ∧ (10 : UInt8) ∉ pass := by
  unfold presents at h
  cases hc : credentials conf a.req with
  | error e =>
    rw [hc] at h
    cases h
  | ok r =>
    obtain ⟨req, u, p⟩ := r
    rw [hc] at h
    cases h
    exact credentials_clean hc

/-! ## The cache -/

theorem holds_iff {c : Cache} : c.holds user pass = true ↔ c.user = user ∧ c.pass = pass := by
  simp [Cache.holds]

/-- No two entries are for the same credentials. -/
def Distinct (cache : List Cache) : Prop := cache.Pairwise fun c d => d.holds c.user c.pass = false

theorem ckcache_eq_none {now : ℤ} {cache : List Cache} (h : ckcache now user pass cache = none) :
    ∀ c ∈ cache, c.holds user pass = false := by
  induction cache with
  | nil => simp
  | cons d cache ih =>
    rw [ckcache] at h
    split_ifs at h with hd
    intro c hc
    rcases List.mem_cons.mp hc with rfl | hc
    · simpa using hd
    · exact ih (by simpa using h) c hc

/-- The entry is refreshed, and no other is changed. -/
theorem ckcache_eq_some {now : ℤ} {cache cache' : List Cache} (hd : Distinct cache)
    (h : ckcache now user pass cache = some cache') :
    ∃ c ∈ cache, c.holds user pass = true ∧ Distinct cache' ∧
      ∀ d ∈ cache', d = { c with lastuse := now } ∨ d ∈ cache ∧ d.holds user pass = false := by
  induction cache generalizing cache' with
  | nil => cases h
  | cons e cache ih =>
    obtain ⟨hfirst, hrest⟩ := List.pairwise_cons.mp hd
    rw [ckcache] at h
    split_ifs at h with he
    · cases h
      obtain ⟨hu, hp⟩ := holds_iff.mp he
      refine ⟨e, List.mem_cons_self, he, List.pairwise_cons.mpr ⟨hfirst, hrest⟩, ?_⟩
      intro d hmem
      rcases List.mem_cons.mp hmem with rfl | hmem
      · exact .inl rfl
      · exact .inr ⟨List.mem_cons_of_mem _ hmem, hu ▸ hp ▸ hfirst d hmem⟩
    · cases hck : ckcache now user pass cache with
      | none =>
        rw [hck] at h
        cases h
      | some cache₁ =>
        rw [hck] at h
        cases h
        obtain ⟨c, hc, hholds, hd₁, hmem₁⟩ := ih hrest hck
        obtain ⟨hcu, hcp⟩ := holds_iff.mp hholds
        refine ⟨c, List.mem_cons_of_mem _ hc, hholds, List.pairwise_cons.mpr ⟨?_, hd₁⟩, ?_⟩
        · intro d hmem
          obtain rfl | ⟨hmem, -⟩ := hmem₁ d hmem
          · exact hfirst c hc
          · exact hfirst d hmem
        · intro d hmem
          rcases List.mem_cons.mp hmem with rfl | hmem
          · exact .inr ⟨List.mem_cons_self, by simpa using he⟩
          · obtain hd | ⟨hmem, hne⟩ := hmem₁ d hmem
            · exact .inl hd
            · exact .inr ⟨List.mem_cons_of_mem _ hmem, hne⟩

/-! ## One request -/

/-- What happens while a request is served, and what becomes of the cache. -/
inductive Served (conf : Config) (s : State) (a : Arrival) : List Effect → List Cache → Prop
  | refused (reply) : presents conf a = none → Served conf s a [.replied reply] s.cache
  | hit (user pass req c cache) : conf.docache = true → presents conf a = some (user, pass) →
      c ∈ s.cache → c.holds user pass = true → Distinct cache →
      (∀ d ∈ cache, d = { c with lastuse := a.now } ∨ d ∈ s.cache ∧ d.holds user pass = false) →
      Served conf s a [.passed req] cache
  | rejected (user pass result reply) : presents conf a = some (user, pass) →
      (∀ c ∈ s.cache, c.holds user pass = false) → auth conf result = some reply →
      Served conf s a [.ran (stdin user pass) result, .replied reply] s.cache
  | accepted (user pass out req cache) : presents conf a = some (user, pass) →
      (∀ c ∈ s.cache, c.holds user pass = false) →
      (cache = if conf.docache then addcache a.now user pass s.cache else s.cache) →
      Served conf s a [.ran (stdin user pass) (.exited true out), .passed req] cache

/-- The cache is used only if it is to be used. -/
structure Tidy (conf : Config) (s : State) : Prop where
  distinct : Distinct s.cache
  off : conf.docache = false → s.cache = []

theorem answer_served (h : Tidy conf s) (a : Arrival) :
    Served conf s a (answer conf s a).1 (answer conf s a).2.cache := by
  unfold answer
  cases hc : credentials conf a.req with
  | error reply => exact .refused reply (by simp [presents, hc])
  | ok r =>
    obtain ⟨req, user, pass⟩ := r
    have hp := presents_of_credentials hc
    simp only
    unfold check
    cases hk : if conf.docache then ckcache a.now user pass s.cache else none with
    | some cache =>
      split_ifs at hk with hon
      obtain ⟨c, hmem, hholds, hd, hall⟩ := ckcache_eq_some h.distinct hk
      exact .hit user pass _ c cache hon hp hmem hholds hd hall
    | none =>
      have hmiss : ∀ c ∈ s.cache, c.holds user pass = false := by
        split_ifs at hk with hon
        · exact ckcache_eq_none hk
        · rw [h.off (by simpa using hon)]
          simp
      simp only
      cases hr : auth conf (a.authcmd (stdin user pass)) with
      | some reply => exact .rejected user pass _ reply hp hmiss hr
      | none =>
        obtain ⟨out, hout⟩ := auth_eq_none hr
        simp only [hout]
        refine .accepted user pass out _ _ hp hmiss ?_
        split_ifs <;> rfl

/-- At the end, entries may be deleted. -/
theorem serve_sublist (conf : Config) (s : State) (a : Arrival) :
    (serve conf s a).2.cache.Sublist (answer conf s a).2.cache := by
  unfold serve
  simp only
  split_ifs
  · exact List.filter_sublist
  · exact List.Sublist.refl _

/-- No entry for other credentials is in the way of a new one. -/
theorem Served.distinct {effects : List Effect} {cache : List Cache} (h : Tidy conf s)
    (hs : Served conf s a effects cache) : Distinct cache := by
  cases hs with
  | refused => exact h.distinct
  | hit user pass req c cache hon hp hmem hholds hd hall => exact hd
  | rejected => exact h.distinct
  | accepted user pass out req cache hp hmiss hcache =>
    rw [hcache]
    split_ifs
    · exact List.pairwise_cons.mpr ⟨hmiss, h.distinct⟩
    · exact h.distinct

/-- An entry of the cache was there before and is for other credentials than those of the request,
    or it is for those, and they are used now. -/
theorem Served.entry {effects : List Effect} {cache : List Cache} {d : Cache}
    (hs : Served conf s a effects cache) (hd : d ∈ cache) :
    (d ∈ s.cache ∧ presents conf a ≠ some (d.user, d.pass)) ∨
      (presents conf a = some (d.user, d.pass) ∧ d.lastuse = a.now ∧
        ((∃ c ∈ s.cache, c.user = d.user ∧ c.pass = d.pass) ∨
          ∃ out, .ran (stdin d.user d.pass) (.exited true out) ∈ effects)) := by
  have hne : ∀ {u p : Bytes}, presents conf a = some (u, p) → d.holds u p = false →
      presents conf a ≠ some (d.user, d.pass) := by
    intro u p hp hholds heq
    rw [heq] at hp
    cases hp
    simp [Cache.holds] at hholds
  cases hs with
  | refused reply hp => exact .inl ⟨hd, by simp [hp]⟩
  | hit u p req c cache hon hp hc hholds hdist hall =>
    obtain rfl | ⟨hd, hmiss⟩ := hall d hd
    · obtain ⟨rfl, rfl⟩ := holds_iff.mp hholds
      exact .inr ⟨hp, rfl, .inl ⟨c, hc, rfl, rfl⟩⟩
    · exact .inl ⟨hd, hne hp hmiss⟩
  | rejected u p result reply hp hmiss => exact .inl ⟨hd, hne hp (hmiss d hd)⟩
  | accepted u p out req cache hp hmiss hcache =>
    rw [hcache] at hd
    split_ifs at hd
    · rcases List.mem_cons.mp hd with rfl | hd
      · exact .inr ⟨hp, rfl, .inr ⟨out, List.mem_cons_self⟩⟩
      · exact .inl ⟨hd, hne hp (hmiss d hd)⟩
    · exact .inl ⟨hd, hne hp (hmiss d hd)⟩

theorem serve_tidy (h : Tidy conf s) (a : Arrival) : Tidy conf (serve conf s a).2 where
  distinct := ((answer_served h a).distinct h).sublist (serve_sublist conf s a)
  off := by
    intro hoff
    have hnil : (answer conf s a).2.cache = [] := by
      have hs := answer_served h a
      generalize (answer conf s a).1 = effects at hs
      generalize (answer conf s a).2.cache = cache at hs
      cases hs with
      | refused => exact h.off hoff
      | hit user pass req c cache hon =>
        rw [hoff] at hon
        cases hon
      | rejected => exact h.off hoff
      | accepted user pass out req cache hp hmiss hcache =>
        rw [hcache, hoff]
        exact h.off hoff
    exact List.sublist_nil.mp (hnil ▸ serve_sublist conf s a)

theorem after_tidy (conf : Config) (as : List Arrival) : Tidy conf (after conf as) := by
  induction as using List.reverseRec with
  | nil => exact ⟨List.Pairwise.nil, fun _ => rfl⟩
  | append_singleton as a ih =>
    rw [after_concat]
    exact serve_tidy ih a

/-- What happens to a request that comes after others. -/
theorem after_served (conf : Config) (pre : List Arrival) (a : Arrival) :
    Served conf (after conf pre) a (serve conf (after conf pre) a).1
      (answer conf (after conf pre) a).2.cache :=
  answer_served (after_tidy conf pre) a

/-- Where the entries come from when the request `a` has been served. -/
theorem after_entry {as : List Arrival} {d : Cache} (hmem : d ∈ (after conf (as ++ [a])).cache) :
    (d ∈ (after conf as).cache ∧ presents conf a ≠ some (d.user, d.pass)) ∨
      (presents conf a = some (d.user, d.pass) ∧ d.lastuse = a.now ∧
        ((∃ c ∈ (after conf as).cache, c.user = d.user ∧ c.pass = d.pass) ∨
          Accepts conf as a d.user d.pass)) := by
  rw [after_concat] at hmem
  exact (after_served conf as a).entry ((serve_sublist conf (after conf as) a).subset hmem)

/-! ## Uses -/

theorem uses_append (as bs : List Arrival) :
    uses conf user pass (as ++ bs) = uses conf user pass as ++ uses conf user pass bs := by
  unfold uses
  rw [List.filter_append, List.map_append]

theorem uses_singleton (h : presents conf a = some (user, pass)) :
    uses conf user pass [a] = [a.now] := by
  simp [uses, h]

theorem uses_singleton_of_ne (h : presents conf a ≠ some (user, pass)) :
    uses conf user pass [a] = [] := by
  simp [uses, h]

/-- The program is run only on the credentials that a request comes with. -/
theorem Accepts.presents {pre : List Arrival} (h : Accepts conf pre a user pass)
    (hu : (10 : UInt8) ∉ user) : presents conf a = some (user, pass) := by
  obtain ⟨out, hmem⟩ := h
  have hran : ∀ {u p : Bytes}, Htextauth.presents conf a = some (u, p) →
      stdin user pass = stdin u p → Htextauth.presents conf a = some (user, pass) := by
    intro u p hp heq
    obtain ⟨rfl, rfl⟩ := stdin_inj hu (presents_clean hp).1 heq
    exact hp
  have hs := after_served conf pre a
  generalize (serve conf (after conf pre) a).1 = effects at hs hmem
  generalize (answer conf (after conf pre) a).2.cache = cache at hs
  cases hs with
  | refused => simp at hmem
  | hit => simp at hmem
  | rejected u p result reply hp =>
    simp only [List.mem_cons, Effect.ran.injEq, List.not_mem_nil, or_false, reduceCtorEq] at hmem
    exact hran hp hmem.1
  | accepted u p out' req cache hp =>
    simp only [List.mem_cons, Effect.ran.injEq, List.not_mem_nil, or_false, reduceCtorEq] at hmem
    exact hran hp hmem.1

/-- The last use of credentials is one since they were accepted. -/
theorem getLast?_uses {pre mid : List Arrival} {b : Arrival} {t : ℤ} (hb : presents conf b = some (user, pass))
    (h : (uses conf user pass (pre ++ b :: mid)).getLast? = some t) :
    (uses conf user pass (b :: mid)).getLast? = some t := by
  have hne : uses conf user pass (b :: mid) ≠ [] := by simp [uses, hb]
  rwa [uses_append, List.getLast?_append_of_ne_nil _ hne] at h

/-! ## Runs -/

/-- The cache knows when its credentials were used last. -/
theorem after_tracked (conf : Config) (as : List Arrival) :
    ∀ c ∈ (after conf as).cache, (uses conf c.user c.pass as).getLast? = some c.lastuse := by
  induction as using List.reverseRec with
  | nil => simp [after]
  | append_singleton as a ih =>
    intro d hmem
    rw [uses_append]
    obtain ⟨hd, hne⟩ | ⟨hp, hlast, -⟩ := after_entry hmem
    · rw [uses_singleton_of_ne hne, List.append_nil]
      exact ih d hd
    · rw [uses_singleton hp, List.getLast?_concat, hlast]

/-- The credentials of an entry have been accepted, and used ever since. -/
def Vouched (conf : Config) (as : List Arrival) (user pass : Bytes) : Prop :=
  ∃ pre b mid, as = pre ++ b :: mid ∧ Accepts conf pre b user pass ∧
    (uses conf user pass (b :: mid)).IsChain fun t t' => t' - t ≤ 3600

/-- They are used once more, in time. -/
theorem Vouched.hit {as : List Arrival} {t : ℤ} (h : Vouched conf as user pass)
    (hp : presents conf a = some (user, pass)) (hlast : (uses conf user pass as).getLast? = some t)
    (ht : a.now - t ≤ 3600) :
    ∃ pre b mid, as = pre ++ b :: mid ∧ Accepts conf pre b user pass ∧
      (uses conf user pass (b :: mid ++ [a])).IsChain fun t t' => t' - t ≤ 3600 := by
  obtain ⟨pre, b, mid, rfl, hacc, hchain⟩ := h
  refine ⟨pre, b, mid, rfl, hacc, ?_⟩
  have hb := hacc.presents (presents_clean hp).1
  have hend := getLast?_uses hb hlast
  rw [uses_append, uses_singleton hp]
  apply List.isChain_append.mpr
  refine ⟨hchain, List.isChain_singleton _, fun x hx y hy => ?_⟩
  rw [hend] at hx
  cases hx
  cases hy
  exact ht

/-- Requests with other credentials do not matter. -/
theorem Vouched.other {as : List Arrival} (h : Vouched conf as user pass)
    (hne : presents conf a ≠ some (user, pass)) : Vouched conf (as ++ [a]) user pass := by
  obtain ⟨pre, b, mid, rfl, hacc, hchain⟩ := h
  refine ⟨pre, b, mid ++ [a], by simp, hacc, ?_⟩
  rw [← List.cons_append, uses_append, uses_singleton_of_ne hne, List.append_nil]
  exact hchain

/-- Every request of a run finds the cache timely. -/
def AllTimely (conf : Config) (as : List Arrival) : Prop :=
  ∀ pre a post, as = pre ++ a :: post → Timely conf (after conf pre) a

theorem AllTimely.concat {as : List Arrival} (h : AllTimely conf (as ++ [a])) :
    AllTimely conf as ∧ Timely conf (after conf as) a :=
  ⟨fun pre b post heq => h pre b (post ++ [a]) (by rw [heq]; simp), h as a [] rfl⟩

/-- If all finds are timely, the entries are vouched for. -/
theorem AllTimely.vouched {as : List Arrival} (h : AllTimely conf as) :
    ∀ c ∈ (after conf as).cache, Vouched conf as c.user c.pass := by
  induction as using List.reverseRec with
  | nil => simp [after]
  | append_singleton as a ih =>
    obtain ⟨hbefore, htimely⟩ := h.concat
    intro d hmem
    obtain ⟨hd, hne⟩ | ⟨hp, -, ⟨c, hc, huser, hpass⟩ | hacc⟩ := after_entry hmem
    · exact (ih hbefore d hd).other hne
    · have hv := ih hbefore c hc
      have hlast := after_tracked conf as c hc
      rw [huser, hpass] at hv hlast
      have htime := htimely _ _ hp c hc (holds_iff.mpr ⟨huser, hpass⟩)
      obtain ⟨pre, b, mid, rfl, hb, hchain⟩ := hv.hit hp hlast htime
      exact ⟨pre, b, mid ++ [a], by simp, hb, hchain⟩
    · refine ⟨as, a, [], rfl, hacc, ?_⟩
      rw [uses_singleton hp]
      exact List.isChain_singleton _

theorem fresh_of_timely {pre : List Arrival}
    (hv : ∀ c ∈ (after conf pre).cache, Vouched conf pre c.user c.pass)
    (h : Timely conf (after conf pre) a) : Fresh conf pre a := by
  intro req hmem
  have hs := after_served conf pre a
  have hacc : ∀ u p out, .ran (stdin u p) (.exited true out) ∈ (serve conf (after conf pre) a).1 →
      Accepts conf pre a u p := fun u p out hran => ⟨out, hran⟩
  generalize (serve conf (after conf pre) a).1 = effects at hs hmem hacc
  generalize (answer conf (after conf pre) a).2.cache = cache at hs
  cases hs with
  | refused => simp at hmem
  | hit u p req c cache hon hp hc hholds =>
    refine ⟨u, p, hp, .inr ?_⟩
    have htime := h u p hp c hc hholds
    obtain ⟨rfl, rfl⟩ := holds_iff.mp hholds
    exact (hv c hc).hit hp (after_tracked conf pre c hc) htime
  | rejected => simp at hmem
  | accepted u p out req cache hp => exact ⟨u, p, hp, .inl (hacc u p out List.mem_cons_self)⟩

/-- If there is an entry that has expired, the request is passed on all the same. -/
theorem timely_of_fresh {pre : List Arrival} (h : Fresh conf pre a) : Timely conf (after conf pre) a := by
  intro u p hp c hc hholds
  have hlast := after_tracked conf pre c hc
  obtain ⟨rfl, rfl⟩ := holds_iff.mp hholds
  have hs := after_served conf pre a
  have hsame : ∀ {u p : Bytes}, presents conf a = some (u, p) → c.user = u ∧ c.pass = p := by
    intro u p hp'
    rw [hp] at hp'
    cases hp'
    exact ⟨rfl, rfl⟩
  unfold Fresh Accepts at h
  generalize (serve conf (after conf pre) a).1 = effects at hs h
  generalize (answer conf (after conf pre) a).2.cache = cache at hs
  cases hs with
  | refused reply hnone =>
    rw [hnone] at hp
    cases hp
  | hit u p req =>
    obtain ⟨u, p, hp', hacc | ⟨pre₁, b, mid, rfl, hb, hchain⟩⟩ := h req List.mem_cons_self
    · obtain ⟨out, hran⟩ := hacc
      simp at hran
    · obtain ⟨rfl, rfl⟩ := hsame hp'
      have hend := getLast?_uses (Accepts.presents hb (presents_clean hp).1) hlast
      rw [uses_append, uses_singleton hp] at hchain
      exact (List.isChain_append.mp hchain).2.2 _ hend _ rfl
  | rejected u p result reply hp' hmiss =>
    obtain ⟨rfl, rfl⟩ := hsame hp'
    rw [hmiss c hc] at hholds
    cases hholds
  | accepted u p out req cache hp' hmiss =>
    obtain ⟨rfl, rfl⟩ := hsame hp'
    rw [hmiss c hc] at hholds
    cases hholds

/-- **When stale credentials are accepted.** Every request of a run that is passed on has fresh
    credentials if and only if none of them finds an entry for its credentials in the cache that
    was used last more than 3600 seconds ago. -/
theorem passed_fresh_iff (conf : Config) (as : List Arrival) :
    (∀ pre a post, as = pre ++ a :: post → Fresh conf pre a) ↔
      ∀ pre a post, as = pre ++ a :: post → Timely conf (after conf pre) a := by
  constructor
  · exact fun h pre a post heq => timely_of_fresh (h pre a post heq)
  · intro h pre a post heq
    have hpre : AllTimely conf pre := fun pre' b post' heq' =>
      h pre' b (post' ++ a :: post) (by rw [heq, heq']; simp)
    exact fresh_of_timely hpre.vouched (h pre a post heq)

/-- The credentials `a:b`, which are accepted once. -/
def staleRun (now : ℤ) (ok : Bool) : Arrival where
  now := now
  req := { headers := [(bytes "Authorization", bytes "Basic YTpi")] }
  authcmd := fun _ => .exited ok []

/-- They are passed on again after more than two hours, when the program would reject them. -/
theorem passed_stale :
    ([staleRun 1000000000 true, staleRun 1000010000 false].map Arrival.now).Pairwise (· ≤ ·) ∧
      ¬ ∀ pre a post, [staleRun 1000000000 true, staleRun 1000010000 false] = pre ++ a :: post →
        Fresh {} pre a := by
  refine ⟨by decide, fun h => ?_⟩
  have htimely := timely_of_fresh (h [staleRun 1000000000 true] _ [] rfl)
  exact absurd (htimely (bytes "a") (bytes "b") (by decide) ⟨bytes "a", bytes "b", 1000000000⟩
    (by decide) (by decide)) (by decide)

end Ashd.Htextauth
