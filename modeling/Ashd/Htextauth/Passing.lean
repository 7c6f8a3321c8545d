import Ashd.Htextauth.Model

/-!
# What the child handler is told of the credentials

The `Authorization` header that the credentials are taken from is the first one, and that is
the one that `headrmheader` removes. If there are others, they stay in the request.

Main results:
* `passed_spec`: which requests are passed on, and as what.
* `passed_without_credentials_iff`: when the child handler is not told the credentials.
-/

namespace Ashd.Htextauth

variable {conf : Config} {s : State} {a : Arrival} {user pass : Bytes}

/-- A header of that name, in any letter case. -/
def isAuthorization (h : Bytes × Bytes) : Bool := strcaseeq h.1 (bytes "Authorization")

/-- The request comes with this user name and password: the first `Authorization` header has them
    in Base64, with a colon in between, after the word `Basic`. -/
def Presents (req : Hthead) (user pass : Bytes) : Prop :=
  ∃ raw dec, getheader req (bytes "Authorization") = some raw ∧
    hasPrefixCase (bytes "basic ") raw = true ∧ base64decode (raw.drop 6) = some dec ∧
    cstr dec = user ++ 58 :: pass ∧ (58 : UInt8) ∉ user

/-- The user has been authenticated: the credentials are in the cache, or the program accepts
    them. -/
def Authenticated (conf : Config) (s : State) (a : Arrival) (user : Bytes) : Prop :=
  ∃ pass, Presents a.req user pass ∧
    (conf.docache = true ∧ (∃ c ∈ s.cache, c.user = user ∧ c.pass = pass) ∨
      ∃ out, a.authcmd (stdin user pass) = .exited true out)

/-- The request `q` says of the credentials in `req` only whose they are. -/
def Discreet (conf : Config) (s : State) (a : Arrival) (q : Hthead) : Prop :=
  (∀ h ∈ q.headers, isAuthorization h = false) ∧
    ∃ user, Authenticated conf s a user ∧
      q = { a.req with headers := a.req.headers.filter (fun h => !isAuthorization h) ++
        [(bytes "X-Ash-Remote-User", user)] }

/-! ## Removing a header -/

section Erase

variable {α : Type*} {p : α → Bool}

/-- Removing the first element of a kind removes all of them if there are no two. -/
theorem eraseP_eq_filter {l : List α} (h : l.countP p ≤ 1) : l.eraseP p = l.filter fun x => !p x := by
  induction l with
  | nil => rfl
  | cons x l ih =>
    cases hx : p x with
    | true =>
      rw [List.countP_cons_of_pos hx] at h
      have h0 : l.countP p = 0 := by omega
      rw [List.eraseP_cons_of_pos hx, List.filter_cons_of_neg (by simp [hx]),
        List.filter_eq_self.mpr]
      simpa using List.countP_eq_zero.mp h0
    | false =>
      rw [List.countP_cons_of_neg (by simp [hx])] at h
      rw [List.eraseP_cons_of_neg (by simp [hx]), List.filter_cons_of_pos (by simp [hx]), ih h]

theorem countP_eraseP_le {l : List α} : l.countP p ≤ (l.eraseP p).countP p + 1 := by
  induction l with
  | nil => simp
  | cons x l ih =>
    cases hx : p x with
    | true => rw [List.countP_cons_of_pos hx, List.eraseP_cons_of_pos hx]
    | false =>
      rw [List.countP_cons_of_neg (by simp [hx]), List.eraseP_cons_of_neg (by simp [hx]),
        List.countP_cons_of_neg (by simp [hx])]
      exact ih

end Erase

/-! ## The request that is passed on -/

theorem credentials_presents {req' : Hthead} (h : credentials conf a.req = .ok (req', user, pass)) :
    Presents a.req user pass ∧ req' = headrmheader a.req (bytes "Authorization") := by
  unfold credentials at h
  split_ifs at h
  split at h
  · cases h
  rename_i raw hraw
  split_ifs at h with hbasic
  split at h
  · cases h
  rename_i dec hdec
  simp only at h
  split_ifs at h with hctl hcolon
  cases h
  refine ⟨⟨raw, dec, hraw, by simpa using hbasic, hdec, ?_, ?_⟩, rfl⟩
  · obtain ⟨u, p, hsplit, hu⟩ := List.eq_append_cons_of_mem hcolon
    rw [hsplit, takeWhile_sep hu]
    simp
  · intro hmem
    simpa using List.mem_takeWhile_imp hmem

theorem ckcache_holds {now : ℤ} {cache cache' : List Cache}
    (h : ckcache now user pass cache = some cache') :
    ∃ c ∈ cache, c.user = user ∧ c.pass = pass := by
  induction cache generalizing cache' with
  | nil => cases h
  | cons c cache ih =>
    rw [ckcache] at h
    split_ifs at h with hc
    · exact ⟨c, List.mem_cons_self, by simpa [Cache.holds] using hc⟩
    · obtain ⟨cache₁, hck, -⟩ := Option.map_eq_some_iff.mp h
      obtain ⟨d, hd, hheld⟩ := ih hck
      exact ⟨d, List.mem_cons_of_mem _ hd, hheld⟩

/-- A request is passed on for an authenticated user, without its first `Authorization` header. -/
theorem passed_spec {q : Hthead} (h : .passed q ∈ (serve conf s a).1) :
    ∃ user, Authenticated conf s a user ∧
      q = headappheader (headrmheader a.req (bytes "Authorization")) (bytes "X-Ash-Remote-User")
        user := by
  have hans : .passed q ∈ (answer conf s a).1 := h
  unfold answer at hans
  cases hcred : credentials conf a.req with
  | error reply =>
    rw [hcred] at hans
    simp at hans
  | ok r =>
    obtain ⟨req, user, pass⟩ := r
    obtain ⟨hpres, hreq⟩ := credentials_presents hcred
    rw [hcred] at hans
    simp only [check] at hans
    cases hck : (if conf.docache then ckcache a.now user pass s.cache else none) with
    | some cache =>
      rw [hck] at hans
      obtain rfl : q = _ := by simpa [serve2] using hans
      rw [Option.ite_none_right_eq_some] at hck
      exact ⟨user, ⟨pass, hpres, .inl ⟨hck.1, ckcache_holds hck.2⟩⟩, by rw [hreq]⟩
    | none =>
      rw [hck] at hans
      simp only at hans
      cases hauth : auth conf (a.authcmd (stdin user pass)) with
      | some reply =>
        rw [hauth] at hans
        simp at hans
      | none =>
        rw [hauth] at hans
        obtain rfl : q = _ := by simpa [serve2] using hans
        exact ⟨user, ⟨pass, hpres, .inr (auth_eq_none hauth)⟩, by rw [hreq]⟩

/-- The child handler is not told the credentials, and is told the rest of the request and the name
    of the user, iff the request has no second `Authorization` header. -/
theorem passed_without_credentials_iff (conf : Config) (s : State) (a : Arrival) (q : Hthead)
    (h : .passed q ∈ (serve conf s a).1) :
    Discreet conf s a q ↔ a.req.headers.countP isAuthorization ≤ 1 := by
  obtain ⟨user, huser, rfl⟩ := passed_spec h
  constructor
  · rintro ⟨hnone, -⟩
    have h0 : (a.req.headers.eraseP isAuthorization).countP isAuthorization = 0 := by
      rw [List.countP_eq_zero]
      intro x hx
      have : isAuthorization x = false := hnone x (List.mem_append_left _ hx)
      simp [this]
    have := countP_eraseP_le (p := isAuthorization) (l := a.req.headers)
    omega
  · intro hle
    have hq : (headrmheader a.req (bytes "Authorization")).headers =
        a.req.headers.filter fun h => !isAuthorization h := eraseP_eq_filter hle
    refine ⟨?_, user, huser, ?_⟩
    · intro x hx
      rw [headappheader, hq] at hx
      rcases List.mem_append.mp hx with hx | hx
      · simpa using (List.mem_filter.mp hx).2
      · rw [List.mem_singleton.mp hx]
        show strcaseeq (bytes "X-Ash-Remote-User") (bytes "Authorization") = false
        decide
    · rw [headappheader, hq]
      rfl

/-- A request of the user `u` with the password `p`, whom the program accepts. -/
def known (headers : List (Bytes × Bytes)) : Arrival where
  now := 0
  req := { headers := (bytes "Authorization", bytes "Basic dTpw") :: headers }
  authcmd := fun _ => .exited true []

theorem passed_without_credentials_single :
    Discreet {} {} (known [(bytes "Host", bytes "h")])
      { headers := [(bytes "Host", bytes "h"), (bytes "X-Ash-Remote-User", bytes "u")] } :=
  (passed_without_credentials_iff _ _ _ _ (by decide +kernel)).mpr (by decide)

/-- The second header is passed on. -/
theorem passed_second_authorization :
    ¬ ∀ conf s a q, .passed q ∈ (serve conf s a).1 → Discreet conf s a q := by
  intro h
  have := h {} {} (known [(bytes "authorization", bytes "Basic dTpw")])
    { headers := [(bytes "authorization", bytes "Basic dTpw"), (bytes "X-Ash-Remote-User", bytes "u")] }
    (by decide +kernel)
  have h0 := this.1 (bytes "authorization", bytes "Basic dTpw") (by decide)
  revert h0
  decide

end Ashd.Htextauth
