import Ashd.Cgi.Fcgi
import Ashd.Common.Lifetime

/-!
# What a FastCGI server answers with

`outplex` of src/callfcgi.c reads the records that come from a server, and writes the data of those
that are about a stream to the pipe for that stream, until a record without data ends it. Records of
the two streams may be interleaved in any way.

What is opened and closed, or allocated and freed, is modelled along with what is written: the buffer
that `recvrec` allocates for the data of a record is freed by `outplex`, but by `recvrec` itself if
it cannot be filled.

Main results:
* `outplex_streams`: every pipe gets what has been sent on its stream, up to the end of it.
* `outplex_closes_iff`: everything is closed and freed once, unless a record is cut short in its
  data: the buffer of that one is freed twice.
-/

namespace Ashd.Cgi.Callfcgi

open Fcgi Lifetime

/-! ## Model -/

/-- `struct ch`, for a pipe with the records of type `id`. A pipe that has been closed is no longer
    `live`; what has been written to it is still known. -/
structure Ch where
  id : ℕ
  s : File := {}
  live : Bool := true

/-- What `outplex` has to give up: the buffer of the `n`th record, the `i`th pipe, and the stream
    that it reads. -/
inductive Res
  | buf (n : ℕ)
  | ch (i : ℕ)
  | sk
  deriving DecidableEq

/-- Whether `recvrec` comes to allocate `*data` (src/callfcgi.c:586–596). -/
def allocates : Bytes → Bool
  | h0 :: _ :: _ :: _ :: _ :: _ :: _ :: h7 :: _ => h0 = 1 ∧ h7 = 0
  | _ => false

/-- What `recvrec` does with the buffer of the `n`th record. -/
def recvUses (n : ℕ) (inp : Bytes) : List (Use Res) :=
  if allocates inp then
    .opened (.buf n) :: if (recvrec inp).1 = none then [.closed (.buf n)] else []
  else []

/-- The loop over the pipes, from the `i`th one on (src/callfcgi.c:638–650), with `false` for
    `goto out`. -/
def deliver (r : Record) : ℕ → List Ch → Bool × List Ch × List (Use Res)
  | _, [] => (true, [], [])
  | i, c :: cs =>
    if c.id = r.type then
      if c.live then
        if r.dlen = 0 then (true, { c with live := false } :: cs, [.closed (.ch i)])
        else ((fputs r.payload c.s).1, { c with s := (fputs r.payload c.s).2 } :: cs, [])
      else (true, c :: cs, [])
    else
      let (ok, cs, us) := deliver r (i + 1) cs
      (ok, c :: cs, us)

/-- What is there at the label `out`: the pipes, and which buffer `data` points to. -/
structure Out where
  outs : List Ch
  data : Option ℕ
  uses : List (Use Res)

/-- The loop of `outplex` (src/callfcgi.c:633–653), when `n` records have been read. -/
def outplexLoop : ℕ → ℕ → Bytes → List Ch → Out
  | 0, _, _, outs => ⟨outs, none, []⟩
  | fuel + 1, n, inp, outs =>
    let data := if allocates inp then some n else none
    match recvrec inp with
    | (none, _) => ⟨outs, data, recvUses n inp⟩
    | (some r, rest) =>
      if r.rid ≠ 1 then ⟨outs, data, recvUses n inp⟩
      else
        match deliver r 0 outs with
        | (false, outs, us) => ⟨outs, data, recvUses n inp ++ us⟩
        | (true, outs, us) =>
          let o := outplexLoop fuel (n + 1) rest outs
          { o with uses := recvUses n inp ++ us ++ .closed (.buf n) :: o.uses }

/-- The pipes that are still open. -/
def liveFrom : ℕ → List Ch → List Res
  | _, [] => []
  | i, c :: cs => if c.live then .ch i :: liveFrom (i + 1) cs else liveFrom (i + 1) cs

/-- `outplex` (src/callfcgi.c:611–665). -/
def outplex (inp : Bytes) (outs : List Ch) : List Ch × List (Use Res) :=
  let o := outplexLoop (inp.length + 1) 0 inp outs
  (o.outs, o.uses ++ o.data.toList.map (fun n => .closed (.buf n)) ++
    (liveFrom 0 o.outs).map .closed ++ [.closed .sk])

/-! ## Specification -/

/-- The records up to the first one that cannot be read or is for another request, and what is read
    then. -/
def heard : ℕ → Bytes → List Record × Bytes
  | 0, inp => ([], inp)
  | fuel + 1, inp =>
    match recvrec inp with
    | (none, _) => ([], inp)
    | (some r, rest) =>
      if r.rid ≠ 1 then ([], inp) else (r :: (heard fuel rest).1, (heard fuel rest).2)

/-- What has been sent on the stream of a type, up to the end of it. -/
def stream (type : ℕ) (rs : List Record) : Bytes :=
  ((rs.filter fun r => r.type = type).takeWhile fun r => r.dlen ≠ 0).flatMap Record.payload

/-- Whether the stream of a type has been ended. -/
def ended (type : ℕ) (rs : List Record) : Bool := rs.any fun r => r.type = type ∧ r.dlen = 0

/-- A record whose header is good, with less data than the header says. -/
def cutShort (inp : Bytes) : Prop := allocates inp = true ∧ (recvrec inp).1 = none

/-- What `outplex` is given: the pipes and the stream that it reads, all of them open. -/
def given (outs : List Ch) : List (Use Res) :=
  (liveFrom 0 outs).map .opened ++ [.opened .sk]

/-! ## One record -/

theorem of_recvrec {inp rest : Bytes} {r : Record} (h : recvrec inp = (some r, rest)) :
    allocates inp = true ∧ rest.length + 8 ≤ inp.length := by
  unfold recvrec at h
  split at h
  · simp only at h
    split at h
    · cases h
    · rename_i h0
      split at h
      · cases h
      · rename_i h7
        split at h
        · cases h
        · rw [Prod.mk.injEq] at h
          obtain ⟨-, rfl⟩ := h
          refine ⟨decide_eq_true ⟨not_not.mp h0, not_not.mp h7⟩, ?_⟩
          simp only [List.length_drop, List.length_cons]
          omega
  · cases h

/-- What a pipe has of a record. -/
def Ch.recv (c : Ch) (r : Record) : Ch :=
  if c.id = r.type ∧ c.live = true then
    if r.dlen = 0 then { c with live := false }
    else { c with s := { c.s with written := c.s.written ++ r.payload } }
  else c

@[simp] theorem Ch.id_recv (c : Ch) (r : Record) : (c.recv r).id = c.id := by
  unfold Ch.recv
  split_ifs <;> rfl

@[simp] theorem Ch.room_recv (c : Ch) (r : Record) : (c.recv r).s.room = c.s.room := by
  unfold Ch.recv
  split_ifs <;> rfl

theorem Ch.recv_of_eq {c : Ch} {r : Record} (ht : c.id = r.type) (hlive : c.live = true) :
    c.recv r = if r.dlen = 0 then { c with live := false }
      else { c with s := { c.s with written := c.s.written ++ r.payload } } :=
  if_pos ⟨ht, hlive⟩

theorem Ch.recv_of_dead {c : Ch} {r : Record} (hlive : ¬c.live = true) : c.recv r = c :=
  if_neg fun hc => hlive hc.2

theorem Ch.recv_of_ne {c : Ch} {r : Record} (h : c.id ≠ r.type) : c.recv r = c :=
  if_neg fun hc => h hc.1

theorem map_recv_of_notMem {r : Record} {cs : List Ch} (h : r.type ∉ cs.map Ch.id) :
    cs.map (Ch.recv · r) = cs := by
  refine (List.map_congr_left fun c hc => ?_).trans (List.map_id cs)
  exact Ch.recv_of_ne fun ht => h (ht ▸ List.mem_map_of_mem hc)

/-- Looking for the pipe is asking all of them, if they are for different types. -/
theorem deliver_eq_map (r : Record) {outs : List Ch} (hid : (outs.map Ch.id).Nodup)
    (hroom : ∀ c ∈ outs, c.s.room = none) (i : ℕ) :
    (deliver r i outs).1 = true ∧ (deliver r i outs).2.1 = outs.map (Ch.recv · r) := by
  induction outs generalizing i with
  | nil => exact ⟨rfl, rfl⟩
  | cons c cs ih =>
    rw [List.map_cons, List.nodup_cons] at hid
    obtain ⟨hc, hcs⟩ := List.forall_mem_cons.mp hroom
    rw [deliver, List.map_cons]
    by_cases ht : c.id = r.type
    · rw [if_pos ht, map_recv_of_notMem (ht ▸ hid.1)]
      by_cases hlive : c.live = true
      · rw [if_pos hlive, Ch.recv_of_eq ht hlive]
        by_cases hd : r.dlen = 0
        · rw [if_pos hd, if_pos hd]
          exact ⟨rfl, rfl⟩
        · rw [if_neg hd, if_neg hd, fputs_ok _ hc]
          exact ⟨rfl, rfl⟩
      · rw [if_neg hlive, Ch.recv_of_dead hlive]
        exact ⟨rfl, rfl⟩
    · rw [if_neg ht, Ch.recv_of_ne ht]
      exact ⟨(ih hid.2 hcs (i + 1)).1, congrArg (c :: ·) (ih hid.2 hcs (i + 1)).2⟩

/-! ## All of them -/

theorem foldl_recv (rs : List Record) (c : Ch) :
    rs.foldl Ch.recv c =
      if c.live then
        { c with
          s := { c.s with written := c.s.written ++ stream c.id rs }
          live := !ended c.id rs }
      else c := by
  induction rs generalizing c with
  | nil =>
    rw [List.foldl_nil]
    split_ifs with h
    · simp [stream, ended, ← h]
    · rfl
  | cons r rs ih =>
    rw [List.foldl_cons, ih, Ch.id_recv]
    by_cases ht : c.id = r.type
    · by_cases hlive : c.live = true
      · rw [Ch.recv_of_eq ht hlive, if_pos hlive]
        by_cases hd : r.dlen = 0
        · rw [if_pos hd]
          simp [stream, ended, ht, hd]
        · rw [if_neg hd]
          simp [stream, ended, ht, hd, hlive]
      · rw [Ch.recv_of_dead hlive, if_neg hlive, if_neg hlive]
    · have ht' : r.type ≠ c.id := fun h => ht h.symm
      rw [Ch.recv_of_ne ht]
      simp [stream, ended, ht']

theorem outplexLoop_outs (fuel n : ℕ) (inp : Bytes) {outs : List Ch}
    (hid : (outs.map Ch.id).Nodup) (hroom : ∀ c ∈ outs, c.s.room = none) :
    (outplexLoop fuel n inp outs).outs = outs.map fun c => (heard fuel inp).1.foldl Ch.recv c := by
  induction fuel generalizing n inp outs with
  | zero => exact (List.map_id outs).symm
  | succ fuel ih =>
    rw [outplexLoop, heard]
    rcases hr : recvrec inp with ⟨_ | r, rest⟩
    · exact (List.map_id outs).symm
    · simp only
      by_cases hrid : r.rid = 1
      · rw [if_neg (not_not.mpr hrid), if_neg (not_not.mpr hrid)]
        obtain ⟨hok, houts⟩ := deliver_eq_map r hid hroom 0
        rcases hd : deliver r 0 outs with ⟨ok, outs', us⟩
        rw [hd] at hok houts
        obtain rfl : ok = true := hok
        obtain rfl : outs' = outs.map (Ch.recv · r) := houts
        simp only
        rw [ih, List.map_map]
        · rfl
        · rw [List.map_map]
          simpa [Function.comp_def] using hid
        · intro c hc
          obtain ⟨c', hc', rfl⟩ := List.mem_map.mp hc
          rw [Ch.room_recv]
          exact hroom c' hc'
      · rw [if_pos hrid, if_pos hrid]
        exact (List.map_id outs).symm

/-- The loop goes on until there is a reason in the program to stop. -/
theorem heard_stops {fuel : ℕ} {inp : Bytes} (h : inp.length < fuel) :
    (recvrec (heard fuel inp).2).1 = none ∨
      ∃ r rest, recvrec (heard fuel inp).2 = (some r, rest) ∧ r.rid ≠ 1 := by
  induction fuel generalizing inp with
  | zero => omega
  | succ fuel ih =>
    rw [heard]
    rcases hr : recvrec inp with ⟨_ | r, rest⟩
    · exact .inl (by rw [hr])
    · simp only
      split_ifs with hrid
      · exact .inr ⟨r, rest, hr, hrid⟩
      · have hrest := (of_recvrec hr).2
        exact ih (by omega)

theorem heard_wire {segs : List (ℕ × Bytes)} (h : ∀ s ∈ segs, s.1 < 256 ∧ s.2.length ≤ 65535)
    {fuel : ℕ} (hfuel : (wire segs).length < fuel) :
    heard fuel (wire segs) = (records segs, []) := by
  induction segs generalizing fuel with
  | nil =>
    obtain ⟨fuel, rfl⟩ := Nat.exists_eq_succ_of_ne_zero (by omega : fuel ≠ 0)
    rfl
  | cons s segs ih =>
    obtain ⟨hs, hsegs⟩ := List.forall_mem_cons.mp h
    have hrec := recvrec_recBytes hs.1 (by omega : 1 < 65536) hs.2 (wire segs)
    rw [← wire_cons] at hrec
    have hlen := (of_recvrec hrec).2
    obtain ⟨fuel, rfl⟩ := Nat.exists_eq_succ_of_ne_zero (by omega : fuel ≠ 0)
    rw [heard, hrec]
    simp only
    rw [if_neg fun hrid : (recOf s.1 1 s.2).rid ≠ 1 => hrid rfl, ih hsegs (by omega)]
    rfl

/-- What is ended once is the stream. -/
theorem stream_of_endedOnce {type : ℕ} {data : Bytes} {segs : List (ℕ × Bytes)}
    (h : EndedOnce type data (records segs)) :
    stream type (records segs) = data ∧ ended type (records segs) = true := by
  obtain ⟨parts, last, hf, hne, hdata, hlast⟩ := h
  have hdlen : ∀ r ∈ records segs, (r.dlen = 0 ↔ r.payload = []) := by
    intro r hr
    obtain ⟨s, -, rfl⟩ := List.mem_map.mp hr
    rw [payload_recOf]
    exact List.length_eq_zero_iff
  have hmem : ∀ r ∈ parts ++ [last], r ∈ records segs ∧ r.type = type := by
    intro r hr
    rw [← hf, List.mem_filter, decide_eq_true_eq] at hr
    exact hr
  have hl := hmem last (List.mem_append_right _ (List.mem_singleton_self _))
  have hl0 := (hdlen last hl.1).mpr hlast
  have hparts : ∀ r ∈ parts, decide (r.dlen ≠ 0) = true := fun r hr =>
    decide_eq_true fun h0 => hne r hr ((hdlen r (hmem r (List.mem_append_left _ hr)).1).mp h0)
  constructor
  · rw [stream, hf, List.takeWhile_append_of_pos hparts, List.takeWhile_cons_of_neg (by simp [hl0]),
      List.append_nil, hdata]
  · exact List.any_eq_true.mpr ⟨last, hl.1, decide_eq_true ⟨hl.2, hl0⟩⟩

/-- Whatever comes in, and as long as writing does not fail, a pipe has what has been sent on its
    stream up to the end of it, and is closed then, whatever comes on the other streams in between;
    of records that end a stream once, it has the data of the stream. -/
theorem outplex_streams (inp : Bytes) (outs : List Ch) (hid : (outs.map Ch.id).Nodup)
    (hroom : ∀ c ∈ outs, c.s.room = none) (hlive : ∀ c ∈ outs, c.live = true) :
    (outplex inp outs).1 = outs.map (fun c =>
      { c with
        s := { c.s with
          written := c.s.written ++ stream c.id (heard (inp.length + 1) inp).1 }
        live := !ended c.id (heard (inp.length + 1) inp).1 }) ∧
    ∀ segs : List (ℕ × Bytes), (∀ s ∈ segs, s.1 < 256 ∧ s.2.length ≤ 65535) → inp = wire segs →
      ∀ c ∈ outs, ∀ data, EndedOnce c.id data (records segs) →
        { c with s := { c.s with written := c.s.written ++ data }, live := false } ∈
          (outplex inp outs).1 := by
  have houts : (outplex inp outs).1 = outs.map (fun c =>
      { c with
        s := { c.s with
          written := c.s.written ++ stream c.id (heard (inp.length + 1) inp).1 }
        live := !ended c.id (heard (inp.length + 1) inp).1 }) := by
    rw [outplex, outplexLoop_outs _ _ _ hid hroom]
    refine List.map_congr_left fun c hc => ?_
    rw [foldl_recv, if_pos (hlive c hc)]
  refine ⟨houts, ?_⟩
  rintro segs hsegs rfl c hc data hdata
  obtain ⟨hstream, hended⟩ := stream_of_endedOnce hdata
  rw [houts, heard_wire hsegs (Nat.lt_succ_self _)]
  refine List.mem_map.mpr ⟨c, hc, ?_⟩
  rw [hstream, hended]
  rfl

/-- An answer with something on the standard error, of which a piece comes in between. -/
theorem outplex_streams_stderr :
    ({ id := 6, s := { written := bytes "hello" }, live := false } : Ch) ∈
      (outplex (wire [(6, bytes "hel"), (7, bytes "oops"), (6, bytes "lo"), (7, []), (6, [])])
        [{ id := 6 }, { id := 7 }]).1 :=
  (outplex_streams _ _ (by decide) (by decide) (by decide)).2 _ (by decide) rfl { id := 6 }
    (List.mem_cons_self ..) (bytes "hello")
    ⟨[recOf 6 1 (bytes "hel"), recOf 6 1 (bytes "lo")], recOf 6 1 [], by decide, by decide, by decide,
      rfl⟩

/-! ## Opening and closing -/

theorem deliver_uses {r : Record} {i : ℕ} {outs outs' : List Ch} {ok : Bool} {us : List (Use Res)}
    (h : deliver r i outs = (ok, outs', us)) (s : Multiset Res) :
    openAfter us (↑(liveFrom i outs) + s) = some (↑(liveFrom i outs') + s) := by
  induction outs generalizing i ok outs' us s with
  | nil =>
    cases h
    rfl
  | cons c cs ih =>
    rw [deliver] at h
    split_ifs at h with ht hlive hd
    · cases h
      have hclosed := openAfter_closed [Res.ch i] (↑(liveFrom (i + 1) cs) + s)
      rw [liveFrom, if_pos hlive, liveFrom, if_neg nofun, ← Multiset.cons_coe, Multiset.cons_add]
      exact hclosed
    · cases h
      rw [liveFrom, liveFrom]
      rfl
    · cases h
      rfl
    · rcases hd : deliver r (i + 1) cs with ⟨ok₁, outs₁, us₁⟩
      rw [hd] at h
      cases h
      rw [liveFrom, liveFrom]
      split_ifs
      · rw [← Multiset.cons_coe, ← Multiset.cons_coe, Multiset.cons_add, Multiset.cons_add,
          ← Multiset.add_cons, ← Multiset.add_cons]
        exact ih hd _
      · exact ih hd s

/-- The buffer of a record that has been read is allocated. -/
theorem openAfter_recvUses {n : ℕ} {inp rest : Bytes} {r : Record}
    (h : recvrec inp = (some r, rest)) (us : List (Use Res)) (s : Multiset Res) :
    openAfter (recvUses n inp ++ us) s = openAfter us (.buf n ::ₘ s) := by
  rw [recvUses, if_pos (of_recvrec h).1, h, if_neg nofun]
  rfl

theorem openAfter_close (a : Res) (us : List (Use Res)) (s : Multiset Res) :
    openAfter (.closed a :: us) (a ::ₘ s) = openAfter us s := by
  rw [openAfter, if_pos (Multiset.mem_cons_self a s), Multiset.erase_cons_head]

/-- At `out`, the buffer of the last record is there to be freed if no record is cut short. -/
theorem outplexLoop_uses {fuel n : ℕ} {inp : Bytes} (outs : List Ch)
    (h : ¬cutShort (heard fuel inp).2) (s : Multiset Res) :
    openAfter (outplexLoop fuel n inp outs).uses (↑(liveFrom 0 outs) + s) =
      some (↑((outplexLoop fuel n inp outs).data.toList.map Res.buf) +
        (↑(liveFrom 0 (outplexLoop fuel n inp outs).outs) + s)) := by
  induction fuel generalizing n inp outs with
  | zero => simp [outplexLoop, openAfter]
  | succ fuel ih =>
    rw [heard] at h
    rw [outplexLoop]
    rcases hr : recvrec inp with ⟨_ | r, rest⟩
    · rw [hr] at h
      have hall : allocates inp = false := by
        rw [← Bool.not_eq_true]
        exact fun hall => h ⟨hall, by rw [hr]⟩
      simp [recvUses, hall, openAfter]
    · rw [hr] at h
      simp only at h ⊢
      have hall := (of_recvrec hr).1
      by_cases hrid : r.rid = 1
      · rw [if_neg (not_not.mpr hrid)] at h ⊢
        rcases hd : deliver r 0 outs with ⟨_ | _, outs', us⟩
        · simp only
          rw [openAfter_recvUses hr, ← Multiset.add_cons, deliver_uses hd]
          simp [hall]
        · simp only
          rw [List.append_assoc, openAfter_recvUses hr, ← Multiset.add_cons, openAfter_append,
            deliver_uses hd, Option.bind_some, Multiset.add_cons, openAfter_close]
          exact ih outs' h
      · have huses := openAfter_recvUses hr (n := n) [] (↑(liveFrom 0 outs) + s)
        rw [List.append_nil] at huses
        rw [if_pos hrid]
        simp [huses, hall, openAfter]

theorem deliver_room {r : Record} {i : ℕ} {outs outs' : List Ch} {ok : Bool} {us : List (Use Res)}
    (hroom : ∀ c ∈ outs, c.s.room = none) (h : deliver r i outs = (ok, outs', us)) :
    ok = true ∧ ∀ c ∈ outs', c.s.room = none := by
  induction outs generalizing i ok outs' us with
  | nil =>
    cases h
    exact ⟨rfl, nofun⟩
  | cons c cs ih =>
    obtain ⟨hc, hcs⟩ := List.forall_mem_cons.mp hroom
    rw [deliver] at h
    split_ifs at h with ht hlive hd
    · cases h
      exact ⟨rfl, List.forall_mem_cons.mpr ⟨hc, hcs⟩⟩
    · rw [fputs_ok _ hc] at h
      cases h
      exact ⟨rfl, List.forall_mem_cons.mpr ⟨hc, hcs⟩⟩
    · cases h
      exact ⟨rfl, hroom⟩
    · rcases hd : deliver r (i + 1) cs with ⟨ok₁, outs₁, us₁⟩
      rw [hd] at h
      cases h
      exact ⟨(ih hcs hd).1, List.forall_mem_cons.mpr ⟨hc, (ih hcs hd).2⟩⟩

theorem buf_notMem_liveFrom (m i : ℕ) (outs : List Ch) : Res.buf m ∉ liveFrom i outs := by
  induction outs generalizing i with
  | nil => exact List.not_mem_nil
  | cons c cs ih =>
    rw [liveFrom]
    split_ifs
    · exact fun h => (List.mem_cons.mp h).elim nofun (ih (i + 1))
    · exact ih (i + 1)

/-- A record that is cut short leaves `data` with a buffer that has been freed. -/
theorem outplexLoop_cut {fuel n : ℕ} {inp : Bytes} (hfuel : inp.length < fuel) {outs : List Ch}
    (hroom : ∀ c ∈ outs, c.s.room = none) (h : cutShort (heard fuel inp).2) (s : Multiset Res) :
    ∃ m, (outplexLoop fuel n inp outs).data = some m ∧
      openAfter (outplexLoop fuel n inp outs).uses (↑(liveFrom 0 outs) + s) =
        some (↑(liveFrom 0 (outplexLoop fuel n inp outs).outs) + s) := by
  induction fuel generalizing n inp outs with
  | zero => omega
  | succ fuel ih =>
    rw [heard] at h
    rw [outplexLoop]
    rcases hr : recvrec inp with ⟨_ | r, rest⟩
    · rw [hr] at h
      have hall : allocates inp = true := h.1
      refine ⟨n, by simp [hall], ?_⟩
      have hus : recvUses n inp = [.opened (.buf n), .closed (.buf n)] := by
        simp [recvUses, hall, hr]
      simp only
      rw [hus, openAfter, openAfter_close]
      rfl
    · rw [hr] at h
      have hrest := (of_recvrec hr).2
      simp only at h ⊢
      by_cases hrid : r.rid = 1
      · rw [if_neg (not_not.mpr hrid)] at h ⊢
        rcases hd : deliver r 0 outs with ⟨ok, outs', us⟩
        obtain ⟨hok, hroom'⟩ := deliver_room hroom hd
        subst hok
        obtain ⟨m, hm, huses⟩ := ih (n := n + 1) (by omega) hroom' h
        refine ⟨m, hm, ?_⟩
        simp only
        rw [List.append_assoc, openAfter_recvUses hr, ← Multiset.add_cons, openAfter_append,
          deliver_uses hd, Option.bind_some, Multiset.add_cons, openAfter_close]
        exact huses
      · rw [if_pos hrid] at h
        have hnone := h.2
        rw [hr] at hnone
        cases hnone

theorem openAfter_closed_sk (l : List Res) :
    openAfter (l.map .closed ++ [.closed .sk]) ((l : Multiset Res) + {Res.sk}) = some 0 := by
  rw [openAfter_append, openAfter_closed, Option.bind_some]
  rfl

/-- Whatever is read, and whether or not writing fails, every pipe, the stream and the buffer of every
    record are closed or freed exactly once if no record is cut short in its data; if one is, and
    writing does not fail, then they are not. -/
theorem outplex_closes (inp : Bytes) (outs : List Ch) :
    (¬cutShort (heard (inp.length + 1) inp).2 →
      ClosedOnce (given outs ++ (outplex inp outs).2)) ∧
    ((∀ c ∈ outs, c.s.room = none) → ClosedOnce (given outs ++ (outplex inp outs).2) →
      ¬cutShort (heard (inp.length + 1) inp).2) := by
  have hgiven : openAfter (given outs) 0 = some (↑(liveFrom 0 outs) + ({Res.sk} : Multiset Res)) := by
    rw [given, openAfter_append, openAfter_opened, Option.bind_some, openAfter, openAfter, add_zero,
      ← Multiset.singleton_add, add_comm]
  rw [closedOnce_iff, openAfter_append, hgiven, Option.bind_some, outplex]
  simp only [List.append_assoc]
  rw [openAfter_append]
  constructor
  · intro h
    rw [outplexLoop_uses outs h, Option.bind_some, openAfter_append,
      show (outplexLoop (inp.length + 1) 0 inp outs).data.toList.map
          (fun n => (Use.closed (.buf n) : Use Res)) =
        ((outplexLoop (inp.length + 1) 0 inp outs).data.toList.map Res.buf).map .closed by
          rw [List.map_map]; rfl, openAfter_closed, Option.bind_some]
    exact openAfter_closed_sk _
  · intro hroom hclosed hcut
    obtain ⟨m, hm, huses⟩ := outplexLoop_cut (n := 0) (Nat.lt_succ_self _) hroom hcut
      ({Res.sk} : Multiset Res)
    rw [huses, Option.bind_some, hm, Option.toList_some, List.map_singleton, List.singleton_append,
      openAfter, if_neg (by simp [buf_notMem_liveFrom])] at hclosed
    cases hclosed

/-- The header says 16 bytes, and 4 are there. -/
example : ¬ClosedOnce (given [{ id := 6 }, { id := 7 }] ++
    (outplex [1, 6, 0, 1, 0, 16, 0, 0, 104, 101, 108, 108] [{ id := 6 }, { id := 7 }]).2) := by
  rw [closedOnce_iff]
  decide

end Ashd.Cgi.Callfcgi
