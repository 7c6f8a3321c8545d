import Ashd.Common.Bytes
import Ashd.Common.Recency
import Ashd.Lib.Btree
import Mathlib.Data.Int.Init

/-!
# The TLS session store of `htparser`

`sessdbstore`, `sessdbfetch` and `sessdbdel` (htparser's ssl-gnutls.c). Memory is a map from
addresses to records, and a function that dereferences a null pointer returns `none`. Counters
do not overflow, and there is always memory. The TLS library's callbacks are the calls of a run;
`numconn`, which the connections change, is given with each of them.

Main definitions:
* `sesscmp`, `freesess`, `cleansess`.
* `sessdbfetch`, `sessdbdel`, `sessdbstore`.
* `sessRun`: a sequence of calls, and what it has done.
-/

namespace Ashd.Ssl

/-- `struct savedsess` (ssl-gnutls.c:71–74). -/
structure Savedsess where
  next : Option ℕ
  prev : Option ℕ
  key : Bytes
  value : Bytes

/-- What the library has asked to be kept. -/
def Savedsess.data (sess : Savedsess) : Bytes × Bytes := (sess.key, sess.value)

/-- The static variables, `cc` of `sessdbstore` among them, and the memory. -/
structure Sessdb where
  mem : ℕ → Savedsess
  /-- What `malloc` returns next. -/
  brk : ℕ
  numsess : ℤ
  sessidx : Btree ℕ
  sesslistf : Option ℕ
  sesslistl : Option ℕ
  cc : ℕ

/-- The address of the local variable `lkey`. -/
def lkey : ℕ := 0

def Sessdb.init : Sessdb := ⟨fun _ => ⟨none, none, [], []⟩, lkey + 1, 0, .null, none, none, 0⟩

/-- `sesscmp` (ssl-gnutls.c:85–92). The sizes are unsigned, and their difference is converted
    to an `int`. -/
def sesscmp (a b : Savedsess) : Ordering :=
  if a.key.length ≠ b.key.length then compare (((a.key.length : ℤ) - b.key.length).bmod (2 ^ 32)) 0
  else compare a.key b.key

/-- `sesscmp` on pointers. -/
def Sessdb.cmp (db : Sessdb) (ap bp : ℕ) : Ordering := sesscmp (db.mem ap) (db.mem bp)

/-- Fields of a record are assigned to. -/
def Sessdb.write (db : Sessdb) (sess : ℕ) (f : Savedsess → Savedsess) : Sessdb :=
  { db with mem := Function.update db.mem sess (f (db.mem sess)) }

theorem write_mem (db : Sessdb) (sess : ℕ) (f : Savedsess → Savedsess) (c : ℕ) :
    (db.write sess f).mem c = if c = sess then f (db.mem c) else db.mem c := by
  rw [Sessdb.write]
  simp only [Function.update_apply]
  split_ifs with h
  · rw [h]
  · rfl

/-- `lkey.key = key` and `btreeget(sessidx, &lkey, sesscmp)` (ssl-gnutls.c:100–101, 128–129,
    150–151). -/
def sessget (db : Sessdb) (key : Bytes) : Option ℕ :=
  let db := db.write lkey ({ · with key })
  btreeget db.cmp lkey db.sessidx

/-- `sess->next = next`. -/
def Sessdb.setnext (db : Sessdb) (sess : ℕ) (next : Option ℕ) : Sessdb := db.write sess ({ · with next })

/-- `sess->prev = prev`. -/
def Sessdb.setprev (db : Sessdb) (sess : ℕ) (prev : Option ℕ) : Sessdb := db.write sess ({ · with prev })

theorem setnext_mem (db : Sessdb) (sess : ℕ) (p : Option ℕ) (c : ℕ) :
    (db.setnext sess p).mem c = { db.mem c with next := if c = sess then p else (db.mem c).next } := by
  rw [Sessdb.setnext, write_mem]
  split_ifs <;> rfl

theorem setprev_mem (db : Sessdb) (sess : ℕ) (p : Option ℕ) (c : ℕ) :
    (db.setprev sess p).mem c = { db.mem c with prev := if c = sess then p else (db.mem c).prev } := by
  rw [Sessdb.setprev, write_mem]
  split_ifs <;> rfl

@[simp] theorem setnext_sesslistf (db : Sessdb) (sess : ℕ) (p : Option ℕ) :
    (db.setnext sess p).sesslistf = db.sesslistf := rfl

@[simp] theorem setprev_sesslistf (db : Sessdb) (sess : ℕ) (p : Option ℕ) :
    (db.setprev sess p).sesslistf = db.sesslistf := rfl

/-- The neighbours of `sess` are linked to each other (ssl-gnutls.c:110–113, 168–171). -/
def unlink (db : Sessdb) (sess : ℕ) : Sessdb :=
  let db := match (db.mem sess).next with
    | some next => db.setprev next (db.mem sess).prev
    | none => db
  match (db.mem sess).prev with
  | some prev => db.setnext prev (db.mem sess).next
  | none => db

/-- What the fields are afterwards. -/
theorem unlink_eq (db : Sessdb) (sess : ℕ) : unlink db sess = { db with
    mem := fun c => { db.mem c with
      next := if (db.mem sess).prev = some c then (db.mem sess).next else (db.mem c).next
      prev := if (db.mem sess).next = some c then (db.mem sess).prev else (db.mem c).prev } } := by
  have hmem (c : ℕ) : (unlink db sess).mem c = { db.mem c with
      next := if (db.mem sess).prev = some c then (db.mem sess).next else (db.mem c).next
      prev := if (db.mem sess).next = some c then (db.mem sess).prev else (db.mem c).prev } := by
    unfold unlink
    cases hn : (db.mem sess).next with
    | none =>
      cases hp : (db.mem sess).prev with
      | none => simp [hp]
      | some prev => simp [hp, hn, setnext_mem, eq_comm]
    | some next =>
      cases hp : (db.mem sess).prev with
      | none => simp [hp, setprev_mem, eq_comm]
      | some prev => simp [hp, hn, setnext_mem, setprev_mem, eq_comm]
  have hrest : unlink db sess = { db with mem := (unlink db sess).mem } := by
    unfold unlink
    cases (db.mem sess).next with
    | none =>
      cases hp : (db.mem sess).prev with
      | none => simp only [hp]
      | some prev =>
        simp only [hp]
        rfl
    | some next =>
      simp only [setprev_mem]
      split <;> rfl
  rw [hrest, funext hmem]

/-- `freesess` (ssl-gnutls.c:107–122). -/
def freesess (db : Sessdb) (sess : ℕ) : Option Sessdb := do
  let (sessidx, _) ← bbtreedel db.cmp sess db.sessidx
  let db := unlink { db with sessidx } sess
  let db := if db.sesslistf = some sess then { db with sesslistf := (db.mem sess).next } else db
  let db := if db.sesslistl = some sess then { db with sesslistl := (db.mem sess).prev } else db
  return { db with numsess := db.numsess - 1 }

theorem freesess_eq {db : Sessdb} {sess : ℕ} {sessidx : Btree ℕ} {c : Bool}
    (hdel : bbtreedel db.cmp sess db.sessidx = some (sessidx, c)) : freesess db sess = some { db with
      mem := (unlink db sess).mem
      sessidx
      sesslistf := if db.sesslistf = some sess then (db.mem sess).next else db.sesslistf
      sesslistl := if db.sesslistl = some sess then (db.mem sess).prev else db.sesslistl
      numsess := db.numsess - 1 } := by
  rw [freesess, hdel]
  simp only [unlink_eq, Option.bind_eq_bind, Option.bind_some, Option.pure_def, ite_self]
  by_cases hf : db.sesslistf = some sess <;> by_cases hl : db.sesslistl = some sess <;> simp [hf, hl]

/-- `sessdbdel` (ssl-gnutls.c:124–133). -/
def sessdbdel (db : Sessdb) (key : Bytes) : Option (Sessdb × ℤ) :=
  match sessget db key with
  | none => some (db, -1)
  | some sess => (freesess db sess).map (·, 0)

/-- The loop of `cleansess`. -/
def cleanloop (numconn : ℕ) : ℕ → Sessdb → Option Sessdb
  | 0, db => some db
  | n + 1, db =>
    if db.numsess > max numconn 1 * 100 then do
      -- the list is not empty, or `freesess` is given a null pointer
      let sess ← db.sesslistl
      let db ← freesess db sess
      cleanloop numconn n db
    else some db

/-- `cleansess` (ssl-gnutls.c:135–139). Every turn takes one from `numsess`. -/
def cleansess (numconn : ℕ) (db : Sessdb) : Option Sessdb := cleanloop numconn db.numsess.toNat db

/-- `sess` is put in front of the list (ssl-gnutls.c:156–160, 174–178). -/
def pushfront (db : Sessdb) (sess : ℕ) : Sessdb :=
  let db := (db.setprev sess none).setnext sess db.sesslistf
  let db := match db.sesslistf with
    | some first => db.setprev first (some sess)
    | none => db
  { db with sesslistf := some sess }

theorem pushfront_eq (db : Sessdb) (sess : ℕ) : pushfront db sess = { db with
    mem := fun c => { db.mem c with
      next := if c = sess then db.sesslistf else (db.mem c).next
      prev := if db.sesslistf = some c then some sess else if c = sess then none else (db.mem c).prev }
    sesslistf := some sess } := by
  have hmem (c : ℕ) : (pushfront db sess).mem c = { db.mem c with
      next := if c = sess then db.sesslistf else (db.mem c).next
      prev := if db.sesslistf = some c then some sess else if c = sess then none else (db.mem c).prev } := by
    unfold pushfront
    cases hf : db.sesslistf with
    | none => simp [hf, setnext_mem, setprev_mem]
    | some first => simp [hf, setnext_mem, setprev_mem, eq_comm]
  have hrest : pushfront db sess = { db with mem := (pushfront db sess).mem, sesslistf := some sess } := by
    unfold pushfront
    cases hf : db.sesslistf with
    | none =>
      simp only [setnext_sesslistf, setprev_sesslistf, hf]
      rfl
    | some first =>
      simp only [setnext_sesslistf, setprev_sesslistf, hf]
      rfl
  rw [hrest, funext hmem]

/-- `omalloc(sess)`, and its key and value (ssl-gnutls.c:152–154). -/
def newsess (db : Sessdb) (key value : Bytes) : Sessdb :=
  { db.write db.brk ({ · with key, value }) with brk := db.brk + 1 }

/-- A session of its own for a key that is not known (ssl-gnutls.c:152–163). -/
def addsess (db : Sessdb) (key value : Bytes) : Option Sessdb := do
  let sess := db.brk
  let db := newsess db key value
  let (sessidx, _) ← bbtreeput db.cmp sess db.sessidx
  let db := pushfront { db with sessidx } sess
  let db := if db.sesslistl = none then { db with sesslistl := some sess } else db
  return { db with numsess := db.numsess + 1 }

theorem addsess_eq {db : Sessdb} {key value : Bytes} {sessidx : Btree ℕ} {c : Bool}
    (hput : bbtreeput (newsess db key value).cmp db.brk db.sessidx = some (sessidx, c)) :
    addsess db key value = some { pushfront (newsess db key value) db.brk with
      sessidx
      sesslistl := if db.sesslistl = none then some db.brk else db.sesslistl
      numsess := db.numsess + 1 } := by
  have hidx : (newsess db key value).sessidx = db.sessidx := rfl
  rw [addsess, hidx, hput]
  have hlast : (newsess db key value).sesslistl = db.sesslistl := rfl
  have hnum : (newsess db key value).numsess = db.numsess := rfl
  simp only [pushfront_eq, Option.bind_eq_bind, Option.bind_some, Option.pure_def, hlast]
  by_cases hl : db.sesslistl = none <;> simp [hl, hnum]

/-- A session that is not in front is put there (ssl-gnutls.c:167–179). -/
def movefront (db : Sessdb) (sess : ℕ) : Sessdb :=
  if db.sesslistf ≠ some sess then
    let db := unlink db sess
    let db := if db.sesslistl = some sess then { db with sesslistl := (db.mem sess).prev } else db
    pushfront db sess
  else db

/-- `movefront`, for a session that is not in front. -/
theorem movefront_eq {db : Sessdb} {sess : ℕ} (h : db.sesslistf ≠ some sess) :
    movefront db sess = { pushfront (unlink db sess) sess with
      sesslistl := if db.sesslistl = some sess then (db.mem sess).prev else db.sesslistl } := by
  rw [movefront, if_pos h]
  simp only [unlink_eq, pushfront_eq, ite_self]
  by_cases hl : db.sesslistl = some sess <;> simp [hl]

/-- A new value for a session (ssl-gnutls.c:165–179). -/
def renewsess (db : Sessdb) (sess : ℕ) (value : Bytes) : Sessdb := movefront (db.write sess ({ · with value })) sess

/-- The session of the key gets the value (ssl-gnutls.c:150–180). -/
def putsess (db : Sessdb) (key value : Bytes) : Option Sessdb :=
  match sessget db key with
  | none => addsess db key value
  | some sess => some (renewsess db sess value)

/-- `if(cc++ > 100)` (ssl-gnutls.c:181–184). -/
def countsess (numconn : ℕ) (db : Sessdb) : Option Sessdb :=
  if db.cc > 100 then (cleansess numconn db).map fun db => { db with cc := 0 }
  else some { db with cc := db.cc + 1 }

/-- `sessdbstore` (ssl-gnutls.c:141–186). The value is `none` if its `data` is null. -/
def sessdbstore (numconn : ℕ) (db : Sessdb) (key : Bytes) (value : Option Bytes) : Option (Sessdb × ℤ) :=
  match value with
  | none | some [] => (sessdbdel db key).map fun r => (r.1, 0)
  | some value => ((putsess db key value).bind (countsess numconn)).map (·, 0)

/-! ## Runs -/

/-- A callback of the TLS library. -/
inductive Call
  | store (key : Bytes) (value : Option Bytes)
  | fetch (key : Bytes)
  | del (key : Bytes)

def Call.key : Call → Bytes
  | .store key _ => key
  | .fetch key => key
  | .del key => key

/-- The store after a call. -/
def Call.run (numconn : ℕ) (db : Sessdb) : Call → Option Sessdb
  | .store key value => (sessdbstore numconn db key value).map Prod.fst
  | .fetch _ => some db
  | .del key => (sessdbdel db key).map Prod.fst

/-- What a call does to a cache, the cleanup among it. -/
def Call.ops (numconn : ℕ) (db : Sessdb) : Call → List (Recency.Op Bytes Bytes)
  | .store key none | .store key (some []) => [.drop key]
  | .store key (some value) =>
    if db.cc > 100 then [.store key value, .trim (100 * max numconn 1)] else [.store key value]
  | .fetch _ => []
  | .del key => [.drop key]

end Ashd.Ssl
