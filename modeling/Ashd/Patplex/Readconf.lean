import Ashd.Common.Message
import Ashd.Lib.CfChild
import Ashd.Lib.Resp
import Ashd.Patplex.Model
import Ashd.Ssl.Options

/-!
# The configuration file of `patplex`

`readconfig` of src/patplex.c makes a configuration of a file. A directive that it does not
understand is passed over, as is a stanza without rules or without a handler, and a child without a
program.

`regcomp` is the function of the C library with `REG_ICASE` or without it, and `null` is the
`pattern` of a rule that has none.

Main results:
* `readconfig_sane`: what is read of any file: a stanza that is used has rules and a handler, a rule
  has a pattern that has been compiled, and a child has a program.
* `readconfig_roundtrip`: every such configuration is read of a file in which it is written, however
  it is written there, and can be written if its lines are not too long.
-/

namespace Ashd.Patplex

open Cf (Files Legal)
open Cf.Blocks
open Ssl (atoi)

variable {ρ : Type*}

/-! ## Model -/

/-- `struct pattern` while it is read. -/
structure Stanza (ρ : Type*) where
  headers : List (Bytes × Bytes) := []
  rules : List (Rule ρ) := []
  restpat : Option Bytes := none
  handler : Option Handler := none
  prio : ℤ := 0

/-- `newrule` (src/patplex.c:133–143), with the rule. -/
def Stanza.newrule (pat : Stanza ρ) (rule : Rule ρ) : Stanza ρ :=
  { pat with rules := pat.rules ++ [rule] }

/-- Whether the options of a rule, if there are any, have the letter `c`. -/
def option (c : UInt8) (opts : List Bytes) : Bool := opts.head?.any (·.contains c)

/-- The type of a rule that matches a part of the request. -/
def textRule (cmd : Bytes) : Option RuleType :=
  if cmd = bytes "point" then some .rest
  else if cmd = bytes "url" then some .url
  else if cmd = bytes "method" then some .method
  else none

section

variable (regcomp : Bytes → Bool → Option ρ) (null : ρ)

/-- The loop of `parsepattern` (src/patplex.c:187–289), up to an `end`. -/
def Stanza.inside (pat : Stanza ρ) : List Bytes → Stanza ρ
  | [] => pat
  | cmd :: args =>
    match textRule cmd with
    | some type =>
      match args with
      | regex :: opts =>
        match regcomp regex (option 105 opts) with
        | some pattern =>
          pat.newrule
            { type := type, mss := option 115 opts, unq := option 113 opts, pattern := pattern }
        | none => pat
      | [] => pat
    | none =>
      if cmd = bytes "header" then
        match args with
        | header :: regex :: opts =>
          match regcomp regex (option 105 opts) with
          | some pattern =>
            pat.newrule
              { type := .header, mss := option 115 opts, header := header, pattern := pattern }
          | none => pat
        | _ => pat
      else if cmd = bytes "all" then pat.newrule { type := .all, pattern := null }
      else if cmd = bytes "default" then
        { pat.newrule { type := .all, pattern := null } with prio := -10 }
      else if cmd = bytes "order" ∨ cmd = bytes "priority" then
        match args with
        | prio :: _ => { pat with prio := atoi prio }
        | [] => pat
      else if cmd = bytes "handler" then
        match args with
        | childnm :: _ => { pat with handler := some (.child childnm) }
        | [] => pat
      else if cmd = bytes "reparse" then { pat with handler := some .reparse }
      else if cmd = bytes "restpat" then
        match args with
        | restpat :: _ => { pat with restpat := some restpat }
        | [] => pat
      else if cmd = bytes "set" ∨ cmd = bytes "xset" then
        match args with
        | name :: value :: _ =>
          let name := if cmd = bytes "xset" then bytes "X-Ash-" ++ name else name
          { pat with headers := (name, value) :: pat.headers }
        | _ => pat
      else pat

/-- The end of `parsepattern` (src/patplex.c:291–301). -/
def Stanza.closes (pat : Stanza ρ) : Option (Pattern ρ) :=
  if pat.rules = [] then none
  else
    pat.handler.map fun handler =>
      { headers := pat.headers, rules := pat.rules, restpat := pat.restpat, handler := handler,
        prio := pat.prio }

/-- `struct config`, with what has been declared of the children. -/
structure Conf (ρ : Type*) where
  children : List Decl := []
  patterns : List (Pattern ρ) := []

/-- A block that is read. -/
inductive Block (ρ : Type*)
  | child (d : Option DeclBlock)
  | pattern (pat : Stanza ρ)

/-- `parsechild` and `parsepattern`, where they set `expstart`. -/
def opens (w : List Bytes) : Option (Block ρ) :=
  match openchild w with
  | some d => some (.child d)
  | none => if w.head? = some (bytes "match") then some (.pattern {}) else none

def Block.inside : Block ρ → List Bytes → Block ρ
  | .child d, w => .child (d.map fun d => d.inside w)
  | .pattern pat, w => .pattern (pat.inside regcomp null w)

/-- What `readconfig` does with a child or a pattern. If there is none, the line that ended the
    block is one that it does not know. -/
def Block.closes (b : Block ρ) (cf : Conf ρ) : Conf ρ :=
  match b with
  | .child d => { cf with children := (d.bind DeclBlock.closes).toList ++ cf.children }
  | .pattern pat => { cf with patterns := pat.closes.toList ++ cf.patterns }

theorem opens_ordinary {w : List Bytes} {b : Block ρ} (h : opens w = some b) : Ordinary w := by
  unfold opens at h
  split at h
  · rename_i ho
    exact openchild_ordinary ho
  · split_ifs at h with hmatch
    cases w with
    | nil => cases hmatch
    | cons cmd args =>
      have hord : Ordinary [bytes "match"] := by decide
      rwa [← Option.some.inj hmatch] at hord

/-- The loop of `readconfig` (src/patplex.c:319–332). -/
def reader : Reader (Conf ρ) (Block ρ) where
  init := {}
  opens := opens
  inside := Block.inside regcomp null
  closes := Block.closes
  outside := fun _ cf => cf
  opens_legal := fun _ _ h => (opens_ordinary h).1
  outside_eof := fun _ => rfl

/-- `readconfig` (src/patplex.c:304–337), of a file with this text. -/
def readconfig (files : Files) (fuel : ℕ) (file text : Bytes) : Conf ρ :=
  (reader regcomp null).readconfig files fuel file text

end

/-- What the rest of `patplex` sees of it. -/
def Conf.config (cf : Conf ρ) : Config ρ where
  children := cf.children.map Decl.name
  patterns := cf.patterns

/-! ## Specification -/

section

variable (regcomp : Bytes → Bool → Option ρ) (null : ρ)

/-- A rule has what rules of its type have, and a pattern that has been compiled. -/
def Rule.Sane (r : Rule ρ) : Prop :=
  match r.type with
  | .all => r = { type := .all, pattern := null }
  | .header => r.unq = false ∧ ∃ regex icase, regcomp regex icase = some r.pattern
  | _ => r.header = [] ∧ ∃ regex icase, regcomp regex icase = some r.pattern

/-- A priority is an `int`. -/
def IsInt (n : ℤ) : Prop := -2 ^ 31 ≤ n ∧ n < 2 ^ 31

/-- A stanza that can be used: it has rules, and is not disabled. -/
structure Pattern.Sane (pat : Pattern ρ) : Prop where
  rules : pat.rules ≠ []
  sane : ∀ r ∈ pat.rules, r.Sane regcomp null
  prio : IsInt pat.prio
  disable : pat.disable = false

structure Conf.Sane (cf : Conf ρ) : Prop where
  children : ∀ decl ∈ cf.children, decl.argv ≠ []
  patterns : ∀ pat ∈ cf.patterns, pat.Sane regcomp null

end

/-- The options that a rule is written with. -/
def Rule.opts (icase : Bool) (r : Rule ρ) : Bytes :=
  (if icase then bytes "i" else []) ++ (if r.mss then bytes "s" else []) ++
    (if r.unq then bytes "q" else [])

section

variable (source : ρ → Bytes × Bool)

/-- A directive for a rule, where `source` tells what its pattern is compiled of. -/
def Rule.line (r : Rule ρ) : List Bytes :=
  let (regex, icase) := source r.pattern
  match r.type with
  | .rest => [bytes "point", regex, r.opts icase]
  | .url => [bytes "url", regex, r.opts icase]
  | .method => [bytes "method", regex, r.opts icase]
  | .header => [bytes "header", r.header, regex, r.opts icase]
  | .all => [bytes "all"]

def Handler.line : Handler → List Bytes
  | .child childnm => [bytes "handler", childnm]
  | .reparse => [bytes "reparse"]

def Pattern.body (pat : Pattern ρ) : List (List Bytes) :=
  pat.rules.map (Rule.line source) ++ (pat.headers.reverse.map fun h => [bytes "set", h.1, h.2]) ++
    (pat.restpat.toList.map fun restpat => [bytes "restpat", restpat]) ++
      [[bytes "order", intmax pat.prio], pat.handler.line]

/-- A configuration that is written, from the last stanza on. -/
def Conf.items (cf : Conf ρ) : List Item :=
  cf.children.reverse.map Decl.item ++
    cf.patterns.reverse.map fun pat => .block [bytes "match"] (pat.body source)

end

/-! ## Whatever is read -/

section

variable {regcomp : Bytes → Bool → Option ρ} {null : ρ}

theorem atoi_isInt (s : Bytes) : IsInt (atoi s) := by
  unfold IsInt atoi
  have hle := Int.le_bmod (x := atoo s) (m := 2 ^ 32) (by decide)
  have hlt := Int.bmod_lt (x := atoo s) (m := 2 ^ 32) (by decide)
  omega

/-- What holds of a stanza while it is read. -/
structure Stanza.Sane (regcomp : Bytes → Bool → Option ρ) (null : ρ) (pat : Stanza ρ) : Prop where
  sane : ∀ r ∈ pat.rules, r.Sane regcomp null
  prio : IsInt pat.prio

theorem Stanza.Sane.newrule {pat : Stanza ρ} (h : pat.Sane regcomp null) {r : Rule ρ}
    (hr : r.Sane regcomp null) : (pat.newrule r).Sane regcomp null := by
  refine ⟨fun r' hr' => ?_, h.prio⟩
  rcases List.mem_append.mp hr' with hr' | hr'
  · exact h.sane r' hr'
  · exact List.mem_singleton.mp hr' ▸ hr

theorem textRule_sane {cmd : Bytes} {type : RuleType} (h : textRule cmd = some type) {r : Rule ρ}
    (htype : r.type = type) (hheader : r.header = []) {regex : Bytes} {icase : Bool}
    (hr : regcomp regex icase = some r.pattern) : r.Sane regcomp null := by
  unfold textRule at h
  split_ifs at h <;>
  · cases h
    rw [Rule.Sane, htype]
    exact ⟨hheader, regex, icase, hr⟩

theorem all_sane : ({ type := .all, pattern := null } : Rule ρ).Sane regcomp null := rfl

/-- Nothing else is checked of what is set. -/
theorem Stanza.Sane.set {pat : Stanza ρ} (h : pat.Sane regcomp null)
    (headers : List (Bytes × Bytes)) (restpat : Option Bytes) (handler : Option Handler) :
    Stanza.Sane regcomp null
      { pat with headers := headers, restpat := restpat, handler := handler } :=
  ⟨h.sane, h.prio⟩

theorem Stanza.Sane.inside {pat : Stanza ρ} (h : pat.Sane regcomp null) (w : List Bytes) :
    (pat.inside regcomp null w).Sane regcomp null := by
  fun_cases Stanza.inside regcomp null pat w
  case case2 htype _ _ _ hregex => exact h.newrule (textRule_sane htype rfl rfl hregex)
  case case5 hregex _ => exact h.newrule ⟨rfl, _, _, hregex⟩
  case case8 => exact h.newrule all_sane
  case case9 => exact ⟨(h.newrule all_sane).sane, show IsInt (-10) from ⟨by decide, by decide⟩⟩
  case case10 prio _ => exact ⟨h.sane, atoi_isInt prio⟩
  case case12 => exact h.set _ _ _
  case case14 => exact h.set _ _ _
  case case15 => exact h.set _ _ _
  case case17 => exact h.set _ _ _
  all_goals exact h

theorem Stanza.Sane.closes {pat : Stanza ρ} (h : pat.Sane regcomp null) {pat' : Pattern ρ}
    (hpat : pat.closes = some pat') : pat'.Sane regcomp null := by
  unfold Stanza.closes at hpat
  split_ifs at hpat with hrules
  obtain ⟨handler, -, rfl⟩ := Option.map_eq_some_iff.mp hpat
  exact ⟨hrules, h.sane, h.prio, rfl⟩

/-- What holds of a block while it is read. -/
def Block.Sane (regcomp : Bytes → Bool → Option ρ) (null : ρ) : Block ρ → Prop
  | .child d => ∀ d' ∈ d, d'.argv ≠ some []
  | .pattern pat => pat.Sane regcomp null

theorem reader_keeps :
    (reader regcomp null).Keeps (Conf.Sane regcomp null) (Block.Sane regcomp null) where
  init := ⟨nofun, nofun⟩
  opens w b h := by
    change opens w = some b at h
    unfold opens at h
    split at h
    · rename_i d ho
      cases h
      exact fun d' hd => openchild_argv (ho.trans (congrArg some hd))
    · split_ifs at h
      cases h
      exact ⟨nofun, show IsInt 0 from ⟨by decide, by decide⟩⟩
  inside b w h := by
    cases b with
    | child d =>
      intro d' hd
      obtain ⟨d'', hd'', rfl⟩ := Option.map_eq_some_iff.mp hd
      exact inside_argv d'' w (h d'' hd'')
    | pattern pat => exact Stanza.Sane.inside h w
  closes b cf h hcf := by
    cases b with
    | child d =>
      refine ⟨fun decl hdecl => ?_, hcf.patterns⟩
      rcases List.mem_append.mp hdecl with hdecl | hdecl
      · obtain ⟨d', hd', hclose⟩ := Option.bind_eq_some_iff.mp (Option.mem_toList.mp hdecl)
        exact closes_argv (h d' hd') hclose
      · exact hcf.children decl hdecl
    | pattern pat =>
      refine ⟨hcf.children, fun pat' hpat => ?_⟩
      rcases List.mem_append.mp hpat with hpat | hpat
      · exact Stanza.Sane.closes h (Option.mem_toList.mp hpat)
      · exact hcf.patterns pat' hpat
  outside _ _ h := h

/-- What is read of any file can be used. -/
theorem readconfig_sane (files : Files) (fuel : ℕ) (file text : Bytes) :
    (readconfig regcomp null files fuel file text).Sane regcomp null :=
  readconfig_inv reader_keeps files fuel file text

/-! ## What has been written -/

variable {source : ρ → Bytes × Bool}

/-- The patterns of the rules are compiled of what `source` says. -/
def Compiled (regcomp : Bytes → Bool → Option ρ) (source : ρ → Bytes × Bool) (cf : Conf ρ) : Prop :=
  ∀ pat ∈ cf.patterns, ∀ r ∈ pat.rules, r.type ≠ .all →
    regcomp (source r.pattern).1 (source r.pattern).2 = some r.pattern

theorem option_opts (icase : Bool) (r : Rule ρ) :
    option 105 [r.opts icase] = icase ∧ option 115 [r.opts icase] = r.mss ∧
      option 113 [r.opts icase] = r.unq := by
  unfold option Rule.opts
  cases icase <;> cases r.mss <;> cases r.unq <;> decide

theorem inside_text {cmd regex opts : Bytes} {type : RuleType} {pattern : ρ}
    (htype : textRule cmd = some type)
    (hregex : regcomp regex (option 105 [opts]) = some pattern) (pat : Stanza ρ) :
    pat.inside regcomp null [cmd, regex, opts] =
      pat.newrule
        { type := type
          mss := option 115 [opts]
          unq := option 113 [opts]
          pattern := pattern } := by
  unfold Stanza.inside
  simp only [htype, hregex]

theorem inside_header {header regex opts : Bytes} {pattern : ρ}
    (hregex : regcomp regex (option 105 [opts]) = some pattern) (pat : Stanza ρ) :
    pat.inside regcomp null [bytes "header", header, regex, opts] =
      pat.newrule
        { type := .header, mss := option 115 [opts], header := header, pattern := pattern } := by
  have hnone : textRule (bytes "header") = none := by decide
  unfold Stanza.inside
  simp only [hnone, hregex]
  rw [if_pos trivial]

/-- A rule is read as it has been written. -/
theorem inside_line {r : Rule ρ} (h : r.Sane regcomp null)
    (hr : r.type ≠ .all → regcomp (source r.pattern).1 (source r.pattern).2 = some r.pattern)
    (pat : Stanza ρ) : pat.inside regcomp null (r.line source) = pat.newrule r := by
  obtain ⟨hi, hs, hq⟩ := option_opts (source r.pattern).2 r
  rw [← hi] at hr
  obtain ⟨type, mss, unq, header, pattern⟩ := r
  cases type with
  | rest =>
    obtain ⟨rfl, -⟩ := h
    have htype : textRule (bytes "point") = some .rest := by decide
    exact (inside_text htype (hr nofun) pat).trans (by rw [hs, hq])
  | url =>
    obtain ⟨rfl, -⟩ := h
    have htype : textRule (bytes "url") = some .url := by decide
    exact (inside_text htype (hr nofun) pat).trans (by rw [hs, hq])
  | method =>
    obtain ⟨rfl, -⟩ := h
    have htype : textRule (bytes "method") = some .method := by decide
    exact (inside_text htype (hr nofun) pat).trans (by rw [hs, hq])
  | header =>
    obtain ⟨rfl, -⟩ := h
    exact (inside_header (hr nofun) pat).trans (by rw [hs])
  | all =>
    cases h
    rfl

theorem foldl_rules {rules : List (Rule ρ)} (h : ∀ r ∈ rules, r.Sane regcomp null)
    (hr : ∀ r ∈ rules, r.type ≠ .all →
      regcomp (source r.pattern).1 (source r.pattern).2 = some r.pattern) (pat : Stanza ρ) :
    (rules.map (Rule.line source)).foldl (Stanza.inside regcomp null) pat =
      { pat with rules := pat.rules ++ rules } := by
  induction rules generalizing pat with
  | nil => rw [List.map_nil, List.foldl_nil, List.append_nil]
  | cons r rules ih =>
    rw [List.map_cons, List.foldl_cons, inside_line (h r List.mem_cons_self)
      (hr r List.mem_cons_self), ih (fun r' hr' => h r' (List.mem_cons_of_mem r hr'))
      (fun r' hr' => hr r' (List.mem_cons_of_mem r hr')), Stanza.newrule, List.append_assoc]
    rfl

theorem foldl_headers (headers : List (Bytes × Bytes)) (pat : Stanza ρ) :
    (headers.map fun h => [bytes "set", h.1, h.2]).foldl (Stanza.inside regcomp null) pat =
      { pat with headers := headers.reverse ++ pat.headers } := by
  induction headers generalizing pat with
  | nil => rfl
  | cons e headers ih =>
    have hset : pat.inside regcomp null [bytes "set", e.1, e.2] =
        { pat with headers := e :: pat.headers } := rfl
    rw [List.map_cons, List.foldl_cons, hset, ih, List.reverse_cons, List.append_assoc]
    rfl

theorem foldl_restpat (restpat : Option Bytes) {pat : Stanza ρ} (h : pat.restpat = none) :
    (restpat.toList.map fun restpat => [bytes "restpat", restpat]).foldl
        (Stanza.inside regcomp null) pat = { pat with restpat := restpat } := by
  cases restpat with
  | none =>
    obtain ⟨headers, rules, restpat, handler, prio⟩ := pat
    cases h
    rfl
  | some restpat => rfl

theorem atoi_intmax {n : ℤ} (h : IsInt n) : atoi (intmax n) = n := by
  have hval := numeralValue_numeral (show 1 < 10 by decide) (by decide) n.natAbs
  have hdec := Message.isDecimal_numeral n.natAbs
  have hint : atoo (intmax n) = n := by
    unfold intmax
    split_ifs with hneg
    · have htake := takeWhile_isdigit hdec List.takeWhile_nil
      rw [List.append_nil] at htake
      have hatoo : atoo (45 :: numeral 10 n.natAbs) =
          max (-(numeralValue 10 (numeral 10 n.natAbs) : ℤ)) (-2 ^ 63) :=
        congrArg (fun s => max (-(numeralValue 10 s : ℤ)) (-2 ^ 63)) htake
      rw [hatoo, hval]
      have := h.1
      omega
    · have hatoo := atoo_decimal hdec List.takeWhile_nil
      rw [List.append_nil, hval] at hatoo
      rw [hatoo]
      have := h.2
      omega
  rw [atoi, hint]
  exact Int.bmod_eq_of_le (by have := h.1; omega) (by have := h.2; omega)

/-- A stanza is read as it has been written. -/
theorem pattern_body {pat : Pattern ρ} (h : pat.Sane regcomp null)
    (hr : ∀ r ∈ pat.rules, r.type ≠ .all →
      regcomp (source r.pattern).1 (source r.pattern).2 = some r.pattern) :
    ((pat.body source).foldl (Stanza.inside regcomp null) {}).closes = some pat := by
  have horder : ∀ p : Stanza ρ, p.inside regcomp null [bytes "order", intmax pat.prio] =
      { p with prio := atoi (intmax pat.prio) } := fun _ => rfl
  have hhandler : ∀ p : Stanza ρ, p.inside regcomp null pat.handler.line =
      { p with handler := some pat.handler } := by
    intro p
    cases pat.handler <;> rfl
  rw [Pattern.body, List.foldl_append, List.foldl_append, List.foldl_append,
    foldl_rules h.sane hr, foldl_headers, foldl_restpat _ rfl, List.foldl_cons, List.foldl_cons,
    List.foldl_nil, horder, hhandler, atoi_intmax h.prio, List.reverse_reverse]
  obtain ⟨headers, rules, restpat, handler, prio, disable⟩ := pat
  obtain rfl : disable = false := h.disable
  unfold Stanza.closes
  simp only [List.nil_append, List.append_nil]
  rw [if_neg h.rules]
  rfl

theorem body_legal (pat : Pattern ρ) : ∀ w ∈ pat.body source, w ≠ [] ∧ Legal w := by
  have hrule : ∀ r : Rule ρ, r.line source ≠ [] ∧ Legal (r.line source) := by
    rintro ⟨type, mss, unq, header, pattern⟩
    cases type with
    | rest => exact ⟨nofun, show Legal [bytes "point"] by decide⟩
    | url => exact ⟨nofun, show Legal [bytes "url"] by decide⟩
    | method => exact ⟨nofun, show Legal [bytes "method"] by decide⟩
    | header => exact ⟨nofun, show Legal [bytes "header"] by decide⟩
    | all => exact ⟨nofun, show Legal [bytes "all"] by decide⟩
  intro w hw
  rcases List.mem_append.mp hw with hw | hw
  · rcases List.mem_append.mp hw with hw | hw
    · rcases List.mem_append.mp hw with hw | hw
      · obtain ⟨r, -, rfl⟩ := List.mem_map.mp hw
        exact hrule r
      · obtain ⟨h, -, rfl⟩ := List.mem_map.mp hw
        exact ⟨List.cons_ne_nil _ _, show Legal [bytes "set"] by decide⟩
    · obtain ⟨restpat, -, rfl⟩ := List.mem_map.mp hw
      exact ⟨List.cons_ne_nil _ _, show Legal [bytes "restpat"] by decide⟩
  · rcases List.mem_cons.mp hw with rfl | hw
    · exact ⟨List.cons_ne_nil _ _, show Legal [bytes "order"] by decide⟩
    · rw [List.mem_singleton.mp hw]
      cases pat.handler with
      | child childnm => exact ⟨nofun, show Legal [bytes "handler"] by decide⟩
      | reparse => exact ⟨nofun, show Legal [bytes "reparse"] by decide⟩

theorem opens_head (decl : Decl) :
    opens decl.head =
      some (Block.child (some { type := decl.type, name := decl.name }) : Block ρ) := by
  rw [opens, openchild_head]

theorem items_proper (cf : Conf ρ) : ∀ i ∈ cf.items source, (reader regcomp null).Proper i := by
  intro i hi
  rcases List.mem_append.mp hi with hi | hi
  · obtain ⟨decl, -, rfl⟩ := List.mem_map.mp hi
    have ho : (reader regcomp null).opens decl.head = _ := opens_head decl
    exact ⟨nofun, openchild_ordinary (openchild_head decl), by rw [ho]; rfl, decl_body_legal decl⟩
  · obtain ⟨pat, -, rfl⟩ := List.mem_map.mp hi
    exact ⟨nofun, by decide, rfl, body_legal pat⟩

theorem item_decl {decl : Decl} (h : decl.argv ≠ []) (cf : Conf ρ) :
    (reader regcomp null).item cf decl.item = { cf with children := decl :: cf.children } := by
  have hbody : decl.body.foldl (Block.inside regcomp null)
      (.child (some { type := decl.type, name := decl.name })) =
      .child (some (decl.body.foldl DeclBlock.inside { type := decl.type, name := decl.name })) :=
    List.foldl_hom (fun d => Block.child (some d)) fun _ _ => rfl
  have hitem : (reader regcomp null).item cf decl.item =
      ((opens decl.head).map fun b =>
        (decl.body.foldl (Block.inside regcomp null) b).closes cf).getD cf := rfl
  rw [hitem, opens_head, Option.map_some, Option.getD_some, hbody, Block.closes,
    Option.bind_some, decl_item decl h]
  rfl

theorem item_pattern {pat : Pattern ρ} (h : pat.Sane regcomp null)
    (hr : ∀ r ∈ pat.rules, r.type ≠ .all →
      regcomp (source r.pattern).1 (source r.pattern).2 = some r.pattern) (cf : Conf ρ) :
    (reader regcomp null).item cf (.block [bytes "match"] (pat.body source)) =
      { cf with patterns := pat :: cf.patterns } := by
  have hbody : (pat.body source).foldl (Block.inside regcomp null) (.pattern {}) =
      .pattern ((pat.body source).foldl (Stanza.inside regcomp null) {}) :=
    List.foldl_hom Block.pattern fun _ _ => rfl
  have hitem : (reader regcomp null).item cf (.block [bytes "match"] (pat.body source)) =
      ((pat.body source).foldl (Block.inside regcomp null) (.pattern {})).closes cf := rfl
  rw [hitem, hbody, Block.closes, pattern_body h hr]
  rfl

theorem foldl_decls {decls : List Decl} (h : ∀ decl ∈ decls, decl.argv ≠ []) (cf : Conf ρ) :
    (decls.reverse.map Decl.item).foldl (reader regcomp null).item cf =
      { cf with children := decls ++ cf.children } := by
  induction decls with
  | nil => rfl
  | cons decl decls ih =>
    rw [List.reverse_cons, List.map_append, List.foldl_append,
      ih fun d hd => h d (List.mem_cons_of_mem decl hd)]
    exact item_decl (h decl List.mem_cons_self) _

theorem foldl_patterns {pats : List (Pattern ρ)} (h : ∀ pat ∈ pats, pat.Sane regcomp null)
    (hr : ∀ pat ∈ pats, ∀ r ∈ pat.rules, r.type ≠ .all →
      regcomp (source r.pattern).1 (source r.pattern).2 = some r.pattern) (cf : Conf ρ) :
    (pats.reverse.map fun pat => .block [bytes "match"] (pat.body source)).foldl
      (reader regcomp null).item cf = { cf with patterns := pats ++ cf.patterns } := by
  induction pats with
  | nil => rfl
  | cons pat pats ih =>
    rw [List.reverse_cons, List.map_append, List.foldl_append,
      ih (fun p hp => h p (List.mem_cons_of_mem pat hp))
        fun p hp => hr p (List.mem_cons_of_mem pat hp)]
    exact item_pattern (h pat List.mem_cons_self) (hr pat List.mem_cons_self) _

/-- A configuration is read as it has been written, in whatever way. -/
theorem readconfig_items {cf : Conf ρ} (h : cf.Sane regcomp null)
    (hr : Compiled regcomp source cf) {text : Bytes} (ht : Written (cf.items source) text)
    (files : Files) (fuel : ℕ) (file : Bytes) :
    readconfig regcomp null files (fuel + 1) file text = cf := by
  rw [readconfig, readconfig_written ht (items_proper cf), Conf.items, List.foldl_append,
    foldl_decls h.children, foldl_patterns h.patterns hr]
  obtain ⟨children, patterns⟩ := cf
  simp [reader]

theorem readconfig_roundtrip {cf : Conf ρ} (h : cf.Sane regcomp null)
    (hr : Compiled regcomp source cf) :
    (∀ text, Written (cf.items source) text → ∀ files fuel file,
      readconfig regcomp null files (fuel + 1) file text = cf) ∧
    ((∀ i ∈ cf.items source, i.Printable) →
      Written (cf.items source) (write (cf.items source))) :=
  ⟨fun _ ht => readconfig_items h hr ht, written_write⟩

end

/-- A file that begins with a comment, and has a block that is indented by a tab. -/
theorem readconfig_roundtrip_point :
    readconfig (fun regex icase => if regex.contains 40 then none else some (regex, icase))
      ([], false) Cf.alone 1 (bytes "pat.conf")
      (bytes "# x\nchild a\n  exec \"b c\"\n\n" ++
        bytes "match\n\tpoint \"^d/\" i\n\torder 0\n\thandler a\n") =
      { children := [{ type := .socket, name := bytes "a", argv := [bytes "b c"] }]
        patterns := [
          { rules := [{ type := .rest, pattern := (bytes "^d/", true) }]
            handler := .child (bytes "a") }] } := by
  have htext : bytes "# x\nchild a\n  exec \"b c\"\n\n" ++
      bytes "match\n\tpoint \"^d/\" i\n\torder 0\n\thandler a\n" =
      bytes "# x\n" ++ (bytes "child a\n" ++ ((bytes "  exec \"b c\"\n" ++ (bytes "\n" ++ [])) ++
        (bytes "match\n" ++ ((bytes "\tpoint \"^d/\" i\n" ++ (bytes "\torder 0\n" ++
          (bytes "\thandler a\n" ++ []))) ++ [])))) := by decide +kernel
  refine (@readconfig_roundtrip _ _ _ id _ ⟨?_, ?_⟩ ?_).1 _ ?_ _ 0 _
  · exact List.forall_mem_singleton.mpr (by decide)
  · exact List.forall_mem_singleton.mpr ⟨nofun,
      List.forall_mem_singleton.mpr ⟨rfl, bytes "^d/", true, rfl⟩, ⟨by decide, by decide⟩, rfl⟩
  · exact List.forall_mem_singleton.mpr (List.forall_mem_singleton.mpr fun _ => rfl)
  · rw [htext]
    exact .blank (blank_of (by decide +kernel)) (.block (spelled_of (by decide +kernel))
      (Nat.zero_lt_succ 1) (.cons (spelled_of (by decide +kernel))
        (.blank (blank_of (by decide +kernel)) .nil))
      (.block (spelled_of (by decide +kernel)) (Nat.zero_lt_succ 7)
        (.cons (spelled_of (by decide +kernel)) (.cons (spelled_of (by decide +kernel))
          (.cons (spelled_of (by decide +kernel)) .nil))) .nil))

end Ashd.Patplex
