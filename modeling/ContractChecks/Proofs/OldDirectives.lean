import ContractChecks.Proofs.BracketDepth
import ContractChecks.Proofs.ForeignReads
import ContractChecks.Proofs.TrimmedNames

/-!
# Old directives and their compound texts

An old directive names a variable, its type and an expression.  It is cut at its assignment sign and
written as one compound text, which is cut again at its first slash.  So a slash in the type ends the
declaration too early, while one in the expression does no harm.

* `Quoting.signFree`: no assignment sign outside brackets and literals; `cutAssignFrom_append`: what
  follows such a text is where it is cut;
* `TypeText t`: the types that can be written in a directive; `OldForm.parse_written`: how a directive
  with such a type is read;
* `OldVar.Survives v n t e`: name, declaration and capture of `v` are those of the directive;
* `OldVar.encode n t e`: the compound text; `OldVar.encode_survives_iff`: when it is cut into what it
  was written from;
* `readOldVar_survives_iff`: the same for the variable that a directive adds.
-/

namespace ContractChecks

/-! ### assignment signs -/

/-- no assignment sign outside brackets and literals -/
def Quoting.signFree (st : Quoting) (depth : Int) : Text → Bool
  | [] => true
  | c :: r =>
    !(st = .code && depth = 0 && c = '=') && (st.next c).signFree (st.depthAfter depth c) r

theorem Quoting.signFree_append (st : Quoting) (depth : Int) (s t : Text) :
    st.signFree depth (s ++ t)
      = (st.signFree depth s && (st.after s).signFree (st.depthFrom depth s) t) := by
  induction s generalizing st depth with
  | nil => rfl
  | cons c s ih =>
    rw [List.cons_append, signFree, signFree, ih]
    exact (Bool.and_assoc _ _ _).symm

theorem Quoting.signFree_of_not_mem {st : Quoting} {depth : Int} {s : Text} (h : '=' ∉ s) :
    st.signFree depth s = true := by
  induction s generalizing st depth with
  | nil => rfl
  | cons c s ih =>
    rw [List.mem_cons, not_or] at h
    have hc : ¬c = '=' := fun heq => h.1 heq.symm
    rw [signFree, ih h.2, decide_eq_false hc, Bool.and_false]
    rfl

/-- a character that is part of another operator when an equals sign follows it -/
def joinsSign (c : Char) : Bool := c = '=' || c = '!' || c = '<' || c = '>'

theorem cutAssignFrom_append {st : Quoting} {depth : Int} {last : Option Char} {s rest : Text}
    (hfree : st.signFree depth s = true) (hcode : st.after s = .code)
    (hdepth : st.depthFrom depth s = 0) (hlast : (s.getLast?.or last).any joinsSign = false)
    (hrest : rest.head? ≠ some '=') :
    cutAssignFrom st depth last (s ++ '=' :: rest) = some (s, rest) := by
  induction s generalizing st depth last with
  | nil =>
    obtain rfl : st = .code := hcode
    obtain rfl : depth = 0 := hdepth
    have hjoin : (last.any fun p => p = '=' || p = '!' || p = '<' || p = '>') = false := hlast
    cases rest with
    | nil => simp [cutAssignFrom, hjoin]
    | cons d r =>
      have hd : ¬d = '=' := fun heq => hrest (congrArg some heq)
      simp [cutAssignFrom, hjoin, hd]
  | cons c s ih =>
    rw [Quoting.signFree, Bool.and_eq_true, Bool.not_eq_true'] at hfree
    have hmove : (c :: s).getLast?.or last = s.getLast?.or (some c) := by
      rw [List.getLast?_cons]
      cases s.getLast? <;> rfl
    rw [hmove] at hlast
    have hcut := ih hfree.2 hcode hdepth hlast
    -- the text that is left is not empty, so the sign before it is looked at
    obtain ⟨d, r, hdr⟩ : ∃ d r, s ++ '=' :: rest = d :: r := by
      cases s with
      | nil => exact ⟨'=', rest, rfl⟩
      | cons d s => exact ⟨d, s ++ '=' :: rest, rfl⟩
    rw [List.cons_append, hdr, cutAssignFrom, hfree.1, if_neg (by decide), ← hdr, hcut]
    rfl

/-! ### how a directive is read -/

/-- a type as it can be written in a directive -/
structure TypeText (t : Text) : Prop where
  ne_nil : t ≠ []
  trimmed : t.trim = t
  closed : LiteralsClosed t
  depth : bracketDepth t = 0
  signFree : Quoting.code.signFree 0 t = true

theorem TypeText.solid {t : Text} (h : TypeText t) : Solid t := by
  have hne : t.trim ≠ [] := h.trimmed.symm ▸ h.ne_nil
  exact h.trimmed ▸ solid_trim hne

instance (t : Text) : Decidable (TypeText t) :=
  decidable_of_iff
    (t ≠ [] ∧ t.trim = t ∧ LiteralsClosed t ∧ bracketDepth t = 0 ∧ Quoting.code.signFree 0 t = true)
    ⟨fun ⟨hne, htrim, hclosed, hdepth, hfree⟩ => ⟨hne, htrim, hclosed, hdepth, hfree⟩,
      fun h => ⟨h.ne_nil, h.trimmed, h.closed, h.depth, h.signFree⟩⟩

/-- the text does not begin with a blank -/
def SolidHead (n : Text) : Prop := ∀ a ∈ n.head?, isBlank a = false

theorem solid_between {n t : Text} (hn : isName n = true) (hhead : SolidHead n) (gap : Text)
    (ht : Solid t) : Solid (n ++ (gap ++ t)) where
  head := by
    cases n with
    | nil => cases hn
    | cons c r => exact ⟨c, r ++ (gap ++ t), rfl, hhead c rfl⟩
  last := by
    obtain ⟨r, c, rfl, hc⟩ := ht.last
    exact ⟨n ++ (gap ++ r), c, by simp only [List.append_assoc], hc⟩

theorem not_mem_of_isName {n : Text} {c : Char} (hn : isName n = true)
    (hc : isNamePart c = false) : c ∉ n := by
  intro hmem
  rw [isNamePart_of_isName hn c hmem] at hc
  cases hc

/-- a name and a type, up to the sign that follows them -/
theorem cutAssignFrom_written {n t : Text} (hn : isName n = true) (ht : TypeText t) (rest : Text)
    (hrest : rest.head? ≠ some '=') :
    cutAssignFrom .code 0 none (n ++ [' '] ++ t ++ [' '] ++ '=' :: rest)
      = some (n ++ [' '] ++ t ++ [' '], rest) := by
  have hname : WellNested (n ++ [' ']) := (wellNested_of_isName hn).append (wellNested_of_all rfl)
  have hcode : Quoting.code.after (n ++ [' '] ++ t) = .code := hname.closed.append ht.closed
  have hdepth : Quoting.code.depthFrom 0 (n ++ [' '] ++ t) = 0 := by
    show bracketDepth _ = 0
    rw [bracketDepth_append hname.closed, hname.ends, ht.depth]
    rfl
  have hfirst : Quoting.code.signFree 0 (n ++ [' ']) = true := by
    refine Quoting.signFree_of_not_mem ?_
    rw [List.mem_append, not_or]
    exact ⟨not_mem_of_isName hn (by decide), by decide⟩
  refine cutAssignFrom_append ?_ ?_ ?_ ?_ hrest
  · have hends : Quoting.code.depthFrom 0 (n ++ [' ']) = 0 := hname.ends
    have hclosed : Quoting.code.after (n ++ [' ']) = .code := hname.closed
    rw [Quoting.signFree_append, Quoting.signFree_append, hfirst, hends, hclosed, ht.signFree,
      hcode, hdepth]
    rfl
  · rw [Quoting.after_append, hcode]
    rfl
  · rw [Quoting.depthFrom_append, hcode, hdepth]
    rfl
  · rw [List.getLast?_concat]
    rfl

theorem assignment?_written {n t : Text} (hn : isName n = true) (ht : TypeText t) (e : Text) :
    assignment? (n ++ " " ++ t ++ " = " ++ e) = some ((n ++ ' ' :: t).trim, e.trim) := by
  have hspace : isBlank ' ' = true := by decide
  have htext : n ++ " " ++ t ++ " = " ++ e = n ++ [' '] ++ t ++ [' '] ++ '=' :: ' ' :: e := by
    simp
  have hcolon : Text.dropEnd ":" (n ++ [' '] ++ t ++ [' ']) = n ++ [' '] ++ t ++ [' '] := by
    refine if_neg fun hend => ?_
    obtain ⟨u, hu⟩ := List.isSuffixOf_iff_suffix.1 hend
    have hlast := congrArg List.getLast? hu
    rw [List.getLast?_concat, List.getLast?_append] at hlast
    cases hlast
  rw [htext, assignment?, cutAssignFrom_written hn ht _ (by simp), Option.map_some, hcolon,
    trim_append_blank hspace, trim_cons_blank hspace, List.append_assoc]
  rfl

theorem trim_written {n t : Text} (hn : isName n = true) (hhead : SolidHead n) (ht : Solid t) :
    (n ++ ' ' :: t).trim = n ++ ' ' :: t :=
  (solid_between hn hhead [' '] ht).trim_eq

theorem leadingName_written {n : Text} (hn : isName n = true) (t : Text) :
    leadingName (n ++ ' ' :: t) = n :=
  leadingName_append [] (by simp) hn (endsName_space t)

/-- the expression is the one that was written, and so are name and type, unless the name begins with
a blank -/
theorem OldForm.parse_written {n t e : Text} {old : OldForm} (hn : isName n = true)
    (ht : TypeText t) (h : OldForm.parse (n ++ " " ++ t ++ " = " ++ e) = .ok old) :
    old.expr = e.trim ∧ (SolidHead n → old.name = n ∧ old.type = t) := by
  unfold OldForm.parse assignmentSides at h
  rw [assignment?_written hn ht] at h
  simp only [Option.getD_some] at h
  split at h
  case isTrue => cases h
  case isFalse =>
    split at h
    case isTrue => cases h
    case isFalse =>
      cases h
      refine ⟨rfl, fun hhead => ?_⟩
      show leadingName (n ++ ' ' :: t).trim = n ∧
        Text.trim ((n ++ ' ' :: t).trim.drop (leadingName (n ++ ' ' :: t).trim).length) = t
      rw [trim_written hn hhead ht.solid, leadingName_written hn, List.drop_left,
        trim_cons_blank (by decide), ht.trimmed]
      exact ⟨rfl, rfl⟩

/-! ### how its compound text is cut -/

/-- name, declaration and capture are those of a directive -/
structure OldVar.Survives (v : OldVar) (n t e : Text) : Prop where
  name : v.name = n
  decl : v.decl = "var " ++ n ++ " " ++ t
  capture : v.capture = n ++ " = " ++ e

theorem solidHead_leadingName (s : Text) : SolidHead (leadingName s.trim) := by
  intro a ha
  by_cases hne : s.trim = []
  · rw [hne] at ha
    cases ha
  · obtain ⟨c, r, hs, hc⟩ := (solid_trim hne).head
    have hlayout : isLayout c = false := by
      cases hlayout : isLayout c with
      | false => rfl
      | true =>
        rw [isBlank_of_isLayout hlayout] at hc
        cases hc
    rw [hs] at ha
    unfold leadingName at ha
    rw [List.dropWhile_cons, hlayout] at ha
    by_cases hstart : isNameStart c = true
    · simp only [Bool.false_eq_true, if_false, hstart, if_true] at ha
      cases ha
      exact hc
    · simp only [Bool.false_eq_true, if_false, hstart] at ha
      cases ha

theorem OldVar.slash_not_mem_decl (v : OldVar) : '/' ∉ v.decl := by
  unfold decl
  split
  case isTrue => exact v.slash_not_mem_split
  case isFalse =>
    rw [List.mem_append, not_or]
    exact ⟨by decide, v.slash_not_mem_split⟩
section encoded

variable {n t e : Text} (hn : isName n = true) (hhead : SolidHead n) (ht : Solid t)
include hn hhead ht

theorem OldVar.encode_split (hslash : '/' ∉ t) :
    (OldVar.encode n t e).split = (n ++ ' ' :: t, (n ++ " = " ++ e).trim) := by
  have htext : (OldVar.encode n t e).text = (n ++ ' ' :: t) ++ '/' :: (n ++ " = " ++ e) := by
    simp [OldVar.encode]
  have hfree : '/' ∉ n ++ ' ' :: t := by
    rw [List.mem_append, List.mem_cons, not_or, not_or]
    exact ⟨not_mem_of_isName hn (by decide), by decide, hslash⟩
  unfold OldVar.split
  rw [htext, cut?_append_slash hfree]
  exact congrArg (·, (n ++ " = " ++ e).trim) (trim_written hn hhead ht)

theorem OldVar.encode_survives (hne : n ≠ varWord) (hslash : '/' ∉ t) (he : Solid e) :
    (OldVar.encode n t e).Survives n t e := by
  have hsplit := OldVar.encode_split (e := e) hn hhead ht hslash
  have hvar : ¬Text.startsWith (n ++ ' ' :: t) "var " = true :=
    not_startsWith_var hn hne (endsName_space t)
  refine ⟨?_, ?_, ?_⟩
  · unfold OldVar.name dropVar Text.dropStart
    rw [hsplit, if_neg hvar, trim_written hn hhead ht, leadingName_written hn]
  · unfold OldVar.decl
    rw [hsplit, if_neg hvar]
    simp
  · unfold OldVar.capture
    rw [hsplit, List.append_assoc]
    exact (solid_between hn hhead " = " he).trim_eq

theorem OldVar.encode_survives_iff (he : e.trim = e) :
    (OldVar.encode n t e).Survives n t e ↔ n ≠ varWord ∧ '/' ∉ t ∧ e ≠ [] := by
  constructor
  · intro h
    have hslash : '/' ∉ t := by
      intro hmem
      refine (OldVar.encode n t e).slash_not_mem_decl ?_
      rw [h.decl]
      exact List.mem_append_right _ hmem
    have hsplit := OldVar.encode_split (e := e) hn hhead ht hslash
    refine ⟨?_, hslash, ?_⟩
    · -- a variable of this name takes its own name for the word of a declaration
      rintro rfl
      have hdecl : (OldVar.encode varWord t e).decl = varWord ++ ' ' :: t := by
        unfold OldVar.decl
        rw [hsplit]
        exact if_pos rfl
      have hlen := congrArg List.length (hdecl.symm.trans h.decl)
      simp [varWord] at hlen
    · rintro rfl
      have hcapture : (OldVar.encode n t []).capture = (n ++ " =").trim := by
        unfold OldVar.capture
        rw [hsplit, ← trim_append_blank (c := ' ') (by decide) (n ++ " =")]
        simp
      have hlen := Text.length_trim_le (n ++ " =")
      rw [← hcapture, h.capture] at hlen
      simp at hlen
  · rintro ⟨hne, hslash, hnil⟩
    exact OldVar.encode_survives hn hhead ht hne hslash (he ▸ solid_trim (he.symm ▸ hnil))

end encoded

/-! ### the variable that a directive adds -/

theorem Scope.trim_preText {sc : Scope} {s expr : Text} (h : sc.preText s = .ok expr) :
    expr.trim = expr := by
  unfold preText at h
  obtain ⟨parts, -, h⟩ := except_bind_eq_ok h
  cases h
  by_cases hne : (Text.concat parts).trim = []
  · rw [hne]
    rfl
  · exact (solid_trim hne).trim_eq

theorem Scope.oldVarOf_eq_ok {sc : Scope} {text : Text} {v : OldVar}
    (h : sc.oldVarOf text = .ok v) :
    ∃ old expr type, OldForm.parse text = .ok old ∧ sc.preText old.expr = .ok expr ∧
      sc.oldVarType old expr = .ok type ∧ v = OldVar.encode old.name type expr := by
  unfold oldVarOf at h
  obtain ⟨old, hold, h⟩ := except_bind_eq_ok h
  obtain ⟨expr, hexpr, h⟩ := except_bind_eq_ok h
  obtain ⟨type, htype, h⟩ := except_bind_eq_ok h
  cases h
  exact ⟨old, expr, type, hold, hexpr, htype, rfl⟩

theorem Scope.run_readOldVar (sc : Scope) {text : Text} {v : OldVar} (index : Int) (c : Captures)
    (h : sc.oldVarOf text = .ok v) :
    (sc.readOldVar index text).run c
      = .ok () { c with oldVars := c.oldVars.append index [v] } := by
  obtain ⟨old, expr, type, hold, hexpr, htype, rfl⟩ := oldVarOf_eq_ok h
  unfold readOldVar
  simp only [hold, hexpr, htype, ReadM.ofExcept, pure_bind]
  rfl

theorem Scope.oldVarOf_written {sc : Scope} {n t e : Text} {v : OldVar} (hn : isName n = true)
    (ht : TypeText t) (h : sc.oldVarOf (n ++ " " ++ t ++ " = " ++ e) = .ok v) :
    ∃ expr, sc.preText e.trim = .ok expr ∧ (SolidHead n → v = OldVar.encode n t expr) := by
  obtain ⟨old, expr, type, hold, hexpr, htype, rfl⟩ := oldVarOf_eq_ok h
  obtain ⟨hwritten, hkept⟩ := OldForm.parse_written hn ht hold
  refine ⟨expr, hwritten ▸ hexpr, fun hhead => ?_⟩
  obtain ⟨hname, htyped⟩ := hkept hhead
  unfold oldVarType at htype
  rw [htyped, if_neg ht.ne_nil] at htype
  cases htype
  rw [hname]

/-- **When an old directive survives.**  A directive that gives a type adds one variable.  Its compound
text is cut into what was written if and only if the name does not begin with a blank and is not the word
of a declaration, the type has no slash, and something is left of the expression. -/
theorem readOldVar_survives_iff {sc : Scope} {index : Int} {n t e : Text} {c c' : Captures}
    (hn : isName n = true) (ht : TypeText t)
    (h : (sc.readOldVar index (n ++ " " ++ t ++ " = " ++ e)).run c = .ok () c') :
    ∃ v expr, c' = { c with oldVars := c.oldVars.append index [v] } ∧
      sc.preText e.trim = .ok expr ∧
      (v.Survives n t expr ↔ SolidHead n ∧ n ≠ varWord ∧ '/' ∉ t ∧ expr ≠ []) := by
  obtain ⟨v, hv, rfl⟩ := Scope.readOldVar_eq_ok h
  obtain ⟨expr, hexpr, hkept⟩ := Scope.oldVarOf_written hn ht hv
  refine ⟨v, expr, rfl, hexpr, ?_⟩
  have htrim := Scope.trim_preText hexpr
  constructor
  · intro hs
    have hhead : SolidHead n := hs.name ▸ solidHead_leadingName _
    rw [hkept hhead] at hs
    exact ⟨hhead, (OldVar.encode_survives_iff hn hhead ht.solid htrim).1 hs⟩
  · rintro ⟨hhead, hrest⟩
    rw [hkept hhead]
    exact (OldVar.encode_survives_iff hn hhead ht.solid htrim).2 hrest

/-- a method with the receiver `s` -/
def meterScope : Scope where
  this := "s"
  eval := .ofFacts []

/-- a type with equals signs in its brackets and in a literal -/
def rateType : Text := "struct\x7b kB [1 == 1]int; note string \x22unit=kB\x22 \x7d"

theorem readOldVar_survives_rate : ∃ v,
    (meterScope.readOldVar 0
      ("rate" ++ " " ++ rateType ++ " = " ++ "\\this.total / \\this.span")).run {}
      = .ok () { oldVars := CaseTable.append {} 0 [v] } ∧
    v.Survives "rate" rateType "s.total / s.span" := by
  have htype : TypeText rateType := by decide +kernel
  have hrun := meterScope.run_readOldVar 0 {}
    (show meterScope.oldVarOf
        ("rate" ++ " " ++ rateType ++ " = " ++ "\\this.total / \\this.span")
      = .ok (OldVar.encode "rate" rateType "s.total / s.span") by decide +kernel)
  obtain ⟨v, expr, hc, hexpr, hiff⟩ := readOldVar_survives_iff (by decide +kernel) htype hrun
  have hpre : meterScope.preText (Text.trim "\\this.total / \\this.span")
      = .ok "s.total / s.span" := by decide +kernel
  obtain rfl := Except.ok.inj (hexpr.symm.trans hpre)
  refine ⟨v, hrun.trans (congrArg _ hc), hiff.2 ⟨?_, by decide, by decide +kernel, by decide⟩⟩
  rintro a ⟨⟩
  decide

/-- A slash in the type ends the declaration, and the rest of the type goes to the capture. -/
theorem not_survives_half : TypeText "[4/2]int" ∧
    (meterScope.readOldVar 0 ("half" ++ " " ++ "[4/2]int" ++ " = " ++ "\\this.xs")).run {}
      = .ok () { oldVars := CaseTable.append {} 0 [OldVar.encode "half" "[4/2]int" "s.xs"] } ∧
    (OldVar.encode "half" "[4/2]int" "s.xs").decl = "var half [4" ∧
    (OldVar.encode "half" "[4/2]int" "s.xs").capture = "2]int/half = s.xs" :=
  ⟨by decide +kernel, meterScope.run_readOldVar 0 {} (by decide +kernel), by decide +kernel,
    by decide +kernel⟩

end ContractChecks
