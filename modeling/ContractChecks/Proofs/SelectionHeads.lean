import ContractChecks.Proofs.SignalVariables

/-!
# The head of a selection

A selection is emitted as a block.  Its head binds the selected signal to the variable of the clause,
and a second name to whether there is one.  That name is always `ok`, so a body that reads an `ok` of
its surroundings gets the one of the head.

* `headNames src`: the names that the head of a block binds; `headNames_select`;
* `Stmt.CapturesNothing style s`: the head of `s` binds no name that the body reads, except for the
  variable of `s`;
* `mem_rename_object`, `SelectedBy.not_reads`: where the names of a body come from;
* `selections_captureNothing_iff`: nothing is captured exactly if no body reads `ok`, unless that is
  its variable.
-/

namespace ContractChecks

/-! ### the names of a head -/

/-- the name that is bound to whether there is a signal of the type -/
def foundName : Text := "ok"

def isBinding (n : Text) : Bool := n != "_"

/-- the names that the head of a block binds: those between its keyword and the first assignment
sign -/
def headNames (src : Text) : List Text :=
  match Text.cut? ":=" src with
  | some p => (words p.1).tail.filter isBinding
  | none => []

theorem cut?_append_sep {c : Char} {sep a : Text} (h : c ∉ a) (b : Text) :
    Text.cut? (c :: sep) (a ++ ((c :: sep) ++ b)) = some (a, b) := by
  induction a with
  | nil =>
    have hfirst : (c :: sep).isPrefixOf (c :: (sep ++ b)) = true :=
      List.isPrefixOf_iff_prefix.2 (List.prefix_append (c :: sep) b)
    show Text.cut? (c :: sep) (c :: (sep ++ b)) = _
    rw [Text.cut?, if_pos hfirst, ← List.cons_append, List.drop_left]
  | cons d a ih =>
    rw [List.mem_cons, not_or] at h
    have hfirst : (c :: sep).isPrefixOf (d :: (a ++ ((c :: sep) ++ b))) = false := by
      rw [List.isPrefixOf_cons_cons, beq_eq_false_iff_ne.2 h.1, Bool.false_and]
    rw [List.cons_append, Text.cut?, hfirst, ih h.2]
    rfl

def headVar (a : Action) : Text := if a.var = [] then "_" else a.var

theorem select_eq (style : CodeStyle) (a : Action) (body : Text) :
    ∃ more, bracedSource (selectSource style a) body
      = ("if" ++ ' ' :: (headVar a ++ ", ok ")) ++ (":=" ++ more) := by
  refine ⟨" " ++ (style.support "As" ++ ("[" ++ (a.type ++ ("](" ++ (caughtVar ++ ("); ok"
    ++ (" \x7b\n" ++ (body ++ "\x7d")))))))), ?_⟩
  show ("if " : Text) ++ headVar a ++ ", ok := " ++ style.support "As" ++ "[" ++ a.type ++ "]("
    ++ caughtVar ++ "); ok" ++ " \x7b\n" ++ body ++ "\x7d" = _
  simp only [List.append_assoc, List.cons_append]
  rfl

theorem headNames_select {a : Action} (ha : a.var = [] ∨ ∃ s, a.var ∈ words s) (style : CodeStyle)
    (body : Text) :
    headNames (bracedSource (selectSource style a) body)
      = [headVar a, foundName].filter isBinding := by
  have hword : isName (headVar a) = true ∨ ∃ n, headVar a = '\\' :: n ∧ isName n = true := by
    unfold headVar
    split
    · exact .inl (by decide)
    · rename_i hne
      obtain ⟨s, hs⟩ := ha.resolve_left hne
      exact mem_words_cases hs
  have hparts : ∀ c ∈ headVar a, c ≠ ':' := by
    have hname : ∀ {n}, isName n = true → ∀ c ∈ n, c ≠ ':' := by
      rintro n hn c hc rfl
      have hpart := isNamePart_of_isName hn _ hc
      revert hpart
      decide
    rcases hword with hn | ⟨n, heq, hn⟩
    · exact hname hn
    · rw [heq]
      exact List.forall_mem_cons.2 ⟨by decide, hname hn⟩
  have hsign : ':' ∉ ("if" : Text) ++ ' ' :: (headVar a ++ ", ok ") := by
    intro hmem
    simp only [List.mem_append, List.mem_cons] at hmem
    rcases hmem with hmem | hmem | hmem | hmem
    · revert hmem
      decide
    · revert hmem
      decide
    · exact hparts _ hmem rfl
    · revert hmem
      decide
  have hends : EndsName (", ok " : Text) := by
    intro c hc
    cases hc
    decide
  have hspace : ∀ s : Text, words (' ' :: s) = words s := fun s =>
    words_marks_append (m := [' ']) (List.all_eq_true.1 (by decide)) s
  have hlast : words ", ok " = [foundName] := by
    show words ((", " : Text) ++ (foundName ++ ' ' :: [])) = _
    rw [words_marks_append (List.all_eq_true.1 (by decide)),
      words_word_append (.inl (by decide)) (endsName_space _), hspace, words_nil]
  obtain ⟨more, hmore⟩ := select_eq style a body
  have hcut : Text.cut? ":=" (("if" ++ ' ' :: (headVar a ++ ", ok ")) ++ (":=" ++ more))
      = some ("if" ++ ' ' :: (headVar a ++ ", ok "), more) := cut?_append_sep hsign more
  rw [headNames, hmore, hcut]
  show (words (("if" : Text) ++ ' ' :: (headVar a ++ ", ok "))).tail.filter _ = _
  rw [words_word_append (.inl (by decide)) (endsName_space _), hspace,
    words_word_append hword hends, hlast]
  rfl

/-! ### what a head captures -/

/-- the selection is emitted, and its head binds no name that its body reads, except for its
variable -/
structure Stmt.CapturesNothing (style : CodeStyle) (s : Stmt) : Prop where
  emitted : ∃ src, s.source style = .ok src
  free : ∀ src, s.source style = .ok src → ∀ n ∈ headNames src, n ≠ s.action.var → n ∉ s.bodyReads

theorem source_signalStmt (style : CodeStyle) (signal : ViolationKind) (p : SignalPiece) :
    ∃ b, (signalStmt signal p).source style
      = .ok (bracedSource (selectSource style (signalStmt signal p).action) b) := by
  have hknown : ∀ a ∈ flatten (signalStmt signal p).body, a.kind.isKnown := by
    intro a ha
    have hkinds : ∀ k ∈ [StmtKind.support, StmtKind.checkCause], k.isKnown := by decide
    exact hkinds _ ((leaves_signalStmt signal p).actionsIn a ha).2
  have hblock := blockSource_eq style _ hknown
  refine ⟨commandsSource style (stmtCommands (signalStmt signal p).body), ?_⟩
  show (blockSource style (signalStmt signal p).body >>= fun b =>
    .ok (bracedSource (selectSource style (signalStmt signal p).action) b)) = _
  rw [hblock]
  rfl

theorem SelectedBy.var_cases {f : Renaming} {signal : ViolationKind} {e : Int × Signals} {s : Stmt}
    (h : SelectedBy f signal e s) : s.action.var = [] ∨ ∃ t, s.action.var ∈ words t := by
  obtain ⟨p, rfl, -, hvar⟩ := h
  show p.var = [] ∨ ∃ t, p.var ∈ words t
  rw [hvar]
  split
  · rename_i hreads
    exact .inr ⟨_, references_iff.1 hreads⟩
  · exact .inl rfl

theorem SelectedBy.capturesNothing_iff {f : Renaming} {signal : ViolationKind} {e : Int × Signals}
    {s : Stmt} (h : SelectedBy f signal e s) (style : CodeStyle) :
    s.CapturesNothing style ↔ (foundName ∈ s.bodyReads → s.action.var = foundName) := by
  have hvar := h.var_cases
  obtain ⟨p, rfl, -⟩ := h
  obtain ⟨b, hsource⟩ := source_signalStmt style signal p
  generalize signalStmt signal p = s at hvar hsource
  have hnames := headNames_select hvar style b
  constructor
  · intro hnothing hread
    have hfree := hnothing.free _ hsource
    rw [hnames] at hfree
    by_contra hne
    exact hfree foundName (by simp [List.mem_filter]; decide) (Ne.symm hne) hread
  · intro hown
    refine ⟨⟨_, hsource⟩, fun src hsrc n hn hne hread => ?_⟩
    obtain rfl := Except.ok.inj (hsource.symm.trans hsrc)
    rw [hnames, List.mem_filter, List.mem_cons, List.mem_singleton] at hn
    obtain ⟨rfl | rfl, hbinding⟩ := hn
    · -- the variable of a head is the blank or that of the selection
      unfold headVar at hne hbinding
      split at hbinding
      · revert hbinding
        decide
      · rename_i hvar
        rw [if_neg hvar] at hne
        exact hne rfl
    · exact hne (hown hread).symm

/-! ### where the names of a body come from -/

theorem named_objectOrNone {f : Renaming} (hf : f = [] ∨ f = objectRenaming) : f.Named := by
  rcases hf with rfl | rfl
  · intro a x h
    cases h
  · exact named_objectRenaming

theorem avoids_rename_object {f : Renaming} (hf : f = [] ∨ f = objectRenaming) {s : Text}
    (h : Avoids foundName s) : Avoids foundName (rename f s) := by
  rcases hf with rfl | rfl
  · rw [rename_nil_left]
    exact h
  · rw [Avoids, namesIn_rename named_objectRenaming]
    intro w hw
    obtain ⟨a, ha, rfl⟩ := List.mem_map.1 hw
    rw [image_objectRenaming]
    split
    · decide
    · exact h a ha

theorem mem_rename_object {f : Renaming} (hf : f = [] ∨ f = objectRenaming) (s : Text) :
    foundName ∈ namesIn (rename f s) ↔ foundName ∈ namesIn s := by
  rcases hf with rfl | rfl
  · rw [rename_nil_left]
  · rw [namesIn_rename named_objectRenaming, List.mem_map]
    constructor
    · rintro ⟨a, ha, himage⟩
      rw [image_objectRenaming] at himage
      split at himage
      · exact absurd himage (by decide)
      · exact himage ▸ ha
    · intro hmem
      exact ⟨foundName, hmem, by rw [image_objectRenaming]; decide⟩

theorem foreign_foundName : Foreign foundName := ⟨by decide, by decide⟩

section
variable {f : Renaming} {signal : ViolationKind} {e : Int × Signals} {s : Stmt}

/-- a predicate without the name gives a body that does not read it -/
theorem SelectedBy.not_reads (h : SelectedBy f signal e s) (hf : f = [] ∨ f = objectRenaming)
    (hpred : Avoids foundName e.2.pred) : foundName ∉ s.bodyReads := by
  obtain ⟨p, rfl, hexpanded, -⟩ := h
  have hreads := Expanded.not_reads foreign_foundName (by decide) (by decide) hexpanded
    (avoids_rename_object hf hpred)
  have htexts : (signalStmt signal p).bodyTexts = checkReads p.check.piece :=
    stmtTexts_piece .exceptionalPath p.check.piece rfl
  intro hmem
  obtain ⟨u, hu, hmem⟩ := List.mem_flatMap.1 hmem
  rw [htexts] at hu
  exact hreads u hu hmem

/-- without a quantifier, the body reads the names of the renamed predicate -/
theorem SelectedBy.plain (h : SelectedBy f signal e s) (hf : f = [] ∨ f = objectRenaming)
    (hpred : containsQuantifier e.2.pred = false) :
    s.bodyReads = namesIn (rename f e.2.pred) ∧
      s.BindsAsFound e.2.var (rename f e.2.pred) [] := by
  obtain ⟨check, closures, hfound, -⟩ := h.declaresName
  obtain ⟨p, rfl, hexpanded, -⟩ := h
  have htexts : (signalStmt signal p).bodyTexts = checkReads p.check.piece :=
    stmtTexts_piece .exceptionalPath p.check.piece rfl
  rw [hexpanded.plain (named_objectOrNone hf) hpred] at htexts
  have hsplit : closures ++ [check] = [] ++ [rename f e.2.pred] := hfound.texts.symm.trans htexts
  obtain ⟨rfl, hcheck⟩ := List.append_inj' hsplit rfl
  obtain rfl := List.singleton_inj.1 hcheck
  refine ⟨?_, hfound⟩
  rw [Stmt.bodyReads, htexts]
  exact List.flatMap_singleton ..

theorem SelectedBy.capturesNothing_plain (h : SelectedBy f signal e s)
    (hf : f = [] ∨ f = objectRenaming) (hpred : containsQuantifier e.2.pred = false)
    (style : CodeStyle) :
    s.CapturesNothing style ↔ (foundName ∈ namesIn e.2.pred → e.2.var = foundName) := by
  obtain ⟨hreads, hfound⟩ := h.plain hf hpred
  rw [h.capturesNothing_iff, hreads, mem_rename_object hf]
  refine forall_congr' fun hread => ?_
  constructor
  · intro hvar
    by_cases hmem : e.2.var ∈ scannedWords (rename f e.2.pred) []
    · exact (hfound.found hmem).symm.trans hvar
    · cases (hfound.missed hmem).symm.trans hvar
  · intro hvar
    refine (hfound.found ?_).trans hvar
    rw [hvar]
    exact mem_words_of_mem_namesIn ((mem_rename_object hf _).2 hread)

end

/-- **The head of a selection captures nothing exactly if its body does not read `ok`,** unless that
is the variable of the selection.  A body whose predicate does not have the name does not read it, and
without quantifiers the body reads it exactly if the predicate does. -/
theorem selections_captureNothing_iff {c : Contract} {mode : Mode} {oracle : Oracle} {w : Wrapper}
    (h : synthesize c mode oracle = .ok w) (hx : c.xpostCode = []) (style : CodeStyle) :
    List.Forall₂ (fun e s =>
        (s.CapturesNothing style ↔ (foundName ∈ s.bodyReads → s.action.var = foundName)) ∧
        (Avoids foundName e.2.pred → s.CapturesNothing style) ∧
        (containsQuantifier e.2.pred = false →
          (s.CapturesNothing style ↔ (foundName ∈ namesIn e.2.pred → e.2.var = foundName))))
      (checkedSignals c) (selectionsIn w.stmts) := by
  obtain ⟨f, signal, hf, hselected⟩ := synthesize_selections h hx
  refine hselected.imp fun e s hs => ⟨hs.capturesNothing_iff style, fun hpred => ?_,
    fun hpred => hs.capturesNothing_plain hf hpred style⟩
  exact (hs.capturesNothing_iff style).2 fun hread => absurd hread (hs.not_reads hf hpred)

/-- a method with a parameter of the name that heads bind -/
def pourContract (pred : Text) : Contract where
  method := {
    name := "Pour", owner := "Jug", receiver := "j", params := [⟨"ok", "bool", false⟩]
    visibility := .of .pub }
  pre := .set .empty 0 "true"
  xpost := .set .empty 0 [⟨"*DryError", "e", pred⟩]

def signedPredicate : Text := "(\\exists k := range j.ok; k == e)"

theorem selections_captureNothing_pour :
    ∃ w, synthesize (pourContract signedPredicate) .direct (.scanning []) = .ok w ∧
      (pourContract signedPredicate).xpostCode = [] ∧ Avoids foundName signedPredicate ∧
      ∃ s, selectionsIn w.stmts = [s] ∧ s.CapturesNothing {} := by
  have havoids : Avoids foundName signedPredicate := by decide +kernel
  have hclauses : checkedSignals (pourContract signedPredicate)
      = [(0, ⟨"*DryError", "e", signedPredicate⟩)] := by decide +kernel
  obtain ⟨w, h, -⟩ := exists_eq_ok (p := fun _ => true)
    (show (synthesize (pourContract signedPredicate) .direct (.scanning [])).toOption.any _ = true by
      -- the kernel is slow in reading the characters of a literal, so they are put in its place
      unfold pourContract signedPredicate
      repeat rw [String.toList_ofList]
      decide +kernel)
  have hfree := selections_captureNothing_iff h rfl {}
  rw [hclauses] at hfree
  generalize hss : selectionsIn w.stmts = ss at hfree
  obtain _ | @⟨_, s, _, _, hone, _ | _⟩ := hfree
  exact ⟨w, h, rfl, havoids, s, hss, hone.2.1 havoids⟩

/-- the check of a parameter `ok` is made about the signal instead -/
theorem not_capturesNothing_pour :
    ∃ w, synthesize (pourContract "ok == e.Last") .direct (.scanning []) = .ok w ∧
      ∃ s ∈ selectionsIn w.stmts, ∃ src, s.source {} = .ok src ∧ foundName ∈ headNames src ∧
        foundName ∈ s.bodyReads ∧ s.action.var = "e".toList := by
  have hcaptured : ((synthesize (pourContract "ok == e.Last") .direct (.scanning [])).toOption.any
      fun w => (selectionsIn w.stmts).any fun s =>
        (s.source {}).toOption.any (fun src => (headNames src).contains foundName)
          && (s.bodyReads.contains foundName && s.action.var == "e".toList)) = true := by
    unfold pourContract
    repeat rw [String.toList_ofList]
    decide +kernel
  obtain ⟨w, h, hany⟩ := exists_eq_ok hcaptured
  obtain ⟨s, hs, hall⟩ := List.any_eq_true.1 hany
  rw [Bool.and_eq_true, Bool.and_eq_true, List.contains_iff_mem, beq_iff_eq] at hall
  obtain ⟨src, hsrc, hnames⟩ := exists_eq_ok hall.1
  exact ⟨w, h, s, hs, src, hsrc, List.contains_iff_mem.1 hnames, hall.2⟩

end ContractChecks
