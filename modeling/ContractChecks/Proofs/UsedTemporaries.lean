import ContractChecks.Proofs.LexemeBoundary
import ContractChecks.Proofs.RenamedText
import ContractChecks.Proofs.StatementTexts

/-!
# Temporaries that nothing reads

A temporary that no evaluated text of a wrapper refers to is marked as used.  A selector refers to the
name it selects, and so does the left side of an assignment in code that is emitted as it is.  So a
temporary can be left that is neither read nor marked.

* `NameRole`, `rolesIn s`: the names of a text, each with what it stands for there;
* `mem_rolesIn_read_iff`: what a name that is read has before and after it;
* `Wrapper.Reads w t`: some statement reads the variable `t`;
* `Wrapper.Marks w t`: a statement marks the variable `t` as used;
* `Wrapper.evaluatedTexts w`: what the statements evaluate, phase by phase;
* `reads_eq`: these are the texts by which temporaries are marked;
* `temporaries_used_iff`: which temporaries are neither read nor marked.
-/

namespace ContractChecks

/-! ### the roles of names -/

/-- what a name stands for in a text -/
inductive NameRole where
  | read
  /-- a field or method, after a point -/
  | selector
  /-- a variable on the left side of an assignment -/
  | target
deriving DecidableEq, Repr

/-- whether an assignment sign follows in the same line; `more` tells whether a comma has been
passed, after which other targets may come first -/
def assignFollows (more : Bool) : List Lexeme → Bool
  | .other c :: ls =>
    if c = ' ' || c = '\t' then assignFollows more ls
    else if c = ',' then assignFollows true ls
    else if c = '.' then more && assignFollows more ls
    else if c = ':' then ls.head? = some (.other '=')
    else c = '=' && ls.head? ≠ some (.other '=')
  | .name _ :: ls => more && assignFollows more ls
  | _ => false

/-- the role of a name, given what stands before and after it -/
def NameRole.of (last : Option Char) (after : List Lexeme) : NameRole :=
  if last = some '.' then .selector else if assignFollows false after then .target else .read

def rolesFrom (last : Option Char) : List Lexeme → List (Text × NameRole)
  | [] => []
  | l :: ls =>
    match l with
    | .name raw => (raw, .of last ls) :: rolesFrom (l.lastMark last) ls
    | _ => rolesFrom (l.lastMark last) ls

def rolesIn (s : Text) : List (Text × NameRole) := rolesFrom none (lexemes s)

example : (rolesIn "n, s.n = n == m").map Prod.snd =
    [.target, .read, .selector, .read, .read] := by
  decide +kernel

/-! ### roles by position -/

def Lexeme.isSpace : Lexeme → Bool
  | .other c => c = ' ' || c = '\t'
  | _ => false

/-- what the targets of an assignment are written with -/
def Lexeme.isTargetPart : Lexeme → Bool
  | .name _ => true
  | .other c => c = ' ' || c = '\t' || c = ',' || c = '.'
  | _ => false

/-- the lexemes start with one of the signs `=` and `:=`, and not with `==` -/
def SignStarts (ls : List Lexeme) : Prop :=
  (∃ r, ls = .other '=' :: r ∧ r.head? ≠ some (.other '=')) ∨ ∃ r, ls = .other ':' :: .other '=' :: r

/-- the lexemes go on with an assignment sign, or with a comma, other targets and then the sign -/
def AssignmentFollows (ls : List Lexeme) : Prop :=
  ∃ space rest, ls = space ++ rest ∧ (∀ l ∈ space, l.isSpace = true) ∧
    (SignStarts rest ∨ ∃ targets tail, rest = .other ',' :: (targets ++ tail) ∧
      (∀ l ∈ targets, l.isTargetPart = true) ∧ SignStarts tail)

theorem assignFollows_space {l : Lexeme} (h : l.isSpace = true) (more : Bool) (ls : List Lexeme) :
    assignFollows more (l :: ls) = assignFollows more ls := by
  cases l with
  | other c => exact if_pos h
  | _ => cases h

theorem assignFollows_target {l : Lexeme} (h : l.isTargetPart = true) (ls : List Lexeme) :
    assignFollows true (l :: ls) = assignFollows true ls := by
  cases l with
  | name raw => rfl
  | other c =>
    simp only [Lexeme.isTargetPart, Bool.or_eq_true, decide_eq_true_eq] at h
    rcases h with ((rfl | rfl) | rfl) | rfl <;> rfl
  | _ => cases h

theorem assignFollows_of_sign {ls : List Lexeme} (h : SignStarts ls) (more : Bool) :
    assignFollows more ls = true := by
  rcases h with ⟨r, rfl, hr⟩ | ⟨r, rfl⟩
  · exact decide_eq_true hr
  · rfl

/-- where a list of targets ends there is a sign, or no assignment -/
theorem signStarts_of_assignFollows {l : Lexeme} {ls : List Lexeme} {more : Bool}
    (hspace : l.isSpace = false) (hcomma : l ≠ .other ',')
    (htarget : more = true → l.isTargetPart = false) (h : assignFollows more (l :: ls) = true) :
    SignStarts (l :: ls) := by
  cases l with
  | name raw =>
    obtain ⟨hmore, -⟩ := Bool.and_eq_true_iff.1 h
    cases htarget hmore
  | other c =>
    have hblank : ¬(c = ' ' || c = '\t') = true := Bool.eq_false_iff.1 hspace
    have hc : c ≠ ',' := fun hc => hcomma (hc ▸ rfl)
    rw [assignFollows, if_neg hblank, if_neg hc] at h
    split at h
    case isTrue hpoint =>
      obtain ⟨hmore, -⟩ := Bool.and_eq_true_iff.1 h
      subst hpoint
      cases htarget hmore
    case isFalse =>
      split at h
      case isTrue hcolon =>
        subst hcolon
        obtain ⟨r, rfl⟩ : ∃ r, ls = .other '=' :: r := by
          cases ls with
          | nil => cases of_decide_eq_true h
          | cons l' r =>
            cases of_decide_eq_true h
            exact ⟨r, rfl⟩
        exact .inr ⟨r, rfl⟩
      case isFalse =>
        obtain ⟨hsign, hnext⟩ := Bool.and_eq_true_iff.1 h
        obtain rfl := of_decide_eq_true hsign
        exact .inl ⟨ls, rfl, of_decide_eq_true hnext⟩
  | _ => cases h

theorem assignFollows_targets_iff {ls : List Lexeme} :
    assignFollows true ls = true ↔ ∃ targets tail, ls = targets ++ tail ∧
      (∀ l ∈ targets, l.isTargetPart = true) ∧ SignStarts tail := by
  constructor
  · intro h
    induction ls with
    | nil => cases h
    | cons l ls ih =>
      cases htarget : l.isTargetPart with
      | true =>
        rw [assignFollows_target htarget] at h
        obtain ⟨targets, tail, rfl, htargets, hsign⟩ := ih h
        exact ⟨l :: targets, tail, rfl, List.forall_mem_cons.2 ⟨htarget, htargets⟩, hsign⟩
      | false =>
        have hspace : l.isSpace = false := by
          cases l with
          | other c => exact (Bool.or_eq_false_iff.1 (Bool.or_eq_false_iff.1 htarget).1).1
          | _ => rfl
        have hcomma : l ≠ .other ',' := by
          rintro rfl
          cases htarget
        exact ⟨[], l :: ls, rfl, List.forall_mem_nil _,
          signStarts_of_assignFollows hspace hcomma (fun _ => htarget) h⟩
  · rintro ⟨targets, tail, rfl, htargets, hsign⟩
    induction targets with
    | nil => exact assignFollows_of_sign hsign true
    | cons l targets ih =>
      obtain ⟨hl, htargets⟩ := List.forall_mem_cons.1 htargets
      rw [List.cons_append, assignFollows_target hl]
      exact ih htargets

theorem assignFollows_iff {ls : List Lexeme} :
    assignFollows false ls = true ↔ AssignmentFollows ls := by
  constructor
  · intro h
    induction ls with
    | nil => cases h
    | cons l ls ih =>
      cases hspace : l.isSpace with
      | true =>
        rw [assignFollows_space hspace] at h
        obtain ⟨space, rest, rfl, hall, hrest⟩ := ih h
        exact ⟨l :: space, rest, rfl, List.forall_mem_cons.2 ⟨hspace, hall⟩, hrest⟩
      | false =>
        refine ⟨[], l :: ls, rfl, List.forall_mem_nil _, ?_⟩
        by_cases hcomma : l = .other ','
        · subst hcomma
          obtain ⟨targets, tail, rfl, htargets, hsign⟩ := assignFollows_targets_iff.1 h
          exact .inr ⟨targets, tail, rfl, htargets, hsign⟩
        · exact .inl (signStarts_of_assignFollows hspace hcomma (fun hmore => by cases hmore) h)
  · rintro ⟨space, rest, rfl, hall, hrest⟩
    induction space with
    | nil =>
      rcases hrest with hsign | ⟨targets, tail, rfl, htargets, hsign⟩
      · exact assignFollows_of_sign hsign false
      · exact assignFollows_targets_iff.2 ⟨targets, tail, rfl, htargets, hsign⟩
    | cons l space ih =>
      obtain ⟨hl, hall⟩ := List.forall_mem_cons.1 hall
      rw [List.cons_append, assignFollows_space hl]
      exact ih hall

theorem mem_rolesFrom_iff {last : Option Char} {ls : List Lexeme} {t : Text} {role : NameRole} :
    (t, role) ∈ rolesFrom last ls ↔ ∃ before after, ls = before ++ .name t :: after ∧
      role = .of (lastMarkAfter last before) after := by
  induction ls generalizing last with
  | nil =>
    constructor
    · intro h
      cases h
    · rintro ⟨before, after, h, -⟩
      exact absurd h.symm (List.append_ne_nil_of_right_ne_nil _ (List.cons_ne_nil _ _))
  | cons l ls ih =>
    have hstep : (t, role) ∈ rolesFrom last (l :: ls) ↔
        (l = .name t ∧ role = .of last ls) ∨ (t, role) ∈ rolesFrom (l.lastMark last) ls := by
      cases l with
      | name raw =>
        rw [rolesFrom, List.mem_cons, Prod.mk.injEq, Lexeme.name.injEq]
        exact or_congr_left (and_congr_left' eq_comm)
      | _ => simp [rolesFrom]
    rw [hstep, ih]
    constructor
    · rintro (⟨rfl, hrole⟩ | ⟨before, after, rfl, hrole⟩)
      · exact ⟨[], ls, rfl, hrole⟩
      · exact ⟨l :: before, after, rfl, hrole⟩
    · rintro ⟨before, after, hls, hrole⟩
      cases before with
      | nil =>
        cases hls
        exact .inl ⟨rfl, hrole⟩
      | cons l' before =>
        cases hls
        exact .inr ⟨before, after, rfl, hrole⟩

/-- a name is read unless a point stands before it or an assignment follows -/
theorem mem_rolesIn_read_iff {s t : Text} : (t, NameRole.read) ∈ rolesIn s ↔
    ∃ before after, lexemes s = before ++ .name t :: after ∧
      ¬(lastMarkAfter none before = some '.' ∨ AssignmentFollows after) := by
  rw [rolesIn, mem_rolesFrom_iff]
  refine exists_congr fun before => exists_congr fun after => and_congr_right fun _ => ?_
  rw [NameRole.of, ← assignFollows_iff, not_or]
  split
  case isTrue hpoint => simp [hpoint]
  case isFalse hpoint =>
    split
    case isTrue hassign => simp [hassign]
    case isFalse hassign => simp [hpoint, hassign]

/-! ### statements that read a variable -/

def Action.declares (a : Action) (t : Text) : Bool := a.kind = .declare && declaredName a.text = t

/-- some statement reads the variable, other than its declaration -/
def Wrapper.Reads (w : Wrapper) (t : Text) : Prop :=
  ∃ a ∈ flatten w.stmts, a.declares t = false ∧ (t, NameRole.read) ∈ rolesIn a.text

def Wrapper.Marks (w : Wrapper) (t : Text) : Prop :=
  { phase := .declareTemps, kind := .support, text := "_ = " ++ t } ∈ flatten w.stmts

instance (w : Wrapper) (t : Text) : Decidable (w.Reads t) :=
  inferInstanceAs (Decidable (∃ a ∈ flatten w.stmts, _ ∧ (t, NameRole.read) ∈ rolesIn a.text))

instance (w : Wrapper) (t : Text) : Decidable (w.Marks t) :=
  inferInstanceAs (Decidable (_ ∈ flatten w.stmts))

/-- Wherever a statement names the variable, it selects a field of that name or assigns to it: the
last character before the name, spaces apart, is a point, or an assignment follows. -/
def Wrapper.SelectsOrAssigns (w : Wrapper) (t : Text) : Prop :=
  ∀ a ∈ flatten w.stmts, a.declares t = false → ∀ before after,
    lexemes a.text = before ++ .name t :: after →
      lastMarkAfter none before = some '.' ∨ AssignmentFollows after

/-- what a statement evaluates: an assignment its right side, everything else the whole text -/
def Action.evaluated? (a : Action) : Option Text :=
  match a.kind with
  | .capture => some (readPart a.text)
  | .support | .check | .checkCause | .code => some a.text
  | _ => none

def phaseReads (p : Phase) (ss : List Stmt) : List Text :=
  ((flatten ss).filter fun a => a.phase = p).filterMap Action.evaluated?

def Wrapper.evaluatedTexts (w : Wrapper) : List Text :=
  [.captureEarly, .captureOldState, .checkPrecondition, .normalPath, .exceptionalPath].flatMap
    fun p => phaseReads p w.stmts

section
variable {p q : Phase}

theorem phaseReads_append (p : Phase) (ss ts : List Stmt) :
    phaseReads p (ss ++ ts) = phaseReads p ss ++ phaseReads p ts := by
  rw [phaseReads, flatten_append, List.filter_append, List.filterMap_append]
  rfl

theorem phaseReads_flatMap {α : Type} (p : Phase) (g : α → List Stmt) (l : List α) :
    phaseReads p (l.flatMap g) = l.flatMap fun x => phaseReads p (g x) := by
  induction l with
  | nil => rfl
  | cons x l ih => rw [List.flatMap_cons, phaseReads_append, ih, List.flatMap_cons]

theorem phaseReads_leaf (p : Phase) (a : Action) :
    phaseReads p [.leaf a] = if a.phase = p then a.evaluated?.toList else [] := by
  show ([a].filter fun a => a.phase = p).filterMap Action.evaluated? = _
  by_cases h : a.phase = p
  · rw [if_pos h, List.filter_singleton, decide_eq_true h]
    cases ha : a.evaluated? <;> simp [ha]
  · rw [if_neg h, List.filter_singleton, decide_eq_false h]
    rfl

theorem phaseReads_map_leaf {α : Type} (p : Phase) (g : α → Action) (l : List α) :
    phaseReads p (l.map fun x => .leaf (g x))
      = l.flatMap fun x => if (g x).phase = p then (g x).evaluated?.toList else [] := by
  rw [List.map_eq_flatMap, phaseReads_flatMap]
  simp only [phaseReads_leaf]

theorem phaseReads_closures (p q : Phase) (x : Expansion) :
    phaseReads p (closureStmts q x) = if q = p then x.decls else [] := by
  rw [closureStmts, phaseReads_map_leaf]
  by_cases h : q = p <;> simp [h, Action.evaluated?]

theorem phaseReads_captures (p q : Phase) (xs : List Expansion) :
    phaseReads p (xs.flatMap (captureStmts q)) = if q = p then xs.flatMap captureReads else [] := by
  rw [phaseReads_flatMap]
  simp only [captureStmts, phaseReads_append, phaseReads_closures, phaseReads_leaf]
  by_cases h : q = p
  · simp only [h, if_true]
    rfl
  · simp [h]

theorem phaseReads_checks (p q : Phase) (signal : ViolationKind) (ps : List CheckPiece) :
    phaseReads p (ps.flatMap (checkStmts q signal))
      = if q = p then ps.flatMap fun x => checkReads x.piece else [] := by
  rw [phaseReads_flatMap]
  simp only [checkStmts, phaseReads_append, phaseReads_closures, phaseReads_leaf]
  by_cases h : q = p
  · simp only [h, if_true]
    rfl
  · simp [h]

theorem phaseReads_node (p : Phase) (a : Action) (body normal exceptional : List Stmt) :
    phaseReads p [.node a body normal exceptional] = phaseReads p [.leaf a]
      ++ (phaseReads p body ++ (phaseReads p normal ++ phaseReads p exceptional)) := by
  rw [← phaseReads_append, ← phaseReads_append, ← phaseReads_append]
  have hflat : flatten [.node a body normal exceptional]
      = flatten ([.leaf a] ++ (body ++ (normal ++ exceptional))) := by
    simp [flatten, Stmt.actions, Stmt.leaf, flatten_append]
  rw [phaseReads, hflat]
  rfl

theorem phaseReads_signals (p : Phase) (signal : ViolationKind) (ps : List SignalPiece) :
    phaseReads p (ps.map (signalStmt signal))
      = if .exceptionalPath = p then ps.flatMap fun x => checkReads x.check.piece else [] := by
  rw [List.map_eq_flatMap, phaseReads_flatMap]
  simp only [signalStmt, phaseReads_node, phaseReads_append, phaseReads_closures, phaseReads_leaf]
  by_cases h : Phase.exceptionalPath = p
  · simp only [h, if_true]
    congr 1
    funext x
    simp [Action.evaluated?, checkReads, phaseReads, flatten]
  · simp [h, phaseReads, flatten]

theorem phaseReads_declareStmt (p : Phase) (s : Text) : phaseReads p [declareStmt s] = [] := by
  rw [declareStmt, phaseReads_leaf]
  split <;> rfl

theorem phaseReads_declarations (p : Phase) (t : WrapperTexts) (sig : Signature) (plan : Plan) :
    phaseReads p (t.declarations sig plan) = if .declareTemps = p then
      (plan.temps.filter fun x => !references t.reads x).map fun x : Text => "_ = " ++ x
      else [] := by
  have hresult : phaseReads p (if sig.resultType = [] then []
      else [declareStmt ("var " ++ resultVar ++ " " ++ sig.resultType)]) = [] := by
    split
    · rfl
    · exact phaseReads_declareStmt p _
  have herror : phaseReads p
      (if sig.errResult then [declareStmt ("var " ++ errorVar ++ " error")] else []) = [] := by
    split
    · exact phaseReads_declareStmt p _
    · rfl
  have hdecls : phaseReads p (plan.decls.map fun d => declareStmt (rename sig.renames d)) = [] := by
    rw [List.map_eq_flatMap, phaseReads_flatMap]
    simp only [phaseReads_declareStmt]
    exact List.flatMap_eq_nil_iff.2 fun _ _ => rfl
  rw [WrapperTexts.declarations, phaseReads_append, phaseReads_append, phaseReads_append, hresult,
    herror, hdecls, List.nil_append, List.nil_append, List.nil_append]
  show phaseReads p (List.map (fun x => .leaf _) _) = _
  rw [phaseReads_map_leaf]
  by_cases h : Phase.declareTemps = p
  · simp only [h, if_true, List.map_eq_flatMap]
    rfl
  · simp [h]

theorem phaseReads_guardStmt (p : Phase) (t : WrapperTexts) (sig : Signature)
    (family : ViolationFamily) :
    phaseReads p [t.guardStmt sig family]
      = (if .normalPath = p then t.posts.flatMap fun x => checkReads x.piece else [])
        ++ if .exceptionalPath = p then
          t.xpostCode ++ t.signals.flatMap fun x => checkReads x.check.piece else [] := by
  rw [WrapperTexts.guardStmt, phaseReads_node, WrapperTexts.normalBranch, phaseReads_checks,
    WrapperTexts.exceptionalBranch]
  simp only [phaseReads_append, phaseReads_leaf, phaseReads_map_leaf, phaseReads_signals]
  by_cases h : Phase.exceptionalPath = p
  · subst h
    simp [phaseReads, flatten, Action.evaluated?]
  · simp [h, phaseReads, flatten, Action.evaluated?]

theorem phaseReads_returnStmts (p : Phase) (sig : Signature) :
    phaseReads p (WrapperTexts.returnStmts sig) = [] := by
  rw [WrapperTexts.returnStmts]
  split
  · rfl
  · rw [phaseReads_leaf]
    split <;> rfl

theorem phaseReads_stmts (p : Phase) (t : WrapperTexts) (sig : Signature) (plan : Plan)
    (family : ViolationFamily) :
    phaseReads p (t.stmts sig plan family)
      = (if .declareTemps = p then
          (plan.temps.filter fun x => !references t.reads x).map fun x : Text => "_ = " ++ x else [])
        ++ (if .captureEarly = p then t.early.flatMap captureReads else [])
        ++ (if .captureEarly = p then t.preExprs.flatMap captureReads else [])
        ++ (if .checkPrecondition = p then
          t.pre.toList.flatMap fun x => checkReads x.piece else [])
        ++ (if .captureOldState = p then t.late.flatMap captureReads else [])
        ++ ((if .normalPath = p then t.posts.flatMap fun x => checkReads x.piece else [])
        ++ if .exceptionalPath = p then
          t.xpostCode ++ t.signals.flatMap fun x => checkReads x.check.piece else []) := by
  simp only [WrapperTexts.stmts, phaseReads_append, phaseReads_declarations, phaseReads_captures,
    phaseReads_checks, phaseReads_guardStmt, phaseReads_returnStmts, List.append_nil]

end

/-- temporaries are marked by the texts that the statements evaluate -/
theorem reads_eq {t : WrapperTexts} {sig : Signature} {plan : Plan} {family : ViolationFamily}
    {w : Wrapper} (hw : w.stmts = t.stmts sig plan family)
    (hcode : t.xpostCode ≠ [] → t.signals = []) :
    t.reads = Text.join "\n" w.evaluatedTexts := by
  have hexceptional : t.xpostCode ++ t.signals.flatMap (fun x => checkReads x.check.piece)
      = t.signals.flatMap (fun x => checkReads x.check.piece) ++ t.xpostCode := by
    -- raw code stands before the signals where it is emitted, and after them where it is searched
    by_cases hx : t.xpostCode = []
    · rw [hx, List.nil_append, List.append_nil]
    · rw [hcode hx, List.flatMap_nil, List.nil_append, List.append_nil]
  simp only [Wrapper.evaluatedTexts, hw, List.flatMap_cons, List.flatMap_nil, phaseReads_stmts,
    reduceCtorEq, if_true, if_false, List.nil_append, List.append_nil, hexceptional]
  simp only [WrapperTexts.reads, List.append_assoc]

theorem mem_flatten_of_leaf {a : Action} {ss : List Stmt} (h : .leaf a ∈ ss) : a ∈ flatten ss := by
  obtain ⟨before, after, rfl⟩ := List.append_of_mem h
  rw [flatten_append]
  exact List.mem_append_right _ List.mem_cons_self

theorem marks_iff {t : WrapperTexts} {sig : Signature} {plan : Plan} {family : ViolationFamily}
    {w : Wrapper} (hw : w.stmts = t.stmts sig plan family) {x : Text} (hx : x ∈ plan.temps) :
    w.Marks x ↔ x ∉ words t.reads := by
  rw [← references_iff, Bool.not_eq_true]
  constructor
  · intro h
    have hmem : "_ = " ++ x ∈ phaseReads .declareTemps w.stmts :=
      List.mem_filterMap.2 ⟨_, List.mem_filter.2 ⟨h, by simp⟩, rfl⟩
    rw [hw, phaseReads_stmts] at hmem
    simp only [if_true, reduceCtorEq, if_false, List.append_nil] at hmem
    obtain ⟨y, hy, hxy⟩ := List.mem_map.1 hmem
    rw [← List.append_cancel_left hxy]
    simpa using (List.mem_filter.1 hy).2
  · intro h
    have huse : useStmt x ∈ t.stmts sig plan family := by
      simp only [WrapperTexts.stmts, WrapperTexts.declarations, List.mem_append]
      refine .inl (.inl (.inl (.inl (.inl (.inl (.inr ?_))))))
      exact List.mem_map.2 ⟨x, List.mem_filter.2 ⟨hx, by rw [h]; rfl⟩, rfl⟩
    rw [Wrapper.Marks, hw]
    exact mem_flatten_of_leaf huse

theorem Wrapper.selectsOrAssigns_iff {w : Wrapper} {t : Text} :
    w.SelectsOrAssigns t ↔ ¬ w.Reads t := by
  constructor
  · rintro h ⟨a, ha, hdecl, hread⟩
    obtain ⟨before, after, htext, hnot⟩ := mem_rolesIn_read_iff.1 hread
    exact hnot (h a ha hdecl before after htext)
  · intro h a ha hdecl before after htext
    by_contra hnot
    exact h ⟨a, ha, hdecl, mem_rolesIn_read_iff.2 ⟨before, after, htext, hnot⟩⟩

/-- A temporary is marked exactly if no evaluated text refers to it.  So it is read or marked unless
an evaluated text refers to it, but every statement that names it selects a field of that name or
assigns to it.  The evaluated texts are searched in one piece, which finds the words of each of them
where no literal is left open. -/
theorem temporaries_used_iff {c : Contract} {mode : Mode} {oracle : Oracle} {w : Wrapper}
    (h : synthesize c mode oracle = .ok w) :
    ∃ plan, Plan.extract c oracle = .ok plan ∧
      (∀ t ∈ plan.temps, (w.Marks t ↔ t ∉ words (Text.join "\n" w.evaluatedTexts)) ∧
        (w.Reads t ∨ w.Marks t ↔
          ¬ (t ∈ words (Text.join "\n" w.evaluatedTexts) ∧ w.SelectsOrAssigns t))) ∧
      ((∀ s ∈ w.evaluatedTexts, LiteralsClosed s) →
        words (Text.join "\n" w.evaluatedTexts) = w.evaluatedTexts.flatMap words) := by
  obtain ⟨family, sig, plan, t, e, hsteps, htexts⟩ := synthesize_texts h
  have hstmts : w.stmts = t.stmts sig plan family := by rw [hsteps.wrapper_eq]
  have hcode : t.xpostCode ≠ [] → t.signals = [] := by
    intro hne
    refine signals_expandTexts htexts fun hempty => hne ?_
    rw [hsteps.texts.xpostCode, hempty]
    rfl
  refine ⟨plan, hsteps.plan_eq, ?_,
    words_join (by decide) (List.all_eq_true.1 (by decide)) w.evaluatedTexts⟩
  intro x hx
  have hmarks := marks_iff hstmts hx
  rw [reads_eq hstmts hcode] at hmarks
  refine ⟨hmarks, ?_⟩
  rw [hmarks, Wrapper.selectsOrAssigns_iff, not_and_not_right, or_comm, imp_iff_not_or]

/-- a method with two old variables, of which the postcondition may read the first -/
def resizeContract (post : Text) : Contract where
  method := { name := "Resize", owner := "Stack", receiver := "s", visibility := .of .pub }
  pre := .set .empty 0 "true"
  post := .set .empty 0 post
  oldVars := .set .empty 0 [⟨"n int/n = s.size"⟩, ⟨"m int/m = s.limit"⟩]

theorem temporaries_used_iff_resize :
    ∃ w plan, synthesize (resizeContract "s.n == n + 1") .direct (Oracle.scanning []) = .ok w ∧
      Plan.extract (resizeContract "s.n == n + 1") (Oracle.scanning []) = .ok plan ∧
      plan.temps = (["n", "m"] : List Text) ∧ w.Reads "n" ∧ ¬ w.Marks "n" ∧ w.Marks "m" := by
  obtain ⟨w, hw, hp⟩ := exists_eq_ok
    (p := fun w : Wrapper => decide (w.Reads "n" ∧
      references (Text.join "\n" w.evaluatedTexts) "n" = true ∧
      references (Text.join "\n" w.evaluatedTexts) "m" = false))
    (show (synthesize (resizeContract "s.n == n + 1") .direct
      (Oracle.scanning [])).toOption.any _ = true by
      -- the kernel is slow in reading the characters of a literal, so they are put in its place
      unfold resizeContract
      repeat rw [String.toList_ofList]
      decide +kernel)
  obtain ⟨hread, hn, hm⟩ := of_decide_eq_true hp
  obtain ⟨plan, hplan, hused, -⟩ := temporaries_used_iff hw
  have htemps : (Plan.extract (resizeContract "s.n == n + 1") (Oracle.scanning [])).map Plan.temps
      = .ok (["n", "m"] : List Text) := by decide +kernel
  rw [hplan] at htemps
  have htemps := Except.ok.inj htemps
  refine ⟨w, plan, hw, hplan, htemps, hread, ?_, ?_⟩
  · have hmarks := (hused "n" (by rw [htemps]; decide)).1
    rw [hmarks, ← references_iff, hn]
    exact fun h => h rfl
  · have hmarks := (hused "m" (by rw [htemps]; decide)).1
    rw [hmarks, ← references_iff, hm]
    decide

/-- the selector `s.n` counts as a reference to the temporary, which is neither read nor marked -/
theorem selected_not_used :
    ∃ w plan, synthesize (resizeContract "s.n == 1") .direct (Oracle.scanning []) = .ok w ∧
      Plan.extract (resizeContract "s.n == 1") (Oracle.scanning []) = .ok plan ∧
      plan.temps = (["n", "m"] : List Text) ∧ ¬ (w.Reads "n" ∨ w.Marks "n") := by
  obtain ⟨w, hw, hp⟩ := exists_eq_ok (p := fun w : Wrapper => decide (¬ (w.Reads "n" ∨ w.Marks "n")))
    (show (synthesize (resizeContract "s.n == 1") .direct
      (Oracle.scanning [])).toOption.any _ = true by
      unfold resizeContract
      repeat rw [String.toList_ofList]
      decide +kernel)
  obtain ⟨plan, hplan, htemps⟩ := exists_eq_ok
    (p := fun plan : Plan => decide (plan.temps = (["n", "m"] : List Text)))
    (show (Plan.extract (resizeContract "s.n == 1")
      (Oracle.scanning [])).toOption.any _ = true by decide +kernel)
  exact ⟨w, plan, hw, hplan, of_decide_eq_true htemps, of_decide_eq_true hp⟩

end ContractChecks
