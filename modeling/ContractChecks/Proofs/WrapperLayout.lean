import Mathlib.Data.List.Forall2
import ContractChecks.Proofs.StatementBuilder
import ContractChecks.Proofs.Synthesis

/-!
# The layout of a wrapper

The statements of a wrapper stand in a fixed order: declarations, captures that the precondition
depends on, its check, the other captures, the guard with its branches, and the return of the
results.

* `Leaves p ks ss`: statements of phase `p` and of kinds `ks` with nothing inside them;
* `actionsOf k ss`: the actions of one kind, also of statements inside others;
* `WrapperParts`: the parts of a wrapper and the statements they make up;
* `WrapperParts.Shape`: what stands in each part, and for which texts of the contract;
* `synthesize_layout`: every wrapper has this shape, and no phase is entered after a later one.
-/

namespace ContractChecks

/-! ### kinds and phases of statements -/

/-- statements without statements inside them, of one phase and of the given kinds -/
def Leaves (phase : Phase) (kinds : List StmtKind) (ss : List Stmt) : Prop :=
  ∀ s ∈ ss, ∃ a, s = .leaf a ∧ a.phase = phase ∧ a.kind ∈ kinds

/-- the actions of a kind, depth first -/
def actionsOf (k : StmtKind) (ss : List Stmt) : List Action :=
  (flatten ss).filter fun a => a.kind = k

/-- all actions are of one phase and of the given kinds -/
def ActionsIn (phase : Phase) (kinds : List StmtKind) (ss : List Stmt) : Prop :=
  ∀ a ∈ flatten ss, a.phase = phase ∧ a.kind ∈ kinds

theorem flatten_leaf (a : Action) : flatten [.leaf a] = [a] := rfl

theorem Leaves.actionsIn {phase : Phase} {kinds : List StmtKind} {ss : List Stmt}
    (h : Leaves phase kinds ss) : ActionsIn phase kinds ss := by
  induction ss with
  | nil =>
    intro a ha
    cases ha
  | cons s ss ih =>
    obtain ⟨a, rfl, hphase, hkind⟩ := h s List.mem_cons_self
    intro b hb
    rcases List.mem_cons.1 hb with rfl | hb
    · exact ⟨hphase, hkind⟩
    · exact ih (fun u hu => h u (List.mem_cons_of_mem _ hu)) b hb

theorem actionsIn_append {phase : Phase} {kinds : List StmtKind} {ss ts : List Stmt}
    (hs : ActionsIn phase kinds ss) (ht : ActionsIn phase kinds ts) :
    ActionsIn phase kinds (ss ++ ts) := by
  intro a ha
  rw [flatten_append] at ha
  rcases List.mem_append.1 ha with ha | ha
  · exact hs a ha
  · exact ht a ha

theorem ActionsIn.mono {phase : Phase} {kinds more : List StmtKind} {ss : List Stmt}
    (h : ActionsIn phase kinds ss) (hmore : kinds ⊆ more) : ActionsIn phase more ss :=
  fun a ha => ⟨(h a ha).1, hmore (h a ha).2⟩

theorem actionsIn_leaf {a : Action} {phase : Phase} {kinds : List StmtKind} (hp : a.phase = phase)
    (hk : a.kind ∈ kinds) : ActionsIn phase kinds [.leaf a] := by
  intro b hb
  cases List.mem_singleton.1 hb
  exact ⟨hp, hk⟩

theorem leaves_append {phase : Phase} {kinds : List StmtKind} {ss ts : List Stmt}
    (hs : Leaves phase kinds ss) (ht : Leaves phase kinds ts) : Leaves phase kinds (ss ++ ts) := by
  intro s h
  rcases List.mem_append.1 h with h | h
  · exact hs s h
  · exact ht s h

theorem leaves_flatMap {α : Type} {phase : Phase} {kinds : List StmtKind} {g : α → List Stmt}
    (h : ∀ x, Leaves phase kinds (g x)) (l : List α) : Leaves phase kinds (l.flatMap g) := by
  intro s hs
  obtain ⟨x, -, hs⟩ := List.mem_flatMap.1 hs
  exact h x s hs

theorem leaves_map {α : Type} {phase : Phase} {kinds : List StmtKind} {g : α → Action}
    (h : ∀ x, (g x).phase = phase ∧ (g x).kind ∈ kinds) (l : List α) :
    Leaves phase kinds (l.map fun x => .leaf (g x)) := by
  intro s hs
  obtain ⟨x, -, rfl⟩ := List.mem_map.1 hs
  exact ⟨g x, rfl, h x⟩

theorem actionsOf_append (k : StmtKind) (ss ts : List Stmt) :
    actionsOf k (ss ++ ts) = actionsOf k ss ++ actionsOf k ts := by
  rw [actionsOf, flatten_append, List.filter_append]
  rfl

theorem actionsOf_eq_nil {phase : Phase} {kinds : List StmtKind} {ss : List Stmt}
    (h : ActionsIn phase kinds ss) {k : StmtKind} (hk : k ∉ kinds) : actionsOf k ss = [] := by
  refine List.filter_eq_nil_iff.2 fun a ha => ?_
  have hkind := (h a ha).2
  rw [decide_eq_true_eq]
  rintro rfl
  exact hk hkind

theorem actionsOf_flatMap {α : Type} (k : StmtKind) (g : α → List Stmt) (l : List α) :
    actionsOf k (l.flatMap g) = l.flatMap fun x => actionsOf k (g x) := by
  induction l with
  | nil => rfl
  | cons x l ih => rw [List.flatMap_cons, actionsOf_append, ih, List.flatMap_cons]

/-! ### phases in order -/

/-- the phases of all statements lie between two phases and never go back -/
structure InPhases (lo hi : Int) (ss : List Stmt) : Prop where
  sorted : (flatten ss).Pairwise fun a b => a.phase.code ≤ b.phase.code
  bounds : ∀ a ∈ flatten ss, lo ≤ a.phase.code ∧ a.phase.code ≤ hi

theorem InPhases.append {lo m n hi : Int} {ss ts : List Stmt} (hs : InPhases lo m ss)
    (ht : InPhases n hi ts) (hmn : m ≤ n) (hlo : lo ≤ n) (hhi : m ≤ hi) :
    InPhases lo hi (ss ++ ts) where
  sorted := by
    rw [flatten_append, List.pairwise_append]
    refine ⟨hs.sorted, ht.sorted, fun a ha b hb => ?_⟩
    have ha := hs.bounds a ha
    have hb := ht.bounds b hb
    omega
  bounds := by
    intro a ha
    rw [flatten_append] at ha
    rcases List.mem_append.1 ha with ha | ha
    · have ha := hs.bounds a ha
      omega
    · have ha := ht.bounds a ha
      omega

theorem ActionsIn.inPhases {phase : Phase} {kinds : List StmtKind} {ss : List Stmt}
    (h : ActionsIn phase kinds ss) : InPhases phase.code phase.code ss where
  sorted := by
    refine List.pairwise_of_forall_mem_list fun a ha b hb => ?_
    have hphase : a.phase = b.phase := (h a ha).1.trans (h b hb).1.symm
    exact Int.le_of_eq (congrArg Phase.code hphase)
  bounds := by
    intro a ha
    rw [(h a ha).1]
    omega

theorem flatten_guard (a : Action) (normal exceptional : List Stmt) :
    flatten [.node a [] normal exceptional] = a :: flatten (normal ++ exceptional) := by
  simp [flatten, Stmt.actions, flatten_append]

theorem InPhases.guard {a : Action} {lo hi : Int} {normal exceptional : List Stmt}
    (h : InPhases lo hi (normal ++ exceptional)) (ha : a.phase.code ≤ lo) (hlo : lo ≤ hi) :
    InPhases a.phase.code hi [.node a [] normal exceptional] := by
  constructor
  · rw [flatten_guard, List.pairwise_cons]
    refine ⟨fun b hb => ?_, h.sorted⟩
    have hbound := h.bounds b hb
    omega
  · rw [flatten_guard]
    intro b hb
    rcases List.mem_cons.1 hb with rfl | hb
    · omega
    · have hbound := h.bounds b hb
      omega

/-! ### parts of a wrapper -/

structure WrapperParts where
  declares : List Stmt
  /-- temporaries marked as used -/
  uses : List Stmt
  /-- captures that the precondition depends on, and assignments of pre-expressions -/
  early : List Stmt
  /-- the check of the precondition -/
  check : List Stmt
  late : List Stmt
  guard : Action
  normal : List Stmt
  propagate : Action
  /-- the statements for the caught signal -/
  handlers : List Stmt
  rethrow : Action
  /-- the return of the results -/
  results : List Stmt

namespace WrapperParts

def exceptional (p : WrapperParts) : List Stmt :=
  .leaf p.propagate :: (p.handlers ++ [.leaf p.rethrow])

def stmts (p : WrapperParts) : List Stmt :=
  p.declares ++ (p.uses ++ (p.early ++ (p.check ++ (p.late
    ++ ([.node p.guard [] p.normal p.exceptional] ++ p.results)))))

end WrapperParts

/-- the text of an action is the text `s`, renamed and with its quantifiers expanded -/
def ExpandsTo (f : Renaming) (s : Text) (a : Action) : Prop := ∃ x, Expands f s x ∧ a.text = x.text

def ChecksPost (c : Contract) (f : Renaming) (family : ViolationFamily) (e : Int × Text)
    (a : Action) : Prop :=
  ExpandsTo f e.2 a ∧ a.signal = family.normalPost ∧ a.message = checkMessage c.method f e.2

/-- the selection for a signals clause, with one check in its body -/
def SelectsSignals (c : Contract) (f : Renaming) (family : ViolationFamily) (e : Int × Signals)
    (s : Stmt) : Prop :=
  ∃ a body b, s = .node a body [] [] ∧ a.kind = .select ∧ a.phase = .exceptionalPath ∧
    a.type = e.2.typeOrAny ∧ Leaves .exceptionalPath [.support, .checkCause] body ∧
    actionsOf .checkCause body = [b] ∧ ExpandsTo f e.2.pred b ∧
    b.signal = family.exceptionalPost ∧ b.message = checkMessage c.method f e.2.text

structure WrapperParts.Shape (p : WrapperParts) (c : Contract) (sig : Signature) (plan : Plan)
    (family : ViolationFamily) (w : Wrapper) : Prop where
  declares : Leaves .declareTemps [.declare] p.declares
  uses : Leaves .declareTemps [.support] p.uses
  early : Leaves .captureEarly [.support, .capture] p.early
  earlyTexts : List.Forall₂ (ExpandsTo sig.renames) (plan.early ++ plan.preExprs)
    (actionsOf .capture p.early)
  check : Leaves .checkPrecondition [.support, .check] p.check
  checkText : if checksPrecondition c plan then
      ∃ a, actionsOf .check p.check = [a] ∧ ExpandsTo sig.renames c.precondition a ∧
        a.signal = family.precondition
    else p.check = []
  late : Leaves .captureOldState [.support, .capture] p.late
  lateTexts : List.Forall₂ (ExpandsTo sig.renames) plan.late (actionsOf .capture p.late)
  resultTypes : w.results = (if sig.resultType = [] then [] else [sig.resultType])
    ++ (if sig.errResult then [errorType] else [])
  /-- the variables of the results are assigned to exactly if there are results -/
  guard : p.guard.kind = .guard ∧ p.guard.phase = .invokeMethod ∧
    p.guard.text = if w.results = [] then w.callTarget
      else Text.join ", " sig.assigned ++ " = " ++ w.callTarget
  normal : Leaves .normalPath [.support, .check] p.normal
  normalChecks : List.Forall₂ (ChecksPost c sig.renames family) (checkedPosts c)
    (actionsOf .check p.normal)
  propagate : p.propagate.kind = .propagate ∧ p.propagate.phase = .exceptionalPath
  code : c.xpostCode ≠ [] → p.handlers = c.xpostCode.map fun s =>
    .leaf { phase := .exceptionalPath, kind := .code, text := rename sig.renames s }
  selections : c.xpostCode = [] →
    List.Forall₂ (SelectsSignals c sig.renames family) (checkedSignals c) p.handlers
  rethrow : p.rethrow.kind = .rethrow ∧ p.rethrow.phase = .exceptionalPath
  results : p.results = if w.results = [] then [] else
    [.leaf { phase := .return, kind := .return, text := Text.join ", " sig.assigned }]

theorem actionsIn_selections {c : Contract} {f : Renaming} {family : ViolationFamily}
    {es : List (Int × Signals)} {ss : List Stmt}
    (h : List.Forall₂ (SelectsSignals c f family) es ss) :
    ActionsIn .exceptionalPath [.select, .support, .checkCause] ss := by
  induction h with
  | nil =>
    intro a ha
    cases ha
  | @cons e s es ss hs _ ih =>
    obtain ⟨a, body, b, rfl, hkind, hphase, -, hbody, -⟩ := hs
    have hin := hbody.actionsIn.mono (List.subset_cons_self .select _)
    intro d hd
    have hmem : d = a ∨ d ∈ flatten body ∨ d ∈ flatten ss := by
      simpa [flatten, Stmt.actions] using hd
    rcases hmem with rfl | hd | hd
    · rw [hkind]
      exact ⟨hphase, List.mem_cons_self⟩
    · exact hin d hd
    · exact ih d hd

namespace WrapperParts.Shape
variable {p : WrapperParts} {c : Contract} {sig : Signature} {plan : Plan}
  {family : ViolationFamily} {w : Wrapper}

/-- the kinds of statements that can stand in the exceptional branch -/
def exceptionalKinds : List StmtKind :=
  [.propagate, .code, .select, .support, .checkCause, .rethrow]

theorem actionsIn_exceptional (h : p.Shape c sig plan family w) :
    ActionsIn .exceptionalPath exceptionalKinds p.exceptional := by
  have hhandlers : ActionsIn .exceptionalPath exceptionalKinds p.handlers := by
    by_cases hx : c.xpostCode = []
    · exact (actionsIn_selections (h.selections hx)).mono (by decide)
    · rw [h.code hx]
      refine Leaves.actionsIn (leaves_map ?_ _)
      intro s
      have hcode : StmtKind.code ∈ exceptionalKinds := by decide
      exact ⟨rfl, hcode⟩
  have hpropagate : p.propagate.kind ∈ exceptionalKinds := by
    rw [h.propagate.1]
    decide
  have hrethrow : p.rethrow.kind ∈ exceptionalKinds := by
    rw [h.rethrow.1]
    decide
  exact actionsIn_append (actionsIn_leaf h.propagate.2 hpropagate)
    (actionsIn_append hhandlers (actionsIn_leaf h.rethrow.2 hrethrow))

theorem actionsIn_results (h : p.Shape c sig plan family w) :
    ActionsIn .return [.return] p.results := by
  rw [h.results]
  split
  · intro a ha
    cases ha
  · exact actionsIn_leaf rfl List.mem_cons_self

theorem inPhases (h : p.Shape c sig plan family w) :
    InPhases Phase.declareTemps.code Phase.return.code p.stmts := by
  have hbranches := h.normal.actionsIn.inPhases.append h.actionsIn_exceptional.inPhases
    (by decide) (by decide) (by decide)
  have hguard := hbranches.guard (a := p.guard) (by rw [h.guard.2.1]; decide) (by decide)
  rw [h.guard.2.1] at hguard
  have hlast := hguard.append h.actionsIn_results.inPhases (by decide) (by decide) (by decide)
  have hlate := h.late.actionsIn.inPhases.append hlast (by decide) (by decide) (by decide)
  have hcheck := h.check.actionsIn.inPhases.append hlate (by decide) (by decide) (by decide)
  have hearly := h.early.actionsIn.inPhases.append hcheck (by decide) (by decide) (by decide)
  have huses := h.uses.actionsIn.inPhases.append hearly (by decide) (by decide) (by decide)
  exact h.declares.actionsIn.inPhases.append huses (by decide) (by decide) (by decide)

/-- statements of a kind that stands in no branch of a guard -/
theorem actionsOf_guard (h : p.Shape c sig plan family w) {k : StmtKind}
    (hk : k ∉ exceptionalKinds) (hcheck : k ≠ .check) :
    actionsOf k [.node p.guard [] p.normal p.exceptional]
      = if k = .guard then [p.guard] else [] := by
  have hnormal : k ∉ [.support, .check] := by
    intro hmem
    rcases List.mem_cons.1 hmem with rfl | hmem
    · exact hk (by decide)
    · exact hcheck (List.mem_singleton.1 hmem)
  have hbranches : actionsOf k (p.normal ++ p.exceptional) = [] := by
    rw [actionsOf_append, actionsOf_eq_nil h.normal.actionsIn hnormal,
      actionsOf_eq_nil h.actionsIn_exceptional hk]
    rfl
  rw [actionsOf, flatten_guard, List.filter_cons, show List.filter _ _ = [] from hbranches,
    h.guard.1]
  by_cases hguard : k = .guard
  · subst hguard
    rfl
  · rw [if_neg hguard, if_neg fun he => hguard (of_decide_eq_true he).symm]

theorem actionsOf_stmts (p : WrapperParts) (k : StmtKind) :
    actionsOf k p.stmts = actionsOf k p.declares ++ (actionsOf k p.uses ++ (actionsOf k p.early
      ++ (actionsOf k p.check ++ (actionsOf k p.late
      ++ (actionsOf k [.node p.guard [] p.normal p.exceptional] ++ actionsOf k p.results))))) := by
  simp only [stmts, actionsOf_append]

theorem actionsOf_guard_stmts (h : p.Shape c sig plan family w) :
    actionsOf .guard p.stmts = [p.guard] := by
  rw [actionsOf_stmts, actionsOf_eq_nil h.declares.actionsIn (by decide),
    actionsOf_eq_nil h.uses.actionsIn (by decide), actionsOf_eq_nil h.early.actionsIn (by decide),
    actionsOf_eq_nil h.check.actionsIn (by decide), actionsOf_eq_nil h.late.actionsIn (by decide),
    actionsOf_eq_nil h.actionsIn_results (by decide), h.actionsOf_guard (by decide) (by decide)]
  rfl

theorem actionsOf_declare_stmts (h : p.Shape c sig plan family w) :
    actionsOf .declare p.stmts = flatten p.declares := by
  have hall : actionsOf .declare p.declares = flatten p.declares := by
    refine List.filter_eq_self.2 fun a ha => ?_
    exact decide_eq_true (List.mem_singleton.1 (h.declares.actionsIn a ha).2)
  rw [actionsOf_stmts, hall,
    actionsOf_eq_nil h.uses.actionsIn (by decide), actionsOf_eq_nil h.early.actionsIn (by decide),
    actionsOf_eq_nil h.check.actionsIn (by decide), actionsOf_eq_nil h.late.actionsIn (by decide),
    actionsOf_eq_nil h.actionsIn_results (by decide), h.actionsOf_guard (by decide) (by decide)]
  exact List.append_nil _

theorem actionsOf_capture_stmts (h : p.Shape c sig plan family w) :
    actionsOf .capture p.stmts = actionsOf .capture p.early ++ actionsOf .capture p.late := by
  rw [actionsOf_stmts, actionsOf_eq_nil h.declares.actionsIn (by decide),
    actionsOf_eq_nil h.uses.actionsIn (by decide), actionsOf_eq_nil h.check.actionsIn (by decide),
    actionsOf_eq_nil h.actionsIn_results (by decide), h.actionsOf_guard (by decide) (by decide)]
  simp

theorem actionsOf_return_stmts (h : p.Shape c sig plan family w) :
    actionsOf .return p.stmts = flatten p.results := by
  have hall : actionsOf .return p.results = flatten p.results := by
    refine List.filter_eq_self.2 fun a ha => ?_
    exact decide_eq_true (List.mem_singleton.1 (h.actionsIn_results a ha).2)
  rw [actionsOf_stmts, hall, actionsOf_eq_nil h.declares.actionsIn (by decide),
    actionsOf_eq_nil h.uses.actionsIn (by decide), actionsOf_eq_nil h.early.actionsIn (by decide),
    actionsOf_eq_nil h.check.actionsIn (by decide), actionsOf_eq_nil h.late.actionsIn (by decide),
    h.actionsOf_guard (by decide) (by decide)]
  rfl

end WrapperParts.Shape

/-! ### the parts that synthesis makes -/

/-- the closures of a piece, followed by one statement of another kind -/
theorem piece_spec {phase : Phase} {k : StmtKind} (hk : k ≠ .support) (x : Expansion) {a : Action}
    (hp : a.phase = phase) (ha : a.kind = k) :
    Leaves phase [.support, k] (closureStmts phase x ++ [.leaf a]) ∧
      actionsOf k (closureStmts phase x ++ [.leaf a]) = [a] := by
  have hclosures : Leaves phase [.support] (closureStmts phase x) := by
    intro s hs
    obtain ⟨d, -, rfl⟩ := List.mem_map.1 hs
    exact ⟨_, rfl, rfl, List.mem_cons_self⟩
  constructor
  · intro s hs
    rcases List.mem_append.1 hs with hs | hs
    · obtain ⟨b, hb, hphase, hkind⟩ := hclosures s hs
      exact ⟨b, hb, hphase, List.mem_cons.2 (.inl (List.mem_singleton.1 hkind))⟩
    · exact ⟨a, List.mem_singleton.1 hs, hp, by simp [ha]⟩
  · have hnone : actionsOf k (closureStmts phase x) = [] :=
      actionsOf_eq_nil hclosures.actionsIn fun hmem => hk (List.mem_singleton.1 hmem)
    rw [actionsOf_append, hnone, List.nil_append, actionsOf, flatten_leaf]
    exact List.filter_eq_self.2 fun b hb => by rw [List.mem_singleton.1 hb]; exact decide_eq_true ha

theorem captures_spec {f : Renaming} {ss : List Text} {xs : List Expansion} (phase : Phase)
    (h : List.Forall₂ (Expands f) ss xs) :
    Leaves phase [.support, .capture] (xs.flatMap (captureStmts phase)) ∧
      List.Forall₂ (ExpandsTo f) ss (actionsOf .capture (xs.flatMap (captureStmts phase))) := by
  have hone : ∀ x, Leaves phase [.support, .capture] (captureStmts phase x) ∧
      actionsOf .capture (captureStmts phase x)
        = [{ phase := phase, kind := .capture, text := x.text }] := fun x =>
    piece_spec (by decide) x rfl rfl
  refine ⟨leaves_flatMap (fun x => (hone x).1) xs, ?_⟩
  rw [actionsOf_flatMap]
  simp only [fun x => (hone x).2, ← List.map_eq_flatMap, List.forall₂_map_right_iff]
  exact h.imp fun s x hx => ⟨x, hx, rfl⟩

theorem check_spec (phase : Phase) (signal : ViolationKind) (p : CheckPiece) :
    Leaves phase [.support, .check] (checkStmts phase signal p) ∧
      actionsOf .check (checkStmts phase signal p) = [{
        phase := phase, kind := .check, text := p.piece.text, signal := signal
        message := p.message }] :=
  piece_spec (by decide) p.piece rfl rfl

theorem checks_spec {c : Contract} {f : Renaming} (family : ViolationFamily)
    {es : List (Int × Text)} {ps : List CheckPiece}
    (h : List.Forall₂ (ExpandsPost c.method f) es ps) :
    Leaves .normalPath [.support, .check] (ps.flatMap (checkStmts .normalPath family.normalPost)) ∧
      List.Forall₂ (ChecksPost c f family) es
        (actionsOf .check (ps.flatMap (checkStmts .normalPath family.normalPost))) := by
  have hone := check_spec .normalPath family.normalPost
  refine ⟨leaves_flatMap (fun p => (hone p).1) ps, ?_⟩
  rw [actionsOf_flatMap]
  simp only [fun p => (hone p).2, ← List.map_eq_flatMap, List.forall₂_map_right_iff]
  exact h.imp fun e p hp => ⟨⟨p.piece, hp.1, rfl⟩, rfl, hp.2⟩

theorem selectsSignals_signalStmt {c : Contract} {f : Renaming} {family : ViolationFamily}
    {e : Int × Signals} {p : SignalPiece} (h : ExpandsSignals c.method f e p) :
    SelectsSignals c f family e (signalStmt family.exceptionalPost p) := by
  obtain ⟨hpred, hmessage, htype, -⟩ := h
  let a : Action := {
    phase := .exceptionalPath, kind := .checkCause, text := p.check.piece.text
    signal := family.exceptionalPost, message := p.check.message }
  obtain ⟨hleaves, hcheck⟩ := piece_spec (a := a) (k := .checkCause) (by decide) p.check.piece rfl rfl
  exact ⟨_, _, _, rfl, rfl, rfl, htype, hleaves, hcheck, ⟨_, hpred, rfl⟩, rfl, hmessage⟩

/-! ### every wrapper -/

def WrapperTexts.parts (t : WrapperTexts) (sig : Signature) (plan : Plan)
    (family : ViolationFamily) : WrapperParts where
  declares :=
    (if sig.resultType = [] then []
      else [declareStmt ("var " ++ resultVar ++ " " ++ sig.resultType)])
      ++ (if sig.errResult then [declareStmt ("var " ++ errorVar ++ " error")] else [])
      ++ plan.decls.map (fun d => declareStmt (rename sig.renames d))
  uses := (plan.temps.filter fun x => !references t.reads x).map useStmt
  early := (t.early ++ t.preExprs).flatMap (captureStmts .captureEarly)
  check := t.pre.toList.flatMap (checkStmts .checkPrecondition family.precondition)
  late := t.late.flatMap (captureStmts .captureOldState)
  guard := {
    phase := .invokeMethod, kind := .guard, text := WrapperTexts.invocation sig
    errorResult := sig.errResult }
  normal := t.normalBranch family
  propagate := { phase := .exceptionalPath, kind := .propagate }
  handlers :=
    t.xpostCode.map (fun s => .leaf { phase := .exceptionalPath, kind := .code, text := s })
      ++ t.signals.map (signalStmt family.exceptionalPost)
  rethrow := { phase := .exceptionalPath, kind := .rethrow, errorResult := sig.errResult }
  results := WrapperTexts.returnStmts sig

theorem stmts_parts (t : WrapperTexts) (sig : Signature) (plan : Plan) (family : ViolationFamily) :
    (t.parts sig plan family).stmts = t.stmts sig plan family := by
  have hexceptional : (t.parts sig plan family).exceptional = t.exceptionalBranch sig family := by
    unfold WrapperTexts.exceptionalBranch
    rw [List.append_assoc, List.append_assoc, ← List.append_assoc (List.map _ t.xpostCode)]
    rfl
  unfold WrapperParts.stmts
  rw [hexceptional]
  simp only [WrapperTexts.parts, WrapperTexts.stmts, WrapperTexts.declarations,
    WrapperTexts.guardStmt, List.flatMap_append, List.append_assoc]

/-- the variables that are assigned to stand for the results of the wrapper -/
theorem results_of_signature {c : Contract} {mode : Mode} {oracle : Oracle} {sig : Signature}
    (h : Signature.of c mode oracle = .ok sig) :
    sig.wrapper.results = (if sig.resultType = [] then [] else [sig.resultType])
      ++ (if sig.errResult then [errorType] else []) := by
  simp only [Signature.of] at h
  split at h
  · cases h
  · cases h
    rfl

theorem isEmpty_assigned {c : Contract} {mode : Mode} {oracle : Oracle} {sig : Signature}
    (h : Signature.of c mode oracle = .ok sig) :
    sig.assigned.isEmpty = true ↔ sig.wrapper.results = [] := by
  rw [results_of_signature h, Signature.assigned, List.isEmpty_iff]
  split <;> split <;> simp

theorem leaves_declares (t : WrapperTexts) (sig : Signature) (plan : Plan)
    (family : ViolationFamily) :
    Leaves .declareTemps [.declare] (t.parts sig plan family).declares := by
  have hone : ∀ s, Leaves .declareTemps [.declare] [declareStmt s] := by
    intro s u hu
    exact ⟨_, List.mem_singleton.1 hu, rfl, List.mem_cons_self⟩
  have hnone : Leaves .declareTemps [.declare] [] := by
    intro s hs
    cases hs
  refine leaves_append (leaves_append ?_ ?_) ?_
  · split
    · exact hnone
    · exact hone _
  · split
    · exact hone _
    · exact hnone
  · intro s hs
    obtain ⟨d, -, rfl⟩ := List.mem_map.1 hs
    exact hone _ _ List.mem_cons_self

/-- there is one check of the precondition if it is checked at all -/
theorem precondition_spec {c : Contract} {plan : Plan} {f : Renaming} {family : ViolationFamily}
    {t : WrapperTexts} (h : t.Expand c plan f) :
    if checksPrecondition c plan then
      ∃ a, actionsOf .check
          (t.pre.toList.flatMap (checkStmts .checkPrecondition family.precondition)) = [a] ∧
        ExpandsTo f c.precondition a ∧ a.signal = family.precondition
    else t.pre.toList.flatMap (checkStmts .checkPrecondition family.precondition) = [] := by
  have hsome := h.checksPre
  cases hpre : t.pre with
  | none =>
    rw [hpre] at hsome
    rw [← hsome, if_neg (by decide)]
    rfl
  | some p =>
    rw [hpre] at hsome
    rw [← hsome, Option.isSome_some, if_pos rfl]
    have hcheck := (check_spec .checkPrecondition family.precondition p).2
    have htexts := h.pre p (by rw [hpre]; rfl)
    rw [Option.toList_some, List.flatMap_singleton]
    exact ⟨_, hcheck, ⟨p.piece, htexts.1, rfl⟩, rfl⟩

theorem shape_parts {c : Contract} {mode : Mode} {oracle : Oracle} {w : Wrapper}
    {family : ViolationFamily} {sig : Signature} {plan : Plan} {t : WrapperTexts}
    (h : SynthesisSteps c mode oracle w family sig plan t)
    (hsignals : c.xpostCode ≠ [] → t.signals = []) :
    (t.parts sig plan family).Shape c sig plan family w := by
  have hearly := captures_spec .captureEarly (List.rel_append h.texts.early h.texts.preExprs)
  have hlate := captures_spec .captureOldState h.texts.late
  have hnormal := checks_spec family h.texts.posts
  have hcheck := check_spec .checkPrecondition family.precondition
  have hresults : sig.assigned.isEmpty = true ↔ w.results = [] := by
    rw [h.wrapper_eq]
    exact isEmpty_assigned h.sig_eq
  have htarget : w.callTarget = sig.wrapper.callTarget := by rw [h.wrapper_eq]
  refine {
    declares := leaves_declares t sig plan family
    uses := ?_
    early := hearly.1
    earlyTexts := hearly.2
    check := leaves_flatMap (fun p => (hcheck p).1) _
    checkText := precondition_spec h.texts
    late := hlate.1
    lateTexts := hlate.2
    resultTypes := ?_
    guard := ⟨rfl, rfl, ?_⟩
    normal := hnormal.1
    normalChecks := hnormal.2
    propagate := ⟨rfl, rfl⟩
    code := ?_
    selections := ?_
    rethrow := ⟨rfl, rfl⟩
    results := ?_ }
  · intro s hs
    obtain ⟨x, -, rfl⟩ := List.mem_map.1 hs
    exact ⟨_, rfl, rfl, List.mem_cons_self⟩
  · rw [h.wrapper_eq]
    exact results_of_signature h.sig_eq
  · show WrapperTexts.invocation sig = _
    unfold WrapperTexts.invocation
    rw [htarget]
    exact if_congr hresults rfl rfl
  · intro hx
    show List.map _ t.xpostCode ++ List.map _ t.signals = _
    rw [hsignals hx, h.texts.xpostCode, List.map_map, List.map_nil, List.append_nil]
    rfl
  · intro hx
    show List.Forall₂ _ _ (List.map _ t.xpostCode ++ List.map _ t.signals)
    rw [h.texts.xpostCode, hx, List.map_nil, List.map_nil, List.nil_append,
      List.forall₂_map_right_iff]
    exact (h.texts.signals hx).imp fun e p hp => selectsSignals_signalStmt hp
  · show WrapperTexts.returnStmts sig = _
    unfold WrapperTexts.returnStmts
    exact if_congr hresults rfl rfl

/-- Every wrapper can be emitted phase by phase without going back.  It has exactly one guard, which
stands at the top level; declarations come first; and captures, the check of the precondition, the
branches of the guard and the return stand in the order of the parts, for the texts of the contract
and its plan in their order. -/
theorem synthesize_layout {c : Contract} {mode : Mode} {oracle : Oracle} {w : Wrapper}
    (h : synthesize c mode oracle = .ok w) :
    ∃ family sig plan t, ∃ p : WrapperParts, SynthesisSteps c mode oracle w family sig plan t ∧
      t.build sig plan family {} = some ((), ⟨.done, w.stmts⟩) ∧
      (flatten w.stmts).Pairwise (fun a b => a.phase.code ≤ b.phase.code) ∧
      w.stmts = p.stmts ∧
      actionsOf .guard w.stmts = [p.guard] ∧
      actionsOf .declare w.stmts = flatten p.declares ∧
      actionsOf .capture w.stmts = actionsOf .capture p.early ++ actionsOf .capture p.late ∧
      actionsOf .return w.stmts = flatten p.results ∧
      p.Shape c sig plan family w := by
  obtain ⟨family, sig, plan, t, e, hsteps, htexts⟩ := synthesize_texts h
  have hshape := shape_parts hsteps (signals_expandTexts htexts)
  have hstmts : w.stmts = (t.parts sig plan family).stmts := by
    rw [stmts_parts, hsteps.wrapper_eq]
  refine ⟨family, sig, plan, t, t.parts sig plan family, hsteps, ?_, ?_, hstmts, ?_, ?_, ?_, ?_,
    hshape⟩
  · rw [hstmts, stmts_parts]
    exact t.emits_build sig plan family []
  · rw [hstmts]
    exact hshape.inPhases.sorted
  · rw [hstmts]
    exact hshape.actionsOf_guard_stmts
  · rw [hstmts]
    exact hshape.actionsOf_declare_stmts
  · rw [hstmts]
    exact hshape.actionsOf_capture_stmts
  · rw [hstmts]
    exact hshape.actionsOf_return_stmts

/-- a method with a result, whose precondition reads old state and whose postcondition has a
quantifier -/
def takeContract : Contract where
  method := {
    name := "Take", owner := "Queue", receiver := "q", pointerReceiver := true
    returnType := "int", returnsError := true, visibility := .of .pub }
  pre := .set .empty 0 "n > 0"
  post := .set .empty 0 "(\\forall i int; 0 <= i && i < n; q.at(i) > 0)"
  xpost := .set .empty 0 [⟨"*EmptyError", "e", "e.Len == m"⟩]
  oldVars := .set .empty 0 [⟨"n int/n = q.size"⟩, ⟨"m int/m = q.limit"⟩]

theorem synthesize_layout_takeContract :
    ∃ w, synthesize takeContract .direct (Oracle.scanning []) = .ok w ∧
      ∃ family sig plan t, ∃ p : WrapperParts,
        SynthesisSteps takeContract .direct (Oracle.scanning []) w family sig plan t ∧
        t.build sig plan family {} = some ((), ⟨.done, w.stmts⟩) ∧
        w.stmts = p.stmts ∧ actionsOf .guard w.stmts = [p.guard] ∧
        p.Shape takeContract sig plan family w := by
  have hok : (synthesize takeContract .direct (Oracle.scanning [])).isOk := by
    -- the kernel is slow in reading the characters of a literal, so they are put in its place
    unfold takeContract
    repeat rw [String.toList_ofList]
    decide +kernel
  cases h : synthesize takeContract .direct (Oracle.scanning []) with
  | error e =>
    rw [h] at hok
    cases hok
  | ok w =>
    obtain ⟨family, sig, plan, t, p, hsteps, hbuild, -, hstmts, hguard, -, -, -, hshape⟩ :=
      synthesize_layout h
    exact ⟨w, rfl, family, sig, plan, t, p, hsteps, hbuild, hstmts, hguard, hshape⟩

end ContractChecks
