import ContractChecks.Proofs.Synthesis
import ContractChecks.Proofs.WrapperCommands

/-!
# Texts of the statements of a wrapper

The statements of a wrapper have texts of two sorts: pieces that come out of an expansion, with the
closures they call, and texts that are written as they are.

* `Contract.expandedTexts c plan`: the texts of a contract that are expanded;
* `mem_stmtTexts`: the texts of all statements of a wrapper;
* `WrapperTexts.Expand.exists_action`: each expanded text has a statement.
-/

namespace ContractChecks

/-- the pieces of a wrapper in which quantifiers were expanded -/
def WrapperTexts.pieces (t : WrapperTexts) : List Expansion :=
  t.early ++ (t.preExprs ++ (t.pre.toList.map CheckPiece.piece ++ (t.late
    ++ (t.posts.map CheckPiece.piece ++ t.signals.map fun s => s.check.piece))))

def Contract.expandedTexts (c : Contract) (plan : Plan) : List Text :=
  plan.early ++ (plan.preExprs ++ ((if checksPrecondition c plan then [c.precondition] else [])
    ++ (plan.late ++ ((checkedPosts c).map Prod.snd
    ++ if c.xpostCode.isEmpty then (checkedSignals c).map (fun e => e.2.pred) else []))))

theorem mem_expandedTexts {c : Contract} {plan : Plan} {s : Text} :
    s ∈ c.expandedTexts plan ↔ s ∈ plan.early ∨ s ∈ plan.preExprs ∨
      (checksPrecondition c plan = true ∧ s = c.precondition) ∨ s ∈ plan.late ∨
      s ∈ (checkedPosts c).map Prod.snd ∨
      (c.xpostCode = [] ∧ s ∈ (checkedSignals c).map fun e => e.2.pred) := by
  have hite : ∀ {b : Prop} [Decidable b] {l : List Text}, s ∈ (if b then l else []) ↔ b ∧ s ∈ l := by
    intro b _ l
    by_cases hb : b
    · rw [if_pos hb, and_iff_right hb]
    · rw [if_neg hb]
      exact iff_of_false List.not_mem_nil fun h => hb h.1
  simp only [Contract.expandedTexts, List.mem_append, hite, List.mem_singleton, List.isEmpty_iff]

/-! ### the texts of the statements -/

theorem stmtTexts_append (ss ts : List Stmt) :
    stmtTexts (ss ++ ts) = stmtTexts ss ++ stmtTexts ts := by
  rw [stmtTexts, flatten_append, List.map_append]
  rfl

theorem stmtTexts_flatMap {α : Type} (g : α → List Stmt) (l : List α) :
    stmtTexts (l.flatMap g) = l.flatMap fun x => stmtTexts (g x) := by
  induction l with
  | nil => rfl
  | cons x l ih => rw [List.flatMap_cons, stmtTexts_append, ih, List.flatMap_cons]

theorem stmtTexts_map_leaf {α : Type} (g : α → Action) (l : List α) :
    stmtTexts (l.map fun x => .leaf (g x)) = l.map fun x => (g x).text := by
  induction l with
  | nil => rfl
  | cons x l ih =>
    show (g x).text :: stmtTexts (l.map fun x => .leaf (g x)) = _
    rw [ih]
    rfl

/-- a piece is emitted as its closures and one more statement -/
theorem stmtTexts_piece (phase : Phase) (x : Expansion) {a : Action} (ha : a.text = x.text) :
    stmtTexts (closureStmts phase x ++ [.leaf a]) = checkReads x := by
  rw [stmtTexts_append, closureStmts, stmtTexts_map_leaf]
  show x.decls.map (fun d => d) ++ [a.text] = _
  rw [List.map_id', ha]
  rfl

theorem stmtTexts_captures (phase : Phase) (xs : List Expansion) :
    stmtTexts (xs.flatMap (captureStmts phase)) = xs.flatMap checkReads := by
  rw [stmtTexts_flatMap]
  congr 1
  funext x
  exact stmtTexts_piece phase x rfl

theorem stmtTexts_checks (phase : Phase) (signal : ViolationKind) (ps : List CheckPiece) :
    stmtTexts (ps.flatMap (checkStmts phase signal)) = ps.flatMap fun p => checkReads p.piece := by
  rw [stmtTexts_flatMap]
  congr 1
  funext p
  exact stmtTexts_piece phase p.piece rfl

theorem stmtTexts_signals (signal : ViolationKind) (ps : List SignalPiece) :
    stmtTexts (ps.map (signalStmt signal)) = ps.flatMap fun p => [] :: checkReads p.check.piece := by
  induction ps with
  | nil => rfl
  | cons p ps ih =>
    have hone : stmtTexts [signalStmt signal p] = [] :: checkReads p.check.piece := by
      have hbody := stmtTexts_piece .exceptionalPath p.check.piece (a := {
        phase := .exceptionalPath, kind := .checkCause, text := p.check.piece.text
        signal := signal, message := p.check.message }) rfl
      rw [← hbody]
      simp [stmtTexts, signalStmt, flatten, Stmt.actions]
    rw [List.map_cons, ← List.singleton_append, stmtTexts_append, hone, ih, List.flatMap_cons]

/-- texts that are emitted without expansion -/
def WrapperTexts.plainTexts (t : WrapperTexts) (sig : Signature) (plan : Plan) : List Text :=
  stmtTexts (t.declarations sig plan) ++ WrapperTexts.invocation sig :: t.xpostCode
    ++ stmtTexts (WrapperTexts.returnStmts sig) ++ [[]]

theorem stmtTexts_guardStmt (t : WrapperTexts) (sig : Signature) (family : ViolationFamily) :
    stmtTexts [t.guardStmt sig family] = WrapperTexts.invocation sig
      :: (t.posts.flatMap (fun p => checkReads p.piece) ++ ([] :: (t.xpostCode
        ++ (t.signals.flatMap (fun p => [] :: checkReads p.check.piece) ++ [[]])))) := by
  have hbranches : stmtTexts [t.guardStmt sig family] = WrapperTexts.invocation sig
      :: (stmtTexts (t.normalBranch family) ++ stmtTexts (t.exceptionalBranch sig family)) := by
    simp [stmtTexts, WrapperTexts.guardStmt, flatten, Stmt.actions]
  rw [hbranches, WrapperTexts.normalBranch, stmtTexts_checks, WrapperTexts.exceptionalBranch,
    stmtTexts_append, stmtTexts_append, stmtTexts_append, stmtTexts_map_leaf, stmtTexts_signals]
  simp [stmtTexts, flatten, Stmt.leaf, Stmt.actions]

theorem mem_stmtTexts {t : WrapperTexts} {sig : Signature} {plan : Plan} {family : ViolationFamily}
    {s : Text} :
    s ∈ stmtTexts (t.stmts sig plan family) ↔
      s ∈ t.plainTexts sig plan ∨ ∃ x ∈ t.pieces, s ∈ checkReads x := by
  rw [WrapperTexts.stmts, stmtTexts_append, stmtTexts_append, stmtTexts_append, stmtTexts_append,
    stmtTexts_append, stmtTexts_append, stmtTexts_captures, stmtTexts_captures, stmtTexts_checks,
    stmtTexts_captures, stmtTexts_guardStmt]
  simp only [WrapperTexts.plainTexts, WrapperTexts.pieces, List.mem_append, List.mem_cons,
    List.mem_flatMap, List.mem_map, List.not_mem_nil, or_false]
  grind

/-! ### every text has a statement -/

/-- the texts of the contract and its plan, one for one with the pieces of the wrapper -/
theorem WrapperTexts.Expand.pieces {c : Contract} {plan : Plan} {f : Renaming} {t : WrapperTexts}
    (h : t.Expand c plan f) (hsignals : c.xpostCode ≠ [] → t.signals = []) :
    List.Forall₂ (Expands f) (c.expandedTexts plan) t.pieces := by
  have hpre : List.Forall₂ (Expands f) (if checksPrecondition c plan then [c.precondition] else [])
      (t.pre.toList.map CheckPiece.piece) := by
    rw [← h.checksPre]
    cases hp : t.pre with
    | none => exact .nil
    | some p => exact .cons (h.pre p hp).1 .nil
  have hposts : List.Forall₂ (Expands f) ((checkedPosts c).map Prod.snd)
      (t.posts.map CheckPiece.piece) := by
    rw [List.forall₂_map_left_iff, List.forall₂_map_right_iff]
    exact h.posts.imp fun _ _ hp => hp.1
  have hsig : List.Forall₂ (Expands f) (if c.xpostCode.isEmpty then
      (checkedSignals c).map (fun e => e.2.pred) else []) (t.signals.map fun s => s.check.piece) := by
    by_cases hx : c.xpostCode = []
    · rw [if_pos (List.isEmpty_iff.2 hx), List.forall₂_map_left_iff, List.forall₂_map_right_iff]
      exact (h.signals hx).imp fun _ _ hp => hp.1
    · rw [if_neg fun hempty => hx (List.isEmpty_iff.1 hempty), hsignals hx]
      exact .nil
  exact List.rel_append h.early (List.rel_append h.preExprs (List.rel_append hpre
    (List.rel_append h.late (List.rel_append hposts hsig))))

theorem WrapperTexts.Expand.exists_action {c : Contract} {plan : Plan} {f : Renaming}
    {t : WrapperTexts} (h : t.Expand c plan f) (hsignals : c.xpostCode ≠ [] → t.signals = [])
    {sig : Signature} {family : ViolationFamily} {s : Text} (hs : s ∈ c.expandedTexts plan) :
    ∃ a ∈ flatten (t.stmts sig plan family), ∃ x, Expands f s x ∧ a.text = x.text := by
  obtain ⟨x, hx, hexp⟩ := exists_of_forall₂ (h.pieces hsignals) hs
  have hmem : x.text ∈ stmtTexts (t.stmts sig plan family) :=
    mem_stmtTexts.2 (.inr ⟨x, hx, List.mem_append_right _ List.mem_cons_self⟩)
  obtain ⟨a, ha, htext⟩ := List.mem_map.1 hmem
  exact ⟨a, ha, x, hexp, htext⟩

end ContractChecks
