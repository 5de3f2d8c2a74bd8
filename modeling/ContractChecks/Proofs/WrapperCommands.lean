import ContractChecks.Proofs.Command
import ContractChecks.Wrapper.Synthesis

/-!
# The commands of a wrapper

The statements that are built from the texts of a wrapper, read as commands.

* `PlainStmts`: declarations, captures and closures, which are emitted as they are written;
* `checkCommands`, `signalCommands`: what a check and a signals clause come to;
* `stmtCommands_checks`, `stmtCommands_signals`, `stmtCommands_exceptionalBranch`: the commands of
  the branches of a guard;
* `source_eq_sourceOf`, `knownStmts_stmts`: the source of a wrapper is the text of its commands.
-/

namespace ContractChecks

def stmtTexts (ss : List Stmt) : List Text := (flatten ss).map Action.text

def checkCommands (kind : ViolationKind) (p : CheckPiece) : List Command :=
  p.piece.decls.map .plain ++ [.check p.piece.text kind p.message]

def signalCommands (kind : ViolationKind) (p : SignalPiece) : List Command :=
  p.check.piece.decls.map .plain ++ [.checkCause p.check.piece.text kind p.check.message]

/-! ### statements emitted as they are written -/

def StmtKind.isPlain : StmtKind → Bool
  | .declare | .capture | .support | .code => true
  | _ => false

/-- statements without statements inside them that are emitted as they are written -/
def PlainStmts (ss : List Stmt) : Prop := ∀ s ∈ ss, ∃ a, s = .leaf a ∧ a.kind.isPlain

theorem commands_leaf_of_isPlain {a : Action} (h : a.kind.isPlain) :
    (Stmt.leaf a).commands = [.plain a.text] := by
  unfold Stmt.leaf Stmt.commands
  cases hk : a.kind <;> simp_all [StmtKind.isPlain]

theorem stmtCommands_of_plain {ss : List Stmt} (h : PlainStmts ss) :
    stmtCommands ss = (stmtTexts ss).map .plain := by
  induction ss with
  | nil => rfl
  | cons s ss ih =>
    obtain ⟨a, rfl, ha⟩ := h s List.mem_cons_self
    rw [stmtCommands, commands_leaf_of_isPlain ha, ih fun s hs => h s (List.mem_cons_of_mem _ hs)]
    rfl

theorem plainStmts_append {ss ts : List Stmt} (hs : PlainStmts ss) (ht : PlainStmts ts) :
    PlainStmts (ss ++ ts) := by
  intro s h
  rcases List.mem_append.1 h with h | h
  · exact hs s h
  · exact ht s h

theorem plainStmts_map {α : Type} {g : α → Action} (h : ∀ x, (g x).kind.isPlain) (l : List α) :
    PlainStmts (l.map fun x => .leaf (g x)) := by
  intro s hs
  obtain ⟨x, _, rfl⟩ := List.mem_map.1 hs
  exact ⟨g x, rfl, h x⟩

theorem plainStmts_singleton {a : Action} (h : a.kind.isPlain) : PlainStmts [.leaf a] := by
  intro s hs
  exact ⟨a, List.mem_singleton.1 hs, h⟩

theorem plainStmts_closureStmts (phase : Phase) (x : Expansion) :
    PlainStmts (closureStmts phase x) := plainStmts_map (fun _ => rfl) _

theorem plainStmts_captures (phase : Phase) (xs : List Expansion) :
    PlainStmts (xs.flatMap (captureStmts phase)) := by
  intro s hs
  obtain ⟨x, _, hs⟩ := List.mem_flatMap.1 hs
  exact plainStmts_append (plainStmts_closureStmts phase x) (plainStmts_singleton rfl) s hs

theorem plainStmts_declarations (t : WrapperTexts) (sig : Signature) (plan : Plan) :
    PlainStmts (t.declarations sig plan) := by
  unfold WrapperTexts.declarations
  refine plainStmts_append (plainStmts_append (plainStmts_append ?_ ?_) ?_) ?_
  · split
    · intro s hs
      cases hs
    · exact plainStmts_singleton rfl
  · split
    · exact plainStmts_singleton rfl
    · intro s hs
      cases hs
  · exact plainStmts_map (fun _ => rfl) _
  · exact plainStmts_map (fun _ => rfl) _

theorem stmtCommands_closureStmts (phase : Phase) (x : Expansion) :
    stmtCommands (closureStmts phase x) = x.decls.map .plain := by
  rw [stmtCommands_of_plain (plainStmts_closureStmts phase x)]
  congr 1
  unfold closureStmts
  induction x.decls with
  | nil => rfl
  | cons d ds ih =>
    show d :: stmtTexts (ds.map _) = d :: ds
    rw [ih]

/-! ### the branches of a guard -/

theorem stmtCommands_checks (phase : Phase) (kind : ViolationKind) (ps : List CheckPiece) :
    stmtCommands (ps.flatMap (checkStmts phase kind)) = ps.flatMap (checkCommands kind) := by
  rw [stmtCommands_flatMap]
  congr 1
  funext p
  unfold checkStmts checkCommands
  rw [stmtCommands_append, stmtCommands_closureStmts]
  rfl

theorem commands_signalStmt (kind : ViolationKind) (p : SignalPiece) :
    (signalStmt kind p).commands = [.select p.var p.type (signalCommands kind p)] := by
  unfold signalStmt Stmt.commands signalCommands
  simp only
  rw [stmtCommands_append, stmtCommands_closureStmts]
  rfl

theorem stmtCommands_signals (kind : ViolationKind) (ps : List SignalPiece) :
    stmtCommands (ps.map (signalStmt kind))
      = ps.map fun p => .select p.var p.type (signalCommands kind p) := by
  induction ps with
  | nil => rfl
  | cons p ps ih =>
    rw [List.map_cons, stmtCommands, commands_signalStmt, ih]
    rfl

theorem stmtCommands_exceptionalBranch {t : WrapperTexts} (hx : t.xpostCode = [])
    (sig : Signature) (family : ViolationFamily) :
    stmtCommands (t.exceptionalBranch sig family)
      = .propagate
        :: ((t.signals.map fun p =>
            .select p.var p.type (signalCommands family.exceptionalPost p))
          ++ [if sig.errResult then .when .noError [.raise] else .raise]) := by
  unfold WrapperTexts.exceptionalBranch
  rw [hx, stmtCommands_append, stmtCommands_append, stmtCommands_signals]
  rfl

/-! ### statements for which there is code -/

/-- statements of known kinds, for which there is code -/
def KnownStmts (ss : List Stmt) : Prop := ∀ a ∈ flatten ss, a.kind.isKnown

theorem knownStmts_append {ss ts : List Stmt} (hs : KnownStmts ss) (ht : KnownStmts ts) :
    KnownStmts (ss ++ ts) := by
  intro a ha
  rw [flatten_append] at ha
  rcases List.mem_append.1 ha with h | h
  · exact hs a h
  · exact ht a h

theorem knownStmts_flatMap {α : Type} {g : α → List Stmt} (h : ∀ x, KnownStmts (g x))
    (l : List α) : KnownStmts (l.flatMap g) := by
  induction l with
  | nil =>
    intro a ha
    cases ha
  | cons x l ih =>
    rw [List.flatMap_cons]
    exact knownStmts_append (h x) ih

theorem knownStmts_singleton {s : Stmt} (h : ∀ a ∈ s.actions, a.kind.isKnown) :
    KnownStmts [s] := by
  intro a ha
  rw [flatten, flatten, List.append_nil] at ha
  exact h a ha

theorem knownStmts_leaf {a : Action} (h : a.kind.isKnown) : KnownStmts [.leaf a] := by
  apply knownStmts_singleton
  intro b hb
  cases List.mem_singleton.1 hb
  exact h

theorem knownStmts_of_plain {ss : List Stmt} (h : PlainStmts ss) : KnownStmts ss := by
  induction ss with
  | nil =>
    intro a ha
    cases ha
  | cons s ss ih =>
    obtain ⟨a, rfl, ha⟩ := h s List.mem_cons_self
    have hknown : a.kind.isKnown := by
      cases hk : a.kind <;> simp_all [StmtKind.isPlain, StmtKind.isKnown]
    exact knownStmts_append (knownStmts_leaf hknown) (ih fun s hs => h s (List.mem_cons_of_mem _ hs))

theorem knownStmts_checks (phase : Phase) (kind : ViolationKind) (ps : List CheckPiece) :
    KnownStmts (ps.flatMap (checkStmts phase kind)) := by
  apply knownStmts_flatMap
  intro p
  exact knownStmts_append (knownStmts_of_plain (plainStmts_closureStmts phase p.piece))
    (knownStmts_leaf rfl)

theorem knownStmts_signals (kind : ViolationKind) (ps : List SignalPiece) :
    KnownStmts (ps.map (signalStmt kind)) := by
  rw [List.map_eq_flatMap]
  refine knownStmts_flatMap (fun p => knownStmts_singleton ?_) ps
  intro a ha
  have hbody := knownStmts_append (knownStmts_of_plain
    (plainStmts_closureStmts .exceptionalPath p.check.piece)) (knownStmts_leaf (a := {
      phase := .exceptionalPath, kind := .checkCause, text := p.check.piece.text
      signal := kind, message := p.check.message }) rfl)
  unfold signalStmt at ha
  rw [Stmt.actions, flatten, List.append_nil, List.append_nil] at ha
  rcases List.mem_cons.1 ha with rfl | h
  · rfl
  · exact hbody a h

theorem knownStmts_guardStmt (t : WrapperTexts) (sig : Signature) (family : ViolationFamily) :
    KnownStmts [t.guardStmt sig family] := by
  apply knownStmts_singleton
  have hnormal : KnownStmts (t.normalBranch family) := knownStmts_checks _ _ _
  have hexceptional : KnownStmts (t.exceptionalBranch sig family) :=
    knownStmts_append (knownStmts_append (knownStmts_append (knownStmts_leaf rfl)
      (knownStmts_of_plain (plainStmts_map (fun _ => rfl) _))) (knownStmts_signals _ _))
      (knownStmts_leaf rfl)
  intro a ha
  unfold WrapperTexts.guardStmt at ha
  rw [Stmt.actions, flatten, List.nil_append] at ha
  rcases List.mem_cons.1 ha with rfl | h
  · rfl
  · rcases List.mem_append.1 h with h | h
    · exact hnormal a h
    · exact hexceptional a h

theorem knownStmts_stmts (t : WrapperTexts) (sig : Signature) (plan : Plan)
    (family : ViolationFamily) : KnownStmts (t.stmts sig plan family) := by
  have hret : KnownStmts (WrapperTexts.returnStmts sig) := by
    unfold WrapperTexts.returnStmts
    split
    · intro a ha
      cases ha
    · exact knownStmts_leaf rfl
  refine knownStmts_append (knownStmts_append (knownStmts_append (knownStmts_append
    (knownStmts_of_plain ?_) (knownStmts_checks _ _ _)) (knownStmts_of_plain ?_))
    (knownStmts_guardStmt t sig family)) hret
  · exact plainStmts_append (plainStmts_append (plainStmts_declarations t sig plan)
      (plainStmts_captures _ _)) (plainStmts_captures _ _)
  · exact plainStmts_captures _ _

/-- the source of a wrapper whose body is the text of the given commands -/
def Wrapper.sourceOf (w : Wrapper) (style : CodeStyle) (cs : List Command) : Text :=
  docSource style w.doc ++ lineSource (bracedSource w.header (commandsSource style cs))

theorem source_eq_sourceOf {w : Wrapper} (h : KnownStmts w.stmts) (style : CodeStyle) :
    w.source style = .ok (w.sourceOf style (stmtCommands w.stmts)) := by
  unfold Wrapper.source
  rw [blockSource_eq style w.stmts h]
  rfl

end ContractChecks
