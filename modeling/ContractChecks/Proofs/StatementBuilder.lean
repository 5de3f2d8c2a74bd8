import ContractChecks.Wrapper.Synthesis

/-!
# Emitting the statements of a wrapper

The statements of a wrapper can be emitted one after the other into a buffer, phase by phase.  A
phase that has been left is never entered again; the branches of a guard and the bodies of
selections are emitted like everything else and then taken out of the buffer.

* `Builder`, `BuildM`: a buffer with its phase, and what is done to it;
* `BuildM.enter`: goes on to a phase, and fails if that phase is past;
* `BuildM.Emits p x q ss`: from phase `p` on, `x` emits the statements `ss` and ends in phase `q`;
* `WrapperTexts.build`: the emission of a wrapper;
* `WrapperTexts.emits_build`: it never enters a past phase, and emits the statements of the wrapper.
-/

namespace ContractChecks

structure Builder where
  phase : Phase := .init
  stmts : List Stmt := []

abbrev BuildM := StateT Builder Option

namespace BuildM

/-- goes on to a phase; there is no way back -/
def enter (p : Phase) : BuildM Unit := fun b =>
  if b.phase.code ≤ p.code then some ((), { b with phase := p }) else none

def emit (a : Action) (body : List Stmt) : BuildM Unit := fun b =>
  some ((), { b with stmts := b.stmts ++ [.node { a with phase := b.phase } body [] []] })

def emitUnless (c : Prop) [Decidable c] (a : Action) : BuildM Unit :=
  if c then pure () else emit a []

/-- puts a finished statement into the buffer -/
def put (s : Stmt) : BuildM Unit := fun b => some ((), { b with stmts := b.stmts ++ [s] })

def mark : BuildM Nat := fun b => some (b.stmts.length, b)

/-- takes out what has been emitted since a mark -/
def take (m : Nat) : BuildM (List Stmt) := fun b =>
  some (b.stmts.drop m, { b with stmts := b.stmts.take m })

/-- emits the closures of a piece and then the statement made of its text -/
def emitPiece (a : Action) (x : Expansion) : BuildM Unit := do
  x.decls.forM fun d => emit { kind := .support, text := d } []
  emit { a with text := x.text } []

def emitCheck (signal : ViolationKind) (p : CheckPiece) : BuildM Unit :=
  emitPiece { kind := .check, signal := signal, message := p.message } p.piece

/-- emits the body of a selection, takes it out again and emits the selection -/
def emitSignal (signal : ViolationKind) (s : SignalPiece) : BuildM Unit := do
  let m ← mark
  emitPiece { kind := .checkCause, signal := signal, message := s.check.message } s.check.piece
  let body ← take m
  emit { kind := .select, type := s.type, var := s.var } body

end BuildM

namespace WrapperTexts
open BuildM

def buildDeclarations (t : WrapperTexts) (sig : Signature) (plan : Plan) : BuildM Unit := do
  enter .declareTemps
  emitUnless (sig.resultType = [])
    { kind := .declare, text := "var " ++ resultVar ++ " " ++ sig.resultType }
  emitUnless (¬sig.errResult) { kind := .declare, text := "var " ++ errorVar ++ " error" }
  plan.decls.forM fun d => emit { kind := .declare, text := rename sig.renames d } []
  (plan.temps.filter fun x => !references t.reads x).forM fun x =>
    emit { kind := .support, text := "_ = " ++ x } []

/-- the phase of the precondition is entered only if there is a check of it -/
def buildPrecondition (family : ViolationFamily) : Option CheckPiece → BuildM Unit
  | none => enter .captureOldState
  | some p => do
    enter .checkPrecondition
    emitCheck family.precondition p
    enter .captureOldState

def buildCaptures (t : WrapperTexts) (family : ViolationFamily) : BuildM Unit := do
  enter .captureEarly
  t.early.forM (emitPiece { kind := .capture })
  t.preExprs.forM (emitPiece { kind := .capture })
  buildPrecondition family t.pre
  t.late.forM (emitPiece { kind := .capture })

def buildExceptional (t : WrapperTexts) (sig : Signature) (family : ViolationFamily) :
    BuildM Unit := do
  enter .exceptionalPath
  emit { kind := .propagate } []
  t.xpostCode.forM fun s => emit { kind := .code, text := s } []
  t.signals.forM (emitSignal family.exceptionalPost)
  emit { kind := .rethrow, errorResult := sig.errResult } []

/-- emits both branches, takes them out of the buffer from the same mark on, and puts in the guard -/
def buildGuard (t : WrapperTexts) (sig : Signature) (family : ViolationFamily) : BuildM Unit := do
  let m ← mark
  t.posts.forM (emitCheck family.normalPost)
  let normal ← take m
  t.buildExceptional sig family
  let exceptional ← take m
  put (.node {
    phase := .invokeMethod, kind := .guard, text := invocation sig
    errorResult := sig.errResult } [] normal exceptional)

/-- emits a wrapper -/
def build (t : WrapperTexts) (sig : Signature) (plan : Plan) (family : ViolationFamily) :
    BuildM Unit := do
  t.buildDeclarations sig plan
  t.buildCaptures family
  enter .invokeMethod
  enter .normalPath
  t.buildGuard sig family
  enter .return
  emitUnless sig.assigned.isEmpty { kind := .return, text := Text.join ", " sig.assigned }
  enter .done

end WrapperTexts

namespace BuildM

/-- from phase `p` on, `x` emits `ss` and ends in phase `q` -/
def Emits (p : Phase) (x : BuildM Unit) (q : Phase) (ss : List Stmt) : Prop :=
  ∀ front, x ⟨p, front⟩ = some ((), ⟨q, front ++ ss⟩)

theorem emits_enter {p q : Phase} (h : p.code ≤ q.code) : Emits p (enter q) q [] := by
  intro front
  rw [List.append_nil]
  exact if_pos h

theorem emits_emit (p : Phase) (a : Action) (body : List Stmt) :
    Emits p (emit a body) p [.node { a with phase := p } body [] []] := fun _ => rfl

theorem emits_pure (p : Phase) : Emits p (pure ()) p [] := by
  intro front
  rw [List.append_nil]
  rfl

theorem emits_emitUnless (p : Phase) (c : Prop) [Decidable c] (a : Action) :
    Emits p (emitUnless c a) p (if c then [] else [.leaf { a with phase := p }]) := by
  unfold emitUnless
  split
  · exact emits_pure p
  · exact emits_emit p a []

theorem Emits.seq {p q r : Phase} {x y : BuildM Unit} {ss ts : List Stmt} (hx : Emits p x q ss)
    (hy : Emits q y r ts) : Emits p (do x; y) r (ss ++ ts) := by
  intro front
  show (x ⟨p, front⟩).bind _ = _
  rw [hx front]
  show y ⟨q, front ++ ss⟩ = _
  rw [hy, List.append_assoc]

theorem Emits.forM {α : Type} {p : Phase} {g : α → BuildM Unit} {ts : α → List Stmt}
    (h : ∀ x, Emits p (g x) p (ts x)) (l : List α) : Emits p (l.forM g) p (l.flatMap ts) := by
  induction l with
  | nil => exact emits_pure p
  | cons x l ih =>
    show Emits p (do g x; l.forM g) p (ts x ++ l.flatMap ts)
    exact (h x).seq ih

/-- what has been emitted since a mark is taken out again -/
theorem Emits.take {p q : Phase} {x : BuildM Unit} {ss : List Stmt} (hx : Emits p x q ss)
    {k : List Stmt → BuildM Unit} (front : List Stmt) :
    (do x; k (← BuildM.take front.length)) ⟨p, front⟩ = k ss ⟨q, front⟩ := by
  show (x ⟨p, front⟩).bind _ = _
  rw [hx front]
  show k ((front ++ ss).drop front.length) ⟨q, (front ++ ss).take front.length⟩ = _
  rw [List.drop_left, List.take_left]

theorem emits_emitPiece (p : Phase) (a : Action) (x : Expansion) :
    Emits p (emitPiece a x) p
      (closureStmts p x ++ [.leaf { a with text := x.text, phase := p }]) := by
  have hclosures := Emits.forM (fun d => emits_emit p { kind := .support, text := d } []) x.decls
  rw [← List.map_eq_flatMap] at hclosures
  exact hclosures.seq (emits_emit p { a with text := x.text } [])

theorem emits_emitSignal (signal : ViolationKind) (s : SignalPiece) :
    Emits .exceptionalPath (emitSignal signal s) .exceptionalPath [signalStmt signal s] := by
  intro front
  have hbody := emits_emitPiece .exceptionalPath
    { kind := .checkCause, signal := signal, message := s.check.message } s.check.piece
  exact hbody.take front

theorem emits_pieces (p : Phase) (xs : List Expansion) :
    Emits p (xs.forM (emitPiece { kind := .capture })) p (xs.flatMap (captureStmts p)) :=
  Emits.forM (emits_emitPiece p { kind := .capture }) xs

theorem emits_emitCheck (p : Phase) (signal : ViolationKind) (q : CheckPiece) :
    Emits p (emitCheck signal q) p (checkStmts p signal q) :=
  emits_emitPiece p { kind := .check, signal := signal, message := q.message } q.piece

theorem emits_checks (p : Phase) (signal : ViolationKind) (ps : List CheckPiece) :
    Emits p (ps.forM (emitCheck signal)) p (ps.flatMap (checkStmts p signal)) :=
  Emits.forM (emits_emitCheck p signal) ps

end BuildM

namespace WrapperTexts
open BuildM

theorem emits_buildDeclarations (t : WrapperTexts) (sig : Signature) (plan : Plan) :
    Emits .init (t.buildDeclarations sig plan) .declareTemps (t.declarations sig plan) := by
  have henter : Emits .init (enter .declareTemps) .declareTemps [] := emits_enter (by decide)
  have hresult := emits_emitUnless .declareTemps (sig.resultType = [])
    { kind := .declare, text := "var " ++ resultVar ++ " " ++ sig.resultType }
  have herror := emits_emitUnless .declareTemps (¬sig.errResult)
    { kind := .declare, text := "var " ++ errorVar ++ " error" }
  have hdecls := Emits.forM (fun d => emits_emit .declareTemps
    { kind := .declare, text := rename sig.renames d } []) plan.decls
  have huses := Emits.forM (fun x => emits_emit .declareTemps
    { kind := .support, text := "_ = " ++ x } []) (plan.temps.filter fun x => !references t.reads x)
  rw [ite_not] at herror
  have hall := henter.seq (hresult.seq (herror.seq (hdecls.seq huses)))
  unfold declarations
  rw [List.append_assoc, List.append_assoc, List.map_eq_flatMap, List.map_eq_flatMap]
  exact hall

theorem emits_buildPrecondition (family : ViolationFamily) (pre : Option CheckPiece) :
    Emits .captureEarly (buildPrecondition family pre) .captureOldState
      (pre.toList.flatMap (checkStmts .checkPrecondition family.precondition)) := by
  cases pre with
  | none => exact emits_enter (by decide)
  | some p =>
    have henter : Emits .captureEarly (enter .checkPrecondition) .checkPrecondition [] :=
      emits_enter (by decide)
    have hleave : Emits .checkPrecondition (enter .captureOldState) .captureOldState [] :=
      emits_enter (by decide)
    exact henter.seq ((emits_emitCheck _ family.precondition p).seq hleave)

theorem emits_buildCaptures (t : WrapperTexts) (family : ViolationFamily) :
    Emits .declareTemps (t.buildCaptures family) .captureOldState
      (t.early.flatMap (captureStmts .captureEarly)
        ++ (t.preExprs.flatMap (captureStmts .captureEarly)
        ++ (t.pre.toList.flatMap (checkStmts .checkPrecondition family.precondition)
        ++ t.late.flatMap (captureStmts .captureOldState)))) := by
  have henter : Emits .declareTemps (enter .captureEarly) .captureEarly [] :=
    emits_enter (by decide)
  exact henter.seq ((emits_pieces _ t.early).seq ((emits_pieces _ t.preExprs).seq
    ((emits_buildPrecondition family t.pre).seq (emits_pieces _ t.late))))

theorem emits_buildExceptional (t : WrapperTexts) (sig : Signature) (family : ViolationFamily) :
    Emits .normalPath (t.buildExceptional sig family) .exceptionalPath
      (t.exceptionalBranch sig family) := by
  have henter : Emits .normalPath (enter .exceptionalPath) .exceptionalPath [] :=
    emits_enter (by decide)
  have hcode := Emits.forM (fun s => emits_emit .exceptionalPath
    { kind := .code, text := s } []) t.xpostCode
  have hsignals := Emits.forM (emits_emitSignal family.exceptionalPost) t.signals
  have hall := henter.seq ((emits_emit .exceptionalPath { kind := .propagate } []).seq (hcode.seq
    (hsignals.seq (emits_emit .exceptionalPath
      { kind := .rethrow, errorResult := sig.errResult } []))))
  unfold exceptionalBranch
  rw [List.append_assoc, List.append_assoc, List.map_eq_flatMap, List.map_eq_flatMap]
  exact hall

theorem emits_buildGuard (t : WrapperTexts) (sig : Signature) (family : ViolationFamily) :
    Emits .normalPath (t.buildGuard sig family) .exceptionalPath [t.guardStmt sig family] := by
  intro front
  have hnormal := emits_checks .normalPath family.normalPost t.posts
  have hexceptional := t.emits_buildExceptional sig family
  exact (hnormal.take front).trans (hexceptional.take front)

/-- no past phase is entered, and what is emitted are the statements of the wrapper -/
theorem emits_build (t : WrapperTexts) (sig : Signature) (plan : Plan) (family : ViolationFamily) :
    Emits .init (t.build sig plan family) .done (t.stmts sig plan family) := by
  have hinvoke : Emits .captureOldState (enter .invokeMethod) .invokeMethod [] :=
    emits_enter (by decide)
  have hnormal : Emits .invokeMethod (enter .normalPath) .normalPath [] := emits_enter (by decide)
  have hreturn : Emits .exceptionalPath (enter .return) .return [] := emits_enter (by decide)
  have hdone : Emits .return (enter .done) .done [] := emits_enter (by decide)
  have hresults := emits_emitUnless .return sig.assigned.isEmpty
    { kind := .return, text := Text.join ", " sig.assigned }
  have hall := (t.emits_buildDeclarations sig plan).seq ((t.emits_buildCaptures family).seq
    (hinvoke.seq (hnormal.seq ((t.emits_buildGuard sig family).seq
      (hreturn.seq (hresults.seq hdone))))))
  have hstmts : t.stmts sig plan family = t.declarations sig plan ++
      ((t.early.flatMap (captureStmts .captureEarly)
        ++ (t.preExprs.flatMap (captureStmts .captureEarly)
        ++ (t.pre.toList.flatMap (checkStmts .checkPrecondition family.precondition)
        ++ t.late.flatMap (captureStmts .captureOldState))))
        ++ ([] ++ ([] ++ ([t.guardStmt sig family] ++ ([] ++ (returnStmts sig ++ [])))))) := by
    simp only [stmts, List.append_assoc, List.nil_append, List.append_nil]
  rw [hstmts]
  exact hall

end WrapperTexts

end ContractChecks
