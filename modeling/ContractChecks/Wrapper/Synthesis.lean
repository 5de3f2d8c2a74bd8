import ContractChecks.Capture.Plan
import ContractChecks.Quantifier.Expansion
import ContractChecks.Violation.Family
import ContractChecks.Wrapper.Signature

/-!
# Synthesis of wrappers

A wrapper declares its temporaries, captures old state, checks the precondition where the captured
state requires it, and invokes the checked method exactly once under a guard.  A normal return is
checked against every normal postcondition; a signal is checked against the exceptional
postconditions and raised again.  Violations raised by nested checks are never handled by the
exceptional path.

* `WrapperTexts`: all texts of the wrapper with their quantifiers expanded;
* `expandTexts`: the texts in the order in which closures are numbered;
* `WrapperTexts.stmts`: the statements built from them;
* `synthesize c mode oracle`: the wrapper of a contract.
-/

namespace ContractChecks

/-- a check with the closures it calls and the message of its violation -/
structure CheckPiece where
  piece : Expansion
  message : Text
deriving DecidableEq, Repr

structure SignalPiece where
  check : CheckPiece
  type : Text
  /-- the variable the signal is bound to, empty if nothing reads it -/
  var : Text
deriving DecidableEq, Repr

structure WrapperTexts where
  early : List Expansion
  preExprs : List Expansion
  pre : Option CheckPiece
  late : List Expansion
  posts : List CheckPiece
  signals : List SignalPiece
  /-- code that takes the place of the signals -/
  xpostCode : List Text
deriving DecidableEq, Repr

/-- expansion can fail, and hands out the numbers of closures -/
abbrev SynthM := StateT Expander (Except Fault)

/-- expands the quantifiers of a text of spec case `index` -/
def expandText (f : Renaming) (index : Int) (s : Text) : SynthM Expansion := fun e =>
  match e.expand s f with
  | (.ok x, e') => .ok (x, e')
  | (.error q, _) => .error (.clause index (.quantifier q))

def checkMessage (m : Method) (f : Renaming) (s : Text) : Text := m.text ++ ": " ++ rename f s

def expandPost (m : Method) (f : Renaming) (e : Int × Text) : SynthM CheckPiece := do
  let x ← expandText f e.1 e.2
  return ⟨x, checkMessage m f e.2⟩

def pieceReads (x : Expansion) (name : Text) : Bool :=
  references (x.text ++ Text.join "\n" x.decls) name

def expandSignals (m : Method) (f : Renaming) (e : Int × Signals) : SynthM SignalPiece := do
  let x ← expandText f e.1 e.2.pred
  return {
    check := ⟨x, checkMessage m f e.2.text⟩
    type := e.2.typeOrAny
    var := if pieceReads x e.2.var then e.2.var else [] }

/-- the signals clauses that can fail, with their spec cases -/
def checkedSignals (c : Contract) : List (Int × Signals) :=
  (c.xpost.entries.flatMap fun e => e.2.map fun s => (e.1, s)).filter fun p => assertable p.2.pred

/-- the normal postconditions that can fail, with their spec cases -/
def checkedPosts (c : Contract) : List (Int × Text) :=
  c.post.entries.filter fun e => assertable e.2

def checksPrecondition (c : Contract) (plan : Plan) : Bool :=
  plan.checkPrecondition && assertable c.precondition

def expandPre (c : Contract) (plan : Plan) (f : Renaming) : SynthM (Option CheckPiece) :=
  if checksPrecondition c plan then do
    let x ← expandText f (-1) c.precondition
    return some ⟨x, checkMessage c.method f c.precondition⟩
  else return none

/-- the texts of a wrapper, expanded in the order in which closures are numbered -/
def expandTexts (c : Contract) (plan : Plan) (f : Renaming) : SynthM WrapperTexts := do
  let early ← plan.early.mapM (expandText f (-1))
  let preExprs ← plan.preExprs.mapM (expandText f (-1))
  let pre ← expandPre c plan f
  let late ← plan.late.mapM (expandText f (-1))
  let posts ← (checkedPosts c).mapM (expandPost c.method f)
  let signals ←
    if c.xpostCode.isEmpty then (checkedSignals c).mapM (expandSignals c.method f)
    else pure []
  return ⟨early, preExprs, pre, late, posts, signals, c.xpostCode.map (rename f)⟩

/-! ### what reads a temporary -/

/-- what stands before the braces of a guarded capture, and what stands before the end of them -/
def guardMarks? (stmt : Text) : Option (Text × Text) :=
  if stmt.startsWith "if " then
    match Text.cut? "\x7b\n" stmt, Text.cutLast? "\n\x7d" stmt with
    | some p, some q => if p.1.length < q.1.length then some (p.1, q.1) else none
    | _, _ => none
  else none

/-- condition and body of a guarded capture; braces that share their line break have no body -/
def guardedParts? (stmt : Text) : Option (Text × Text) :=
  match guardMarks? stmt with
  | some (a, b) =>
    if a.length + 2 ≤ b.length then
      some (a.drop 3, Text.trim ((stmt.take b.length).drop (a.length + 2)))
    else none
  | none => none

theorem length_guardedParts? {stmt cond body : Text} (h : guardedParts? stmt = some (cond, body)) :
    body.length < stmt.length := by
  unfold guardedParts? at h
  split at h
  case h_2 => cases h
  case h_1 a b hmarks =>
    split at h
    case isFalse => cases h
    case isTrue hle =>
      cases h
      have hne : stmt ≠ [] := by
        rintro rfl
        cases hmarks
      have hpos := List.length_pos_iff.2 hne
      have htrim := Text.length_trim_le ((stmt.take b.length).drop (a.length + 2))
      rw [List.length_drop, List.length_take] at htrim
      omega

/-- what an assignment reads: its right side, and for a guarded one also its condition; a
statement that assigns nothing is read as a whole -/
def readPart (stmt : Text) : Text :=
  match _h : guardedParts? stmt with
  | some (cond, body) => cond ++ " " ++ readPart body
  | none =>
    match assignment? stmt with
    | some (lhs, rhs) => if lhs = [] then stmt else rhs
    | none => stmt
termination_by stmt.length
decreasing_by exact length_guardedParts? _h

/-- the bounds between which a guarded capture would have its body, where they are crossed -/
def crossedBounds? (stmt : Text) : Option (Nat × Nat) :=
  match _h : guardedParts? stmt with
  | some (_, body) => crossedBounds? body
  | none => (guardMarks? stmt).map fun p => (p.1.bytes + 2, p.2.bytes)
termination_by stmt.length
decreasing_by exact length_guardedParts? _h

example : crossedBounds? "if ok \x7b\n\x7d" = some (8, 7) ∧
    crossedBounds? "if ok \x7b\nn = s.size\n\x7d" = none := by
  decide +kernel

/-- the texts that read temporaries when a piece is evaluated -/
def checkReads (x : Expansion) : List Text := x.decls ++ [x.text]

/-- the texts that read temporaries when a piece assigns one -/
def captureReads (x : Expansion) : List Text := x.decls ++ [readPart x.text]

namespace WrapperTexts

def reads (t : WrapperTexts) : Text :=
  Text.join "\n"
    (t.early.flatMap captureReads ++ t.preExprs.flatMap captureReads
      ++ t.late.flatMap captureReads
      ++ t.pre.toList.flatMap (fun p => checkReads p.piece)
      ++ t.posts.flatMap (fun p => checkReads p.piece)
      ++ t.signals.flatMap (fun s => checkReads s.check.piece)
      ++ t.xpostCode)

/-- breaks off at a capture that has no body to read from -/
def checkCaptures (t : WrapperTexts) : Except Fault Unit :=
  (t.early ++ t.preExprs ++ t.late).forM fun x =>
    match crossedBounds? x.text with
    | some (i, j) => .error (.outOfRange i j)
    | none => .ok ()

end WrapperTexts

/-! ### statements -/

/-- supporting statements for the closures of a piece -/
def closureStmts (phase : Phase) (x : Expansion) : List Stmt :=
  x.decls.map fun d => .leaf { phase := phase, kind := .support, text := d }

def captureStmts (phase : Phase) (x : Expansion) : List Stmt :=
  closureStmts phase x ++ [.leaf { phase := phase, kind := .capture, text := x.text }]

def declareStmt (s : Text) : Stmt := .leaf { phase := .declareTemps, kind := .declare, text := s }

/-- marks a temporary that nothing reads as used -/
def useStmt (name : Text) : Stmt :=
  .leaf { phase := .declareTemps, kind := .support, text := "_ = " ++ name }

/-- a check that raises a violation of the given kind -/
def checkStmts (phase : Phase) (signal : ViolationKind) (p : CheckPiece) : List Stmt :=
  closureStmts phase p.piece
    ++ [.leaf {
      phase := phase, kind := .check, text := p.piece.text, signal := signal
      message := p.message }]

def signalStmt (signal : ViolationKind) (s : SignalPiece) : Stmt :=
  .node { phase := .exceptionalPath, kind := .select, type := s.type, var := s.var }
    (closureStmts .exceptionalPath s.check.piece
      ++ [.leaf {
        phase := .exceptionalPath, kind := .checkCause, text := s.check.piece.text
        signal := signal, message := s.check.message }]) [] []

namespace WrapperTexts

def declarations (t : WrapperTexts) (sig : Signature) (plan : Plan) : List Stmt :=
  (if sig.resultType = [] then []
    else [declareStmt ("var " ++ resultVar ++ " " ++ sig.resultType)])
    ++ (if sig.errResult then [declareStmt ("var " ++ errorVar ++ " error")] else [])
    ++ plan.decls.map (fun d => declareStmt (rename sig.renames d))
    ++ (plan.temps.filter fun x => !references t.reads x).map useStmt

def normalBranch (t : WrapperTexts) (family : ViolationFamily) : List Stmt :=
  t.posts.flatMap (checkStmts .normalPath family.normalPost)

def exceptionalBranch (t : WrapperTexts) (sig : Signature) (family : ViolationFamily) : List Stmt :=
  [.leaf { phase := .exceptionalPath, kind := .propagate }]
    ++ t.xpostCode.map (fun s => .leaf { phase := .exceptionalPath, kind := .code, text := s })
    ++ t.signals.map (signalStmt family.exceptionalPost)
    ++ [.leaf {
      phase := .exceptionalPath, kind := .rethrow, errorResult := sig.errResult }]

def invocation (sig : Signature) : Text :=
  if sig.assigned.isEmpty then sig.wrapper.callTarget
  else Text.join ", " sig.assigned ++ " = " ++ sig.wrapper.callTarget

def guardStmt (t : WrapperTexts) (sig : Signature) (family : ViolationFamily) : Stmt :=
  .node {
    phase := .invokeMethod, kind := .guard, text := invocation sig
    errorResult := sig.errResult } []
    (t.normalBranch family) (t.exceptionalBranch sig family)

def returnStmts (sig : Signature) : List Stmt :=
  if sig.assigned.isEmpty then []
  else [.leaf { phase := .return, kind := .return, text := Text.join ", " sig.assigned }]

/-- the statements of the wrapper -/
def stmts (t : WrapperTexts) (sig : Signature) (plan : Plan) (family : ViolationFamily) :
    List Stmt :=
  t.declarations sig plan
    ++ t.early.flatMap (captureStmts .captureEarly)
    ++ t.preExprs.flatMap (captureStmts .captureEarly)
    ++ t.pre.toList.flatMap (checkStmts .checkPrecondition family.precondition)
    ++ t.late.flatMap (captureStmts .captureOldState)
    ++ [t.guardStmt sig family]
    ++ returnStmts sig

end WrapperTexts

/-- the wrapper of a contract, without the context of a failure -/
def synthesizeBody (c : Contract) (mode : Mode) (oracle : Oracle) : Except Fault Wrapper := do
  let family ← ViolationFamily.ofVisibility c.method.visibility mode
  let sig ← Signature.of c mode oracle
  let plan ← Plan.extract c oracle
  let t ← (expandTexts c plan sig.renames).run' {}
  t.checkCaptures
  return { sig.wrapper with stmts := t.stmts sig plan family }

/-- the wrapper of a contract; a failure names the method -/
def synthesize (c : Contract) (mode : Mode) (oracle : Oracle) : Except Fault Wrapper :=
  (synthesizeBody c mode oracle).mapError (Fault.reportedFrom c.method.text)

def generatedLine (c : Contract) (w : Wrapper) : Text :=
  "generated " ++ w.name ++ " for " ++ c.method.text

end ContractChecks
