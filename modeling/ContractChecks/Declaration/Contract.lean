import ContractChecks.Capture.Guard
import ContractChecks.Declaration.Basic

/-!
# Contracts from directives

The directives of a declaration are read in order.  Those of one spec case are collected until the
next case begins; a case with no clause and no old variable is skipped.

* `Draft`: the contract read so far, with the clauses of the current case;
* `Draft.step`: reads one directive;
* `Draft.flush`: ends the current case;
* `Declaration.contract`: the contract of a declaration.
-/

namespace ContractChecks

/-- the predicates joined by conjunction; one predicate stands alone -/
def conjunction : List Text → Text
  | [] => "true"
  | [p] => p
  | ps => Text.join " && " (ps.map fun p => "(" ++ p ++ ")")

/-- the contract read so far -/
structure Draft where
  captures : Captures := {}
  /-- the current spec case -/
  index : Int := 0
  /-- the preconditions of the current case -/
  requires : List Text := []
  /-- the normal postconditions of the current case -/
  ensures : List Text := []
  pre : CaseTable Text := {}
  post : CaseTable Text := {}
  xpost : CaseTable (List Signals) := {}
  preExprDecls : List Text := []
  preExprs : List Text := []
  crosscut : Bool := false

namespace Draft

/-- whether the current case has no clause and no old variable -/
def isIdle (b : Draft) : Bool :=
  b.requires.isEmpty && b.ensures.isEmpty && !b.xpost.contains b.index
    && !b.captures.oldVars.contains b.index

/-- ends the current case -/
def flush (b : Draft) : Draft :=
  if b.isIdle then b
  else
    { b with
      index := b.index + 1
      requires := []
      ensures := []
      pre := b.pre.set b.index (conjunction b.requires)
      post := if b.ensures.isEmpty then b.post else b.post.set b.index (conjunction b.ensures) }

/-- reads an expression, and keeps what it captures -/
def read {α : Type} (b : Draft) (m : ReadM α) : Except DirectiveFault (α × Draft) :=
  match m.run b.captures with
  | .ok a c => .ok (a, { b with captures := c })
  | .error f _ => .error f

/-- reads one directive -/
def step (sc : Scope) (b : Draft) (dir : Directive) : Except DirectiveFault Draft :=
  match dir.kind with
  | .also => .ok b.flush
  | .constructor | .visibility => .ok b
  | .crosscut => .ok { b with crosscut := true }
  | .ensures => do
    let (t, b) ← b.read (sc.postText b.index dir.text)
    return { b with ensures := b.ensures ++ [t] }
  | .let => do
    let f ← LetForm.parse dir.text
    let t ← sc.preText f.expr
    return { b with
      preExprDecls := b.preExprDecls ++ [f.name]
      preExprs := b.preExprs ++ [f.name ++ " = " ++ t] }
  | .old => do
    let (_, b) ← b.read (sc.readOldVar b.index dir.text)
    return b
  | .requires => do
    let t ← sc.preText dir.text
    return { b with requires := b.requires ++ [t] }
  | .signals => do
    let s ← Signals.parse dir.text
    let (t, b) ← b.read (sc.postText b.index s.pred)
    return { b with xpost := b.xpost.append b.index [{ s with pred := t }] }

/-- reads one directive; a failure names its position -/
def stepLocated (sc : Scope) (b : Draft) (dir : Directive) : Except DirectiveFault Draft :=
  (step sc b dir).mapError (.located dir.pos)

/-- the contract of a method, once all directives are read -/
def contract (b : Draft) (m : Method) : Contract :=
  { method := m
    pre := b.pre
    post := b.post
    xpost := b.xpost
    oldVars := b.captures.oldVars
    oldExprDecls := b.captures.oldExprDecls
    oldExprs := b.captures.oldExprs
    preExprDecls := b.preExprDecls
    preExprs := b.preExprs }

end Draft

def Method.resultName (m : Method) : Text :=
  if m.constructor then objectName else if m.returnType = [] then [] else resultVar

structure DeclaredContract where
  contract : Contract
  /-- whether the method intercepts other members -/
  crosscut : Bool := false

namespace Declaration

/-- the names that stand for the keywords of a declaration -/
def scope (d : Declaration) (m : Method) : Scope :=
  { this := m.receiverName, result := m.resultName, eval := d.eval }

def contract (d : Declaration) : Except DirectiveFault DeclaredContract := do
  let m ← d.method
  let b ← d.directives.foldlM (Draft.stepLocated (d.scope m)) {}
  return { contract := (b.flush.contract m).guardCaptures, crosscut := b.crosscut }

end Declaration

end ContractChecks
