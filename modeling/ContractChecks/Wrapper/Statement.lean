import ContractChecks.Contract.Basic
import ContractChecks.Violation.Kind

/-!
# Statements of a wrapper

A wrapper is a list of statements.  A statement is an action with, for a guard, the branches taken
after a normal return and after a signal, and, for a selection, the body run for the selected
signal.

* `Phase`: the step of synthesis that produced a statement;
* `StmtKind`, `Action`, `Stmt`;
* `flatten ss`: the actions of all statements, depth first in the order of emission;
* `Wrapper`: signature, documentation and statements of a wrapper.
-/

namespace ContractChecks

inductive Phase where
  | init
  | declareTemps
  /-- old state that the precondition depends on -/
  | captureEarly
  | checkPrecondition
  | captureOldState
  | invokeMethod
  | normalPath
  | exceptionalPath
  | return
  | done
  /-- a number that stands for no phase -/
  | unknown (code : Int)
deriving DecidableEq, Repr

namespace Phase

/-- all phases in order -/
def all : List Phase :=
  [.init, .declareTemps, .captureEarly, .checkPrecondition, .captureOldState, .invokeMethod,
   .normalPath, .exceptionalPath, .return, .done]

def code : Phase → Int
  | .init => 0
  | .declareTemps => 1
  | .captureEarly => 2
  | .checkPrecondition => 3
  | .captureOldState => 4
  | .invokeMethod => 5
  | .normalPath => 6
  | .exceptionalPath => 7
  | .return => 8
  | .done => 9
  | .unknown n => n

def ofCode (n : Int) : Phase := (all.find? fun p => p.code = n).getD (.unknown n)

def text : Phase → Text
  | .init => "Init"
  | .declareTemps => "DeclareTemps"
  | .captureEarly => "CaptureEarly"
  | .checkPrecondition => "CheckPrecondition"
  | .captureOldState => "CaptureOldState"
  | .invokeMethod => "InvokeOriginal"
  | .normalPath => "NormalPath"
  | .exceptionalPath => "ExceptionalPath"
  | .return => "Return"
  | .done => "Done"
  | .unknown n => "Phase(" ++ Text.ofInt n ++ ")"

end Phase

inductive StmtKind where
  /-- declares a temporary -/
  | declare
  /-- records old state or evaluates a pre-expression -/
  | capture
  /-- supporting code, such as a quantifier closure -/
  | support
  /-- raises a violation if a predicate is false -/
  | check
  /-- a check that records the caught signal -/
  | checkCause
  /-- invokes the checked method and branches on the outcome -/
  | guard
  /-- passes violations of nested checks through -/
  | propagate
  /-- runs a body if the caught signal has a given type -/
  | select
  /-- code emitted as it is -/
  | code
  /-- raises the caught signal again -/
  | rethrow
  | return
  /-- a number that stands for no kind -/
  | unknown (code : Int)
deriving DecidableEq, Repr

namespace StmtKind

/-- all kinds in the order of their numbers -/
def all : List StmtKind :=
  [.declare, .capture, .support, .check, .checkCause, .guard, .propagate, .select, .code,
   .rethrow, .return]

def number : StmtKind → Int
  | .declare => 1
  | .capture => 2
  | .support => 3
  | .check => 4
  | .checkCause => 5
  | .guard => 6
  | .propagate => 7
  | .select => 8
  | .code => 9
  | .rethrow => 10
  | .return => 11
  | .unknown n => n

def ofNumber (n : Int) : StmtKind := (all.find? fun k => k.number = n).getD (.unknown n)

end StmtKind

/-- what a statement does, apart from the statements inside it -/
structure Action where
  phase : Phase := .init
  kind : StmtKind
  /-- the source of the statement, the predicate of a check or the invocation of a guard -/
  text : Text := []
  /-- the violation raised by a check -/
  signal : ViolationKind := .unknown 0
  message : Text := []
  /-- the type and the variable bound by a selection -/
  type : Text := []
  var : Text := []
  /-- whether the checked method reports failures through a trailing error -/
  errorResult : Bool := false
deriving DecidableEq, Repr

inductive Stmt where
  | node (action : Action) (body normal exceptional : List Stmt)
deriving Repr

namespace Stmt

def action : Stmt → Action
  | .node a _ _ _ => a

/-- a statement without statements inside it -/
def leaf (a : Action) : Stmt := .node a [] [] []

end Stmt

mutual

/-- the action of a statement and those of the statements inside it, depth first -/
def Stmt.actions : Stmt → List Action
  | .node a b n e => a :: (flatten b ++ flatten n ++ flatten e)

/-- the actions of all statements, depth first -/
def flatten : List Stmt → List Action
  | [] => []
  | s :: ss => s.actions ++ flatten ss

end

theorem flatten_append (ss ts : List Stmt) : flatten (ss ++ ts) = flatten ss ++ flatten ts := by
  induction ss with
  | nil => rfl
  | cons s ss ih => simp [flatten, ih]

structure Wrapper where
  name : Text := []
  doc : Text := []
  mode : Mode := .direct
  /-- the expression that invokes the checked method -/
  callTarget : Text := []
  /-- the receiver, if the wrapper is a method -/
  recv : Option Param := none
  params : List Param := []
  results : List Text := []
  stmts : List Stmt := []
deriving Repr

end ContractChecks
