import ContractChecks.Contract.Signals

/-!
# Clauses

The four sorts of clause, each with the spec case that declared it and the predicate it states.
-/

namespace ContractChecks

inductive ClauseKind where
  | precondition
  | normalPost
  | exceptionalPost
  | unreachable
  /-- a number that stands for no kind -/
  | unknown (code : Int)
deriving DecidableEq, Repr

namespace ClauseKind

def ofCode (n : Int) : ClauseKind :=
  if n = 1 then .precondition
  else if n = 2 then .normalPost
  else if n = 3 then .exceptionalPost
  else if n = 4 then .unreachable
  else .unknown n

def text : ClauseKind → Text
  | .precondition => "precondition"
  | .normalPost => "normal postcondition"
  | .exceptionalPost => "exceptional postcondition"
  | .unreachable => "unreachable"
  | .unknown n => "ClauseKind(" ++ Text.ofInt n ++ ")"

end ClauseKind

inductive Clause where
  /-- must hold on entry -/
  | precondition (index : Int) (pred : Text)
  /-- must hold after a normal return -/
  | normalPost (index : Int) (pred : Text)
  /-- must hold when a signal is raised -/
  | exceptionalPost (index : Int) (signals : Signals)
  /-- marks a point that control must never reach -/
  | unreachable (index : Int)
deriving DecidableEq, Repr

namespace Clause

def kind : Clause → ClauseKind
  | .precondition _ _ => .precondition
  | .normalPost _ _ => .normalPost
  | .exceptionalPost _ _ => .exceptionalPost
  | .unreachable _ => .unreachable

def specCase : Clause → Int
  | .precondition i _ => i
  | .normalPost i _ => i
  | .exceptionalPost i _ => i
  | .unreachable i => i

def pred : Clause → Text
  | .precondition _ p => p
  | .normalPost _ p => p
  | .exceptionalPost _ s => s.pred
  | .unreachable _ => "false"

def signals? : Clause → Option Signals
  | .exceptionalPost _ s => some s
  | _ => none

end Clause

end ContractChecks
