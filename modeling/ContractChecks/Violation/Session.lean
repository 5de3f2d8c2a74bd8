import ContractChecks.Violation.Signal

/-!
# Sessions

A session is a sequence of calls around one caught signal, as the code of a wrapper makes them.
A step that raises a signal ends its level; a guard runs a level of its own and catches what it
raises.

`runSteps steps caught` gives the steps that were completed with what they gave, in the order of
completion, and the signal that ended the level, if any.
-/

namespace ContractChecks

inductive Step where
  | check (ok : Bool) (kind : ViolationKind) (message : Text)
  | checkCause (ok : Bool) (kind : ViolationKind) (message : Text)
  | notReached (place : Text)
  | raise (signal : Signal)
  /-- raises the caught signal, if there is one -/
  | rethrow
  | setCaught (signal : Signal)
  | propagate
  | guard (body : List Step)
  | select (type : SignalType)
deriving Repr

/-- what a completed step gave -/
inductive StepOutcome where
  | checked
  | checkedCause
  | rethrown
  | set
  | propagated
  | caught (signal : Signal)
  | selected (signal : Option Signal)
  | reached
  | raised
deriving Repr

/-- the completed steps and the signal that ended a level -/
structure SessionResult where
  trace : List StepOutcome := []
  raised : Signal := .none
deriving Repr

mutual

/-- one step: what it completed, and the caught signal after it or the signal it raised -/
def runStep (caught : Signal) : Step → List StepOutcome × Except Signal Signal
  | .check ok kind message =>
    match check ok kind message with
    | .ok _ => ([.checked], .ok caught)
    | .error s => ([], .error s)
  | .checkCause ok kind message =>
    match checkCause ok kind caught message with
    | .ok _ => ([.checkedCause], .ok caught)
    | .error s => ([], .error s)
  | .notReached place =>
    match notReached place with
    | .ok _ => ([.reached], .ok caught)
    | .error s => ([], .error s)
  | .raise s => ([], .error s.raised)
  | .rethrow => if caught.isNone then ([.rethrown], .ok caught) else ([], .error caught)
  | .setCaught s => ([.set], .ok s)
  | .propagate =>
    match propagate caught with
    | .ok _ => ([.propagated], .ok caught)
    | .error s => ([], .error s)
  | .guard body =>
    let r := runSteps caught body
    (r.trace ++ [.caught r.raised], .ok r.raised)
  | .select t => ([.selected (caught.select t)], .ok caught)

def runSteps (caught : Signal) : List Step → SessionResult
  | [] => {}
  | s :: ss =>
    match runStep caught s with
    | (done, .error raised) => { trace := done, raised := raised }
    | (done, .ok caught') =>
      let r := runSteps caught' ss
      { r with trace := done ++ r.trace }

end

end ContractChecks
