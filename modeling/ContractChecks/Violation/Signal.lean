import ContractChecks.Violation.Kind

/-!
# Signals at run time

What the code of a wrapper calls while it runs.  A method ends exceptionally by raising a signal:
an error or any other value.  A failed check raises a violation, which is an error itself and may
record the signal that was being processed as its cause.

* `ValueType`, `MethodSet`: the type of a value, by its name and its methods;
* `ErrorSignal`: errors, with wrapping and with violations among them;
* `Signal`: whatever can be raised;
* `SignalType`: a type by which signals are selected, one type of values or all types with some
  methods;
* `check`, `checkCause`, `notReached`, `propagate`: these raise a signal or do nothing;
* `Signal.select T s`: the part of `s` that has type `T`; errors are unwrapped.
-/

namespace ContractChecks

/-- the methods that the values of a type have -/
structure MethodSet where
  /-- whether they have the method that makes them errors -/
  error : Bool := false
  /-- the other methods -/
  others : List Text := []
deriving DecidableEq, Repr

def MethodSet.covers (methods wanted : MethodSet) : Bool :=
  (methods.error || !wanted.error) && wanted.others.all fun m => methods.others.contains m

structure ValueType where
  /-- the name, if other code can refer to the type -/
  name : Option Text
  methods : MethodSet
deriving DecidableEq, Repr

inductive ErrorSignal where
  | plain (text : Text)
  /-- an error with a number -/
  | coded (n : Int)
  | flagged (text : Text)
  /-- an error of any other type, which may have more methods and another error under it -/
  | declared (name : Text) (others : List Text) (text : Text) (inner : Option ErrorSignal)
  /-- an error that adds context to another -/
  | wrapped (context : Text) (inner : ErrorSignal)
  | violation (kind : ViolationKind) (message : Text) (cause : Option ErrorSignal)
deriving Repr

namespace ErrorSignal

def text : ErrorSignal → Text
  | .plain t => t
  | .coded n => "code " ++ Text.ofInt n
  | .flagged t => "flag " ++ t
  | .declared _ _ t _ => t
  | .wrapped context inner => context ++ ": " ++ inner.text
  | .violation kind message none => kind.text ++ ": " ++ message
  | .violation kind message (some cause) => kind.text ++ ": " ++ message ++ ": " ++ cause.text

/-- the error under the outermost layer -/
def inner? : ErrorSignal → Option ErrorSignal
  | .declared _ _ _ inner => inner
  | .wrapped _ inner => some inner
  | .violation _ _ cause => cause
  | _ => none

/-- the error and all errors under it, outermost first -/
def chain : ErrorSignal → List ErrorSignal
  | .declared name others text (some inner) =>
    .declared name others text (some inner) :: inner.chain
  | .wrapped context inner => .wrapped context inner :: inner.chain
  | .violation kind message (some cause) => .violation kind message (some cause) :: cause.chain
  | e => [e]

/-- the type of the error itself; that of plain errors and of layers of context has no name -/
def type : ErrorSignal → ValueType
  | .plain _ => ⟨none, { error := true }⟩
  | .coded _ => ⟨some "code", { error := true, others := ["Code"] }⟩
  | .flagged _ => ⟨some "flag", { error := true }⟩
  | .declared name others _ _ => ⟨some name, { error := true, others := others }⟩
  | .wrapped _ _ => ⟨none, { error := true }⟩
  | .violation _ _ _ => ⟨some "Violation", { error := true, others := ["Cause", "Unwrap"] }⟩

end ErrorSignal

/-- a raised value, or nothing -/
inductive Signal where
  | none
  | text (t : Text)
  | number (n : Int)
  | truth (b : Bool)
  | error (e : ErrorSignal)
deriving Repr

namespace Signal

def isNone : Signal → Bool
  | .none => true
  | _ => false

def nothingRaised : Text := "panic called with nil argument (use GODEBUG=panicnil=1 to disable)"

/-- the signal that arrives when a signal is raised; nothing cannot be raised, and an error that
says so takes its place -/
def raised : Signal → Signal
  | .none => .error (.plain nothingRaised)
  | s => s

theorem isNone_raised (s : Signal) : s.raised.isNone = false := by
  cases s <;> rfl

/-- the signal as an error; what is no error becomes a plain one with the text it is printed as -/
def toError? : Signal → Option ErrorSignal
  | .none => Option.none
  | .text t => some (.plain t)
  | .number n => some (.plain (Text.ofInt n))
  | .truth b => some (.plain (if b then "true" else "false"))
  | .error e => some e

/-- the type of a raised value; nothing has none -/
def type? : Signal → Option ValueType
  | .none => Option.none
  | .text _ => some ⟨some "string", {}⟩
  | .number _ => some ⟨some "int", {}⟩
  | .truth _ => some ⟨some "bool", {}⟩
  | .error e => some e.type

end Signal

inductive SignalType where
  /-- one type of values -/
  | concrete (name : Text) (methods : MethodSet)
  /-- all types that have the methods -/
  | interface (methods : MethodSet)
deriving DecidableEq, Repr

namespace SignalType

/-- every signal -/
def any : SignalType := .interface {}

/-- every error -/
def error : SignalType := .interface { error := true }

def numbered : SignalType := .interface { others := ["Code"] }

def text : SignalType := .concrete "string" {}

def number : SignalType := .concrete "int" {}

def coded : SignalType := .concrete "code" { error := true, others := ["Code"] }

def flagged : SignalType := .concrete "flag" { error := true }

def violation : SignalType := .concrete "Violation" { error := true, others := ["Cause", "Unwrap"] }

/-- whether the values of a type are selected -/
def admits : SignalType → ValueType → Bool
  | .concrete name methods, d => d.name = some name && d.methods = methods
  | .interface methods, d => d.methods.covers methods

/-- whether a single error, without those under it, has the type -/
def matchesError (t : SignalType) (e : ErrorSignal) : Bool := t.admits e.type

def isErrorType : SignalType → Bool
  | .concrete _ methods => methods.error
  | .interface _ => true

def matchesSignal (t : SignalType) (s : Signal) : Bool := s.type?.any t.admits

end SignalType

/-- the part of a signal that has the type: the signal itself, or the outermost of the errors
under it -/
def Signal.select (t : SignalType) (s : Signal) : Option Signal :=
  if t.matchesSignal s then some s
  else
    match s with
    | .error e =>
      if t.isErrorType then (e.chain.find? t.matchesError).map .error else Option.none
    | _ => Option.none

/-! ### raising -/

/-- a computation that may raise a signal -/
abbrev Raising := Except Signal

/-- raises a violation if the condition is false -/
def check (ok : Bool) (kind : ViolationKind) (message : Text) : Raising Unit :=
  if ok then .ok () else .error (.error (.violation kind message none))

/-- a check that records the caught signal as the cause of the violation -/
def checkCause (ok : Bool) (kind : ViolationKind) (caught : Signal) (message : Text) :
    Raising Unit :=
  if ok then .ok () else .error (.error (.violation kind message caught.toError?))

/-- raises a violation again, so that no enclosing exceptional path handles it -/
def propagate (caught : Signal) : Raising Unit :=
  match caught with
  | .error (.violation kind message cause) => .error (.error (.violation kind message cause))
  | _ => .ok ()

def notReached (place : Text) : Raising Unit :=
  .error (.error (.violation .unreachable (place ++ ": unreachable code reached") none))

/-- the signal that a computation raised, or nothing -/
def caughtBy {α : Type} : Raising α → Signal
  | .ok _ => .none
  | .error s => s

end ContractChecks
