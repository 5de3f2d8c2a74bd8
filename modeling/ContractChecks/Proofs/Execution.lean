import ContractChecks.Proofs.Command
import ContractChecks.Source.Operator
import ContractChecks.Violation.Signal

/-!
# Execution of a wrapper

What the code of a wrapper does when it is run.  The texts inside it (predicates, declarations,
captures, closures, the type of a signal) mean whatever a `Meaning` says, provided that only the
invocation of the checked method raises anything; the tests, the assignments of results and the
calls of the support package mean what they say.

* `SignalClass`, `Signal.selectBy`: selection of signals by an arbitrary type; for the types of
  `SignalType` it is `Signal.select`;
* `Frame`: the variables of a running wrapper, and how often the checked method was invoked;
* `CallOutcome`: how the checked method ended;
* `Meaning`: an interpretation of the texts;
* `Progress`: where a run stands: it goes on, has returned, or has raised a signal;
* `Meaning.run`, `Meaning.runAll`: the run of a command, and of commands one after the other;
* `Meaning.performAll`: the frame after several texts, which is what commands without tests come to.
-/

namespace ContractChecks

/-! ### selection by an arbitrary type -/

/-- a type of signals: which values have it, and whether errors are unwrapped in search of it -/
structure SignalClass where
  has : Signal → Bool
  unwraps : Bool

/-- the part of a signal that has a type: the signal itself, or the outermost of the errors under
it -/
def Signal.selectBy (k : SignalClass) (s : Signal) : Option Signal :=
  if k.has s then some s
  else
    match s with
    | .error e =>
      if k.unwraps then (e.chain.find? fun e => k.has (.error e)).map .error else Option.none
    | _ => Option.none

def SignalType.toClass (t : SignalType) : SignalClass where
  has := t.matchesSignal
  unwraps := t.isErrorType

theorem SignalType.matchesSignal_error (t : SignalType) (e : ErrorSignal) :
    t.matchesSignal (.error e) = t.matchesError e := rfl

theorem Signal.selectBy_toClass (t : SignalType) (s : Signal) :
    s.selectBy t.toClass = s.select t := by
  unfold Signal.selectBy Signal.select
  have h : (fun e => t.toClass.has (.error e)) = t.matchesError := by
    funext e
    exact t.matchesSignal_error e
  rw [h]
  rfl

/-! ### frames -/

/-- the variables of a running wrapper -/
structure Frame (σ ρ : Type) where
  /-- everything that has no place of its own below -/
  memory : σ
  /-- the variable for the result, once it is assigned -/
  result : Option ρ := none
  /-- the variable for a trailing error -/
  err : Option ErrorSignal := none
  /-- the variable for the caught signal -/
  caught : Signal := .none
  /-- how often the checked method was invoked -/
  calls : Nat := 0

inductive Value (ρ : Type) where
  | result (r : Option ρ)
  | err (e : Option ErrorSignal)
deriving Repr

inductive CallOutcome (ρ : Type) where
  | returned (r : ρ) (e : Option ErrorSignal)
  | raised (s : Signal)

/-- an interpretation of the texts in the code of a wrapper -/
structure Meaning (σ ρ : Type) where
  /-- what a declaration, a capture or a closure makes of the memory -/
  perform : Text → Frame σ ρ → σ
  /-- the value of a predicate -/
  holds : Text → Frame σ ρ → Bool
  /-- what the checked method makes of the memory, and how it ends -/
  call : Frame σ ρ → σ × CallOutcome ρ
  /-- the type that a text denotes -/
  typeNamed : Text → SignalClass
  /-- the memory with a variable bound to a selected signal -/
  bind : Text → Signal → Frame σ ρ → σ
  /-- what remains of the memory when the block of a selected signal is left, from the memory
  before it and at its end -/
  leave : σ → σ → σ

/-- where a run stands after some commands -/
inductive Progress (σ ρ : Type) where
  | next (f : Frame σ ρ)
  | returned (f : Frame σ ρ) (values : List (Value ρ))
  | raised (f : Frame σ ρ) (s : Signal)

section
variable {σ ρ : Type}

namespace Progress

/-- goes on with what follows, if the run has not ended -/
def andThen (p : Progress σ ρ) (k : Frame σ ρ → Progress σ ρ) : Progress σ ρ :=
  match p with
  | .next f => k f
  | .returned f vs => .returned f vs
  | .raised f s => .raised f s

theorem andThen_next (f : Frame σ ρ) (k : Frame σ ρ → Progress σ ρ) :
    (next f).andThen k = k f := rfl

theorem andThen_raised (f : Frame σ ρ) (s : Signal) (k : Frame σ ρ → Progress σ ρ) :
    (raised f s).andThen k = .raised f s := rfl

theorem andThen_assoc (p : Progress σ ρ) (j k : Frame σ ρ → Progress σ ρ) :
    (p.andThen j).andThen k = p.andThen fun f => (j f).andThen k := by
  cases p <;> rfl

/-- the end of a computation of the support package, which may raise a signal -/
def ofRaising (f : Frame σ ρ) : Raising Unit → Progress σ ρ
  | .ok () => .next f
  | .error s => .raised f s

/-- the block of a selected signal has been left -/
def leaving (M : Meaning σ ρ) (before : σ) : Progress σ ρ → Progress σ ρ
  | .next f => .next { f with memory := M.leave before f.memory }
  | p => p

end Progress

/-! ### the variables for results -/

def listedNames (s : Text) : List Text := (Text.splitAtChar ',' s).map Text.trim

def assignedNames (s : Text) : List Text :=
  match assignment? s with
  | some (lhs, _) => listedNames lhs
  | none => []

namespace Frame

/-- the results of a call in the variables that the names list -/
def assign (f : Frame σ ρ) (names : List Text) (r : ρ) (e : Option ErrorSignal) : Frame σ ρ :=
  { f with
    result := if resultVar ∈ names then some r else f.result
    err := if errorVar ∈ names then e else f.err }

def values (f : Frame σ ρ) (names : List Text) : List (Value ρ) :=
  names.filterMap fun n =>
    if n = resultVar then some (.result f.result)
    else if n = errorVar then some (.err f.err)
    else none

end Frame

def Test.holds (f : Frame σ ρ) : Test → Bool
  | .caught => !f.caught.isNone
  | .notCaught => f.caught.isNone
  | .onlyError => f.caught.isNone && f.err.isSome
  | .noError => f.err.isNone

namespace Meaning
variable (M : Meaning σ ρ)

/-- the invocation of the checked method under a guard: what it raises is caught, what it returns
is assigned -/
def invoke (text : Text) (f : Frame σ ρ) : Frame σ ρ :=
  let f' := { f with memory := (M.call f).1, calls := f.calls + 1 }
  match (M.call f).2 with
  | .returned r e => { f'.assign (assignedNames text) r e with caught := .none }
  | .raised s => { f' with caught := s.raised }

mutual

def run : Command → Frame σ ρ → Progress σ ρ
  | .plain s, f => .next { f with memory := M.perform s f }
  | .check p k m, f => .ofRaising f (ContractChecks.check (M.holds p f) k m)
  | .checkCause p k m, f => .ofRaising f (ContractChecks.checkCause (M.holds p f) k f.caught m)
  | .invoke s, f => .next (M.invoke s f)
  | .catchError, f => .next { f with caught := (f.err.map Signal.error).getD .none }
  | .propagate, f => .ofRaising f (ContractChecks.propagate f.caught)
  | .raise, f => .raised f f.caught.raised
  | .return s, f => .returned f (f.values (listedNames s))
  | .when t b, f => if t.holds f then runAll b f else .next f
  | .branch t b e, f => if t.holds f then runAll b f else runAll e f
  | .select v t b, f =>
    match f.caught.selectBy (M.typeNamed t) with
    | some s => (runAll b { f with memory := M.bind v s f }).leaving M f.memory
    | none => .next f

def runAll : List Command → Frame σ ρ → Progress σ ρ
  | [], f => .next f
  | c :: cs, f => (run c f).andThen (runAll cs)

end

/-- the frame after texts are performed one after the other -/
def performAll : List Text → Frame σ ρ → Frame σ ρ
  | [], f => f
  | s :: ss, f => performAll ss { f with memory := M.perform s f }

theorem runAll_append (cs ds : List Command) (f : Frame σ ρ) :
    M.runAll (cs ++ ds) f = (M.runAll cs f).andThen (M.runAll ds) := by
  induction cs generalizing f with
  | nil => rfl
  | cons c cs ih =>
    show (M.run c f).andThen (M.runAll (cs ++ ds)) = ((M.run c f).andThen (M.runAll cs)).andThen _
    rw [Progress.andThen_assoc]
    congr 1
    funext g
    exact ih g

theorem runAll_singleton (c : Command) (f : Frame σ ρ) : M.runAll [c] f = M.run c f := by
  show (M.run c f).andThen (M.runAll []) = M.run c f
  cases M.run c f <;> rfl

theorem runAll_plain (ss : List Text) (f : Frame σ ρ) :
    M.runAll (ss.map .plain) f = .next (M.performAll ss f) := by
  induction ss generalizing f with
  | nil => rfl
  | cons s ss ih => exact ih _

theorem performAll_append (ss ts : List Text) (f : Frame σ ρ) :
    M.performAll (ss ++ ts) f = M.performAll ts (M.performAll ss f) := by
  induction ss generalizing f with
  | nil => rfl
  | cons s ss ih => exact ih _

/-- performing texts changes nothing but the memory -/
theorem performAll_eq (ss : List Text) (f : Frame σ ρ) :
    ∃ m, M.performAll ss f = { f with memory := m } := by
  induction ss generalizing f with
  | nil => exact ⟨f.memory, rfl⟩
  | cons s ss ih => exact ih { f with memory := M.perform s f }

end Meaning

end

end ContractChecks
