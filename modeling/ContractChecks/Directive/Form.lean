import ContractChecks.Contract.Signals
import ContractChecks.Directive.Fault
import ContractChecks.Source.Bracket
import ContractChecks.Source.Operator

/-!
# The forms of directive texts

* `OldForm.parse`: a name, a type that can be left out, an equals sign and an expression;
* `LetForm.parse`: a name, an equals sign and an expression;
* `Signals.parse`: a type and a variable in parentheses, and a predicate; everything but the
  parentheses can be left out.
-/

namespace ContractChecks

structure OldForm where
  name : Text
  /-- empty if it is to be found out -/
  type : Text
  expr : Text
deriving DecidableEq, Repr

structure LetForm where
  name : Text
  expr : Text
deriving DecidableEq, Repr

/-- both sides of an assignment, empty if the text is none -/
def assignmentSides (text : Text) : Text × Text := (assignment? text).getD ([], [])

def OldForm.parse (text : Text) : Except DirectiveFault OldForm :=
  let p := assignmentSides text
  if p.2 = [] then .error (.oldShape text)
  else
    let name := leadingName p.1
    if name = [] then .error (.oldUnnamed text)
    else .ok { name := name, type := Text.trim (p.1.drop name.length), expr := p.2 }

def LetForm.parse (text : Text) : Except DirectiveFault LetForm :=
  let p := assignmentSides text
  if p.2 = [] || !isName p.1 then .error (.letShape text)
  else .ok { name := p.1, expr := p.2 }

/-- a predicate that is left out holds always -/
def orTrue (pred : Text) : Text := if pred = [] then "true" else pred

/-- the type and the variable named by the words in parentheses -/
def Signals.ofWords (text pred : Text) : List Text → Except DirectiveFault Signals
  | [] => .ok { pred := pred }
  | [type] => .ok { type := type, pred := pred }
  | [type, var] =>
    if isName var then .ok { type := type, var := var, pred := pred }
    else .error (.signalsVariable text var)
  | _ => .error (.signalsShape text)

def Signals.parse (text : Text) : Except DirectiveFault Signals :=
  if text.startsWith "(" then
    match cutClose text with
    | some (inside, rest) =>
      Signals.ofWords text (orTrue (Text.trim (rest.drop 1))) (Text.words (inside.drop 1))
    | none => .error (.signalsUnbalanced text)
  else .error (.signalsShape text)

end ContractChecks
