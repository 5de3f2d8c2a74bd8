import ContractChecks.Contract.Context
import ContractChecks.Quantifier.Fault

/-!
# Faults of contracts

Why a contract cannot be read, composed or turned into a wrapper.  `Fault.message` is the wording
of each cause; a fault can be reported from within a context, which is named in front of it.
-/

namespace ContractChecks

/-- the tables of a contract that refer to spec cases declared elsewhere -/
inductive DependentTable where
  | normalPost
  | exceptionalPost
  | oldVar
  | oldExprDecl
  | oldExpr
deriving DecidableEq, Repr

def DependentTable.text : DependentTable → Text
  | .normalPost => "normal postcondition"
  | .exceptionalPost => "exceptional postcondition"
  | .oldVar => "old variable"
  | .oldExprDecl => "old expression declaration"
  | .oldExpr => "old expression"

inductive ClauseProblem where
  | duplicateCase
  | undeclaredCase (table : DependentTable)
  | unnamedOldVar (var : Text)
  | oldVarTwice (name : Text)
  | reservedName (name : Text)
  | quantifier (fault : QuantifierFault)
deriving DecidableEq, Repr

def ClauseProblem.message : ClauseProblem → Text
  | .duplicateCase => "duplicate spec case"
  | .undeclaredCase t => t.text ++ " refers to an undeclared spec case"
  | .unnamedOldVar v => "cannot find identifier in old variable " ++ v.quote
  | .oldVarTwice n => "old variable " ++ n ++ " declared twice"
  | .reservedName n => n ++ " is reserved"
  | .quantifier f => f.message

inductive CompositionProblem where
  | overrideVisibility (code : Int)
  | inheritedVisibility (code : Int)
  | privateInherited
  | lessVisible (override inherited : Visibility)
  | namesDiffer
  | parameterCount (override inherited : Nat)
deriving DecidableEq, Repr

def CompositionProblem.message : CompositionProblem → Text
  | .overrideVisibility n => "override has unknown visibility " ++ Text.ofInt n
  | .inheritedVisibility n => "inherited method has unknown visibility " ++ Text.ofInt n
  | .privateInherited => "private methods are not inherited"
  | .lessVisible o i => o.text ++ " override of a " ++ i.text ++ " method"
  | .namesDiffer => "method names differ"
  | .parameterCount o i =>
    Text.ofNat o ++ " parameters, expecting " ++ Text.ofNat i

/-- what cannot be generated -/
inductive Unsupported where
  | classification
  | crosscutConstructor
  | abstractBody
  | unboundObject
deriving DecidableEq, Repr

def Unsupported.message : Unsupported → Text
  | .classification => "clause classification"
  | .crosscutConstructor => "crosscut constructor"
  | .abstractBody => "abstract method without a body"
  | .unboundObject => "constructed object without a result binding"

inductive Fault where
  | clause (index : Int) (problem : ClauseProblem)
  | unresolvedOld (index : Int) (token : Text)
  | unknownVisibility (code : Int)
  | composition (override inherited : Text) (problem : CompositionProblem)
  | unsupported (method : Text) (mode : Mode) (feature : Unsupported)
  | quantifier (fault : QuantifierFault)
  /-- a part of a text that would end before it starts -/
  | outOfRange (start stop : Nat)
  | within (context : Text) (cause : Fault)
deriving DecidableEq, Repr

namespace Fault

def message : Fault → Text
  | .clause i p => "malformed clause in spec case " ++ Text.ofInt i ++ ": " ++ p.message
  | .unresolvedOld i tok =>
    "spec case " ++ Text.ofInt i ++ ": old reference " ++ tok.quote ++ " has no capture"
  | .unknownVisibility n => "unknown visibility " ++ Text.ofInt n
  | .composition o i p =>
    "cannot compose contract of " ++ i ++ " into " ++ o ++ ": " ++ p.message
  | .unsupported m mode f =>
    m ++ ": " ++ f.message ++ " is not supported in " ++ mode.text ++ " mode"
  | .quantifier f => f.message
  | .outOfRange i j =>
    "runtime error: slice bounds out of range [" ++ Text.ofNat i ++ ":" ++ Text.ofNat j ++ "]"
  | .within ctx cause => ctx ++ ": " ++ cause.message

/-- the fault as it is reported from a context; one that breaks off the work is not put in it -/
def reportedFrom (context : Text) : Fault → Fault
  | .outOfRange i j => .outOfRange i j
  | f => .within context f

/-- the innermost cause -/
def root : Fault → Fault
  | .within _ cause => cause.root
  | f => f

end Fault

end ContractChecks
