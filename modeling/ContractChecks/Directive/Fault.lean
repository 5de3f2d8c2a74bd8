import ContractChecks.Contract.Context
import ContractChecks.Report.Position

/-!
# Faults of directives

Why the directives of a declaration give no contract.  `DirectiveFault.message` is the wording of
each cause.  Whether an expression can be read, and which type it has, is decided elsewhere; the
reason for a failure there is passed on as a text.
-/

namespace ContractChecks

inductive DirectiveFault where
  | unknownDirective (kind : Text)
  | unknownVisibility (word : Text)
  /-- an old directive without a right side -/
  | oldShape (text : Text)
  | oldUnnamed (text : Text)
  | letShape (text : Text)
  | signalsShape (text : Text)
  | signalsUnbalanced (text : Text)
  | signalsVariable (text var : Text)
  /-- old state asked for where the state is not changed yet -/
  | oldBeforeCall (text : Text)
  | oldArgument (text : Text)
  | noResult (text : Text)
  | unknownKeyword (text keyword : Text)
  /-- the argument of an old expression is no expression -/
  | unreadableOld (inner reason : Text)
  /-- the right side of an old directive is no expression -/
  | unreadableOldVar (name reason : Text)
  | functionLiteral (text : Text)
  | untyped (text reason : Text)
  | notValue (text : Text)
  | genericFunction
  /-- the type of a receiver goes by another name than its own -/
  | aliasedReceiver (type : Text)
  | genericReceiver
  | resultCount (n : Nat)
  | constructorMethod
  | foreignConstructor
  /-- the cause, found in the directive at a position -/
  | located (pos : Option Position) (cause : DirectiveFault)
deriving DecidableEq, Repr

namespace DirectiveFault

def message : DirectiveFault → Text
  | .unknownDirective k => "unknown directive rac:" ++ k
  | .unknownVisibility w => "unknown visibility " ++ w.quote
  | .oldShape t => "rac:old " ++ t.quote ++ ": expecting <ident> [<Type>] = <expr>"
  | .oldUnnamed t => "rac:old " ++ t.quote ++ ": missing identifier"
  | .letShape t => "rac:let " ++ t.quote ++ ": expecting <ident> = <expr>"
  | .signalsShape t => "rac:signals " ++ t.quote ++ ": expecting (<Type> [var])"
  | .signalsUnbalanced t => "rac:signals " ++ t.quote ++ ": unbalanced parentheses"
  | .signalsVariable t v => "rac:signals " ++ t.quote ++ ": bad variable " ++ v.quote
  | .oldBeforeCall t => t ++ ": \\old is only allowed in postconditions"
  | .oldArgument t => t ++ ": expecting \\old(<expr>)"
  | .noResult t => t ++ ": \\result is not available here"
  | .unknownKeyword t k => t ++ ": unknown keyword " ++ k
  | .unreadableOld e why => "\\old(" ++ e ++ "): " ++ why
  | .unreadableOldVar n why => "rac:old " ++ n ++ ": " ++ why
  | .functionLiteral t => t ++ ": cannot capture a function literal"
  | .untyped t why =>
    "cannot determine the type of " ++ t ++ "; declare it with rac:old: " ++ why
  | .notValue t => t ++ " is not a value"
  | .genericFunction => "generic functions are not supported"
  | .aliasedReceiver t => "unexpected receiver type " ++ t
  | .genericReceiver => "methods of generic types are not supported"
  | .resultCount n =>
    Text.ofNat n ++ " results are not supported; expecting (T), (error) or (T, error)"
  | .constructorMethod => "a method cannot be a constructor"
  | .foreignConstructor => "a constructor must return a type declared in its package"
  | .located pos cause => "at " ++ positionText pos ++ ": " ++ cause.message

end DirectiveFault

def Tier.parse (word : Text) : Except DirectiveFault Tier :=
  match Tier.parse? word with
  | some t => .ok t
  | none => .error (.unknownVisibility word)

end ContractChecks
