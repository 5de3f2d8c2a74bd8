import ContractChecks.Text.Quoted

/-!
# Malformed quantifiers

What can be wrong with a quantified expression, and how it is said.
-/

namespace ContractChecks

inductive QuantifierProblem where
  | notParenthesized
  | unbalanced
  | noRangeClause
  | rangeParts
  | untypedSum
  /-- the variables before the sign of a range binding -/
  | badRangeVariables (vars : Text)
  | typedParts
  | badDeclaration (decl : Text)
  | missingType (decl : Text)
  | noLowerBound (var : Text)
  | noUpperBound (var : Text)
  | emptyBody
deriving DecidableEq, Repr

namespace QuantifierProblem

def message : QuantifierProblem → Text
  | .notParenthesized => "quantifiers must be parenthesized"
  | .unbalanced => "unbalanced parentheses"
  | .noRangeClause => "expecting range clause"
  | .rangeParts => "expecting binding; [filter;] body"
  | .untypedSum => "sum requires a typed variable"
  | .badRangeVariables vars => "bad range variables " ++ vars.quote
  | .typedParts => "expecting declaration; range; body"
  | .badDeclaration decl => "bad declaration " ++ decl.quote
  | .missingType decl => "missing type in " ++ decl.quote
  | .noLowerBound var => "no lower bound for " ++ var
  | .noUpperBound var => "no upper bound for " ++ var
  | .emptyBody => "empty body"

end QuantifierProblem

/-- a quantifier that cannot be expanded, with its text -/
structure QuantifierFault where
  text : Text
  problem : QuantifierProblem
deriving DecidableEq, Repr

def QuantifierFault.message (f : QuantifierFault) : Text :=
  "malformed quantifier " ++ f.text.quote ++ ": " ++ f.problem.message

end ContractChecks
