import ContractChecks.Contract.Basic
import ContractChecks.Directive.Form
import ContractChecks.Quantifier.Loop
import ContractChecks.Source.Token

/-!
# Expressions of directives

The expressions of a directive are written with keywords: one for the receiver, one for the
result, one for an expression that is evaluated in the state before the call, and the quantifiers.
Reading an expression puts a name in the place of every keyword but the quantifiers, which are
expanded later.  An old expression becomes a variable that is captured before the call; within a
spec case equal old expressions share one.

* `Evaluator`: what is known about expressions: which texts are none, and the core and the type of the
  others;
* `Scope`: the names that stand for the keywords;
* `Captures`: the old state captured so far;
* `Scope.preText s`: the expression `s` of a state before the call;
* `Scope.postText i s`: the expression `s` of a state after the call, in spec case `i`;
* `Scope.readOldVar i s`: the text of an old directive, which captures a variable.
-/

namespace ContractChecks

/-! ### what is known about expressions -/

/-- why an expression has no type to declare a variable with -/
inductive TypeProblem where
  | functionLiteral
  | untyped (reason : Text)
  | notValue
deriving DecidableEq, Repr

def TypeProblem.fault (text : Text) : TypeProblem → DirectiveFault
  | .functionLiteral => .functionLiteral text
  | .untyped why => .untyped text why
  | .notValue => .notValue text

structure Evaluator where
  /-- the reason why a text is no expression -/
  parseError? : Text → Option Text
  /-- the expression without the parentheses around the whole of it -/
  core : Text → Text := unparen
  typeOf : Text → Except TypeProblem Text

/-- what is known about one expression -/
inductive ExprFact where
  | type (t : Text)
  | problem (p : TypeProblem)
  | parseError (reason : Text)
deriving DecidableEq, Repr

/-- answers from a list of facts; an expression without one has some type -/
def Evaluator.ofFacts (facts : List (Text × ExprFact)) : Evaluator where
  parseError? s :=
    match facts.lookup s with
    | some (.parseError why) => some why
    | _ => none
  typeOf s :=
    match facts.lookup s with
    | some (.type t) => .ok t
    | some (.problem p) => .error p
    | _ => .ok []

/-- the names that stand for the keywords of a declaration -/
structure Scope where
  this : Text
  /-- empty if there is no result -/
  result : Text := []
  eval : Evaluator

/-! ### captures -/

/-- the old state captured so far -/
structure Captures where
  oldVars : CaseTable (List OldVar) := {}
  oldExprDecls : CaseTable (List Text) := {}
  oldExprs : CaseTable (List Text) := {}
  /-- the variables of old expressions, by spec case and expression -/
  shared : List ((Int × Text) × Text) := []
  /-- the number of the next variable -/
  next : Nat := 0

namespace Captures

/-- the variable that the next old expression is captured in -/
def freshName (c : Captures) : Text := oldStem ++ Text.ofNat c.next

def addExpr (c : Captures) (index : Int) (expr type : Text) : Captures :=
  { c with
    oldExprDecls := c.oldExprDecls.append index ["var " ++ c.freshName ++ " " ++ type]
    oldExprs := c.oldExprs.append index [c.freshName ++ " = " ++ expr]
    shared := c.shared ++ [((index, expr), c.freshName)]
    next := c.next + 1 }

/-- captures an expression in a variable of the given name -/
def addVar (c : Captures) (index : Int) (name type expr : Text) : Captures :=
  { c with oldVars := c.oldVars.append index [.encode name type expr] }

end Captures

/-- reading can fail, and keeps what was captured before the failure -/
abbrev ReadM := EStateM DirectiveFault Captures

/-- a result that captures nothing -/
def ReadM.ofExcept {α : Type} : Except DirectiveFault α → ReadM α
  | .ok a => pure a
  | .error f => throw f

/-! ### keywords -/

def oldKeyword : Text := "\\old"
def resultKeyword : Text := "\\result"
def thisKeyword : Text := "\\this"

/-- the argument of an old expression, given the text after its keyword, and what follows it -/
def oldArgument? (s : Text) : Option (Text × Text) :=
  let r : Text := s.dropWhile fun c => c = ' '
  if r.startsWith "(" then
    match cutClose r with
    | some (a, b) => some (a.drop 1, b.drop 1)
    | none => none
  else none

theorem length_oldArgument?_le {s a b : Text} (h : oldArgument? s = some (a, b)) :
    b.length ≤ s.length := by
  simp only [oldArgument?] at h
  split at h
  · split at h
    · rename_i x y hc
      have h1 := congrArg List.length (cutClose_append hc)
      have h2 := (List.dropWhile_sublist (l := s) fun c => decide (c = ' ')).length_le
      simp only [Option.some.injEq, Prod.mk.injEq] at h
      rw [← h.2]
      simp only [List.length_append, List.length_drop] at h1 ⊢
      omega
    · cases h
  · cases h

namespace Scope

/-- the name that stands for a keyword of the state before the call -/
def preKeyword (sc : Scope) (whole raw : Text) : Except DirectiveFault Text :=
  if raw = oldKeyword then .error (.oldBeforeCall whole)
  else if raw = resultKeyword then .error (.noResult whole)
  else if raw = thisKeyword then .ok sc.this
  else if (QuantifierKind.ofKeyword? raw).isSome then .ok raw
  else .error (.unknownKeyword whole raw)

/-- the name that stands for a keyword of the state after the call, old expressions apart -/
def postKeyword (sc : Scope) (whole raw : Text) : Except DirectiveFault Text :=
  if raw = resultKeyword && sc.result != [] then .ok sc.result
  else sc.preKeyword whole raw

def preLexeme (sc : Scope) (whole : Text) : Lexeme → Except DirectiveFault Text
  | .keyword raw => sc.preKeyword whole raw
  | l => .ok l.text

/-- an expression of the state before the call -/
def preText (sc : Scope) (s : Text) : Except DirectiveFault Text := do
  let parts ← (lexemes s).mapM (sc.preLexeme s)
  return (Text.concat parts).trim

/-- the declared type of a captured expression -/
def typeOf (sc : Scope) (expr : Text) : Except DirectiveFault Text :=
  (sc.eval.typeOf expr).mapError (TypeProblem.fault expr)

def readable (sc : Scope) (fault : Text → DirectiveFault) (expr : Text) :
    Except DirectiveFault Unit :=
  match sc.eval.parseError? expr with
  | some why => .error (fault why)
  | none => .ok ()

/-- the variable of an old expression of a spec case -/
def capture (sc : Scope) (index : Int) (expr : Text) : ReadM Text := do
  let c ← get
  match c.shared.lookup (index, expr) with
  | some name => return name
  | none =>
    let type ← ReadM.ofExcept (sc.typeOf expr)
    set (c.addExpr index expr type)
    return c.freshName

/-- the variable of an old expression, given its argument -/
def readOld (sc : Scope) (index : Int) (inner : Text) : ReadM Text := do
  let expr ← ReadM.ofExcept (sc.preText inner)
  ReadM.ofExcept (sc.readable (.unreadableOld expr) expr)
  sc.capture index (sc.eval.core expr)

/-- the part `s` of an expression of the state after the call -/
def postFrom (sc : Scope) (index : Int) (whole : Text) : Text → ReadM Text
  | [] => return []
  | c :: r =>
    match (firstLexeme c r).1 with
    | .keyword raw =>
      if raw = oldKeyword then
        match _h : oldArgument? (firstLexeme c r).2 with
        | none => throw (.oldArgument whole)
        | some (inner, rest) => do
          let name ← sc.readOld index inner
          let more ← sc.postFrom index whole rest
          return name ++ more
      else do
        let name ← ReadM.ofExcept (sc.postKeyword whole raw)
        let more ← sc.postFrom index whole (firstLexeme c r).2
        return name ++ more
    | l => do
      let more ← sc.postFrom index whole (firstLexeme c r).2
      return l.text ++ more
termination_by s => s.length
decreasing_by
  · have h1 := length_firstLexeme_le c r
    have h2 := length_oldArgument?_le _h
    simp only [List.length_cons]
    omega
  · have h1 := length_firstLexeme_le c r
    simp only [List.length_cons]
    omega
  · have h1 := length_firstLexeme_le c r
    simp only [List.length_cons]
    omega

/-- an expression of the state after the call -/
def postText (sc : Scope) (index : Int) (s : Text) : ReadM Text := do
  let t ← sc.postFrom index s s
  return t.trim

/-- the type of an old variable: the one it is declared with, or that of its expression -/
def oldVarType (sc : Scope) (old : OldForm) (expr : Text) : Except DirectiveFault Text :=
  if old.type = [] then do
    sc.readable (.unreadableOldVar old.name) expr
    sc.typeOf expr
  else .ok old.type

def readOldVar (sc : Scope) (index : Int) (text : Text) : ReadM Unit := do
  let old ← ReadM.ofExcept (OldForm.parse text)
  let expr ← ReadM.ofExcept (sc.preText old.expr)
  let type ← ReadM.ofExcept (sc.oldVarType old expr)
  modify fun c => c.addVar index old.name type expr

end Scope

end ContractChecks
