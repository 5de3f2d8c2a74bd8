import ContractChecks.Contract.CaseTable
import ContractChecks.Contract.Clause
import ContractChecks.Contract.Fault
import ContractChecks.Contract.Predicate

/-!
# Contracts

A method and all its clauses, by spec case.  The precondition table fixes the set of spec cases.

* `Contract.validate`: every clause belongs to a declared spec case;
* `Contract.precondition`: the disjunction over all spec cases;
* `Contract.clauses k`: the clauses of one kind in spec-case order;
* `Oracle`: what the generators ask about a contract beyond a single clause, with
  `Oracle.scanning`, which answers by looking for names in the clause texts.
-/

namespace ContractChecks

/-! ### names used by generated code -/

/-- holds the value returned by the checked method -/
def resultVar : Text := "racResult"
/-- holds a trailing error result -/
def errorVar : Text := "racErr"
/-- holds the signal raised by the checked method -/
def caughtVar : Text := "racE"
/-- stands for the object under construction in the clauses of a constructor -/
def objectName : Text := "racObject"
/-- begins the name of every old-state binding -/
def oldStem : Text := "racOld"
/-- stands for a receiver without a name of its own -/
def thisName : Text := "racThis"

/-! ### methods -/

structure Param where
  name : Text := []
  type : Text := []
  variadic : Bool := false
deriving DecidableEq, Repr

def isBlankName (s : Text) : Bool := s = [] || s = ['_']

/-- the declaration a contract is attached to -/
structure Method where
  name : Text := []
  /-- the declaring type, empty for package functions -/
  owner : Text := []
  /-- the type of the object built by a constructor, a pointer to the owner if empty -/
  ownerType : Text := []
  receiver : Text := []
  pointerReceiver : Bool := false
  params : List Param := []
  /-- empty if there is no observable result -/
  returnType : Text := []
  /-- whether there is a trailing error result -/
  returnsError : Bool := false
  static : Bool := false
  constructor : Bool := false
  /-- declared by an interface, without a body -/
  abstract : Bool := false
  visibility : Visibility := .unknown 0
deriving DecidableEq, Repr

namespace Method

/-- the qualified name -/
def text (m : Method) : Text := if m.owner = [] then m.name else m.owner ++ "." ++ m.name

def receiverType (m : Method) : Text :=
  if m.static || m.owner = [] then []
  else if m.pointerReceiver then '*' :: m.owner
  else m.owner

def constructedType (m : Method) : Text :=
  if m.ownerType = [] then '*' :: m.owner else m.ownerType

def paramNames (m : Method) : List Text := m.params.map Param.name

def receiverName (m : Method) : Text := if m.receiver = [] then thisName else m.receiver

end Method

/-! ### contracts -/

structure Contract where
  method : Method := {}
  /-- defines the set of spec cases -/
  pre : CaseTable Text := {}
  post : CaseTable Text := {}
  xpost : CaseTable (List Signals) := {}
  oldVars : CaseTable (List OldVar) := {}
  oldExprDecls : CaseTable (List Text) := {}
  oldExprs : CaseTable (List Text) := {}
  /-- the boolean variables assigned by the pre-expressions -/
  preExprDecls : List Text := []
  preExprs : List Text := []
  /-- code that takes the place of the exceptional postconditions -/
  xpostCode : List Text := []
deriving DecidableEq

namespace Contract

/-- the first index of a table that is no spec case -/
def undeclared? (c : Contract) (indices : List Int) : Option Int :=
  indices.find? fun i => !c.pre.contains i

def checkTable (c : Contract) (table : DependentTable) (indices : List Int) : Except Fault Unit :=
  match c.undeclared? indices with
  | some i => .error (.clause i (.undeclaredCase table))
  | none => .ok ()

/-- every clause belongs to a declared spec case -/
def validate (c : Contract) : Except Fault Unit := do
  c.checkTable .normalPost c.post.indices
  c.checkTable .exceptionalPost c.xpost.indices
  c.checkTable .oldVar c.oldVars.indices
  c.checkTable .oldExprDecl c.oldExprDecls.indices
  c.checkTable .oldExpr c.oldExprs.indices

/-- the predicates joined by disjunction; one predicate stands alone -/
def disjunction : List Text → Text
  | [] => "true"
  | [p] => p
  | ps => "(" ++ Text.join ") || (" ps ++ ")"

/-- the disjunction of the preconditions of all spec cases -/
def precondition (c : Contract) : Text :=
  let ps := c.pre.entries.map Prod.snd
  if ps.all assertable then disjunction ps else "true"

/-- whether some normal postcondition can fail -/
def hasAssertion (c : Contract) : Bool := c.post.entries.any fun e => assertable e.2

def clauses (c : Contract) : ClauseKind → List Clause
  | .precondition => c.pre.entries.map fun e => .precondition e.1 e.2
  | .normalPost => c.post.entries.map fun e => .normalPost e.1 e.2
  | .exceptionalPost => c.xpost.entries.flatMap fun e => e.2.map (.exceptionalPost e.1)
  | .unreachable => []
  | .unknown _ => []

end Contract

/-! ### questions about a contract -/

structure Oracle where
  /-- whether a name is used by the precondition of some spec case -/
  inPrecondition : Contract → Text → Bool
  /-- whether a name is used by some pre-expression -/
  inPreExpr : Contract → Text → Bool
  /-- whether a method intercepts other members -/
  isCrosscut : Method → Bool

/-- whether a precondition or a pre-expression reads the variable -/
def Oracle.readEarly (oracle : Oracle) (c : Contract) (v : OldVar) : Bool :=
  oracle.inPrecondition c v.name || oracle.inPreExpr c v.name

/-- answers by looking for names in the texts; `crosscut` are the qualified names of crosscut
methods -/
def Oracle.scanning (crosscut : List Text) : Oracle where
  inPrecondition c name := c.pre.entries.any fun e => references e.2 name
  inPreExpr c name := references (Text.join "\n" c.preExprs) name
  isCrosscut m := crosscut.contains m.text

end ContractChecks
