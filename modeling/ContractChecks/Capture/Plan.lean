import ContractChecks.Contract.Basic

/-!
# The capture plan

Where the old-state bindings of a contract are declared and captured.  A binding that a
precondition or a pre-expression reads is captured early, before the precondition is checked; all
others are captured late, just before the checked method is invoked.

* `Binding`: one old variable, with what the oracle says about it;
* `Plan`: the statements that run before the invocation, by when they run;
* `Plan.extract c oracle`: the plan of a contract, or why there is none.
-/

namespace ContractChecks

structure Binding where
  index : Int
  name : Text
  var : OldVar
  inPrecondition : Bool
  inPreExpr : Bool
deriving DecidableEq, Repr

/-- whether the binding is captured before the precondition check -/
def Binding.early (b : Binding) : Bool := b.inPrecondition || b.inPreExpr

structure Plan where
  /-- declarations of all temporaries: old variables, pre-expressions, old expressions -/
  decls : List Text := []
  early : List Text := []
  preExprs : List Text := []
  late : List Text := []
  bindings : List Binding := []
  /-- whether the wrapper checks the precondition itself -/
  checkPrecondition : Bool := false
deriving DecidableEq, Repr

namespace Plan

def temps (p : Plan) : List Text := (p.decls.map declaredName).filter (· != [])

/-! ### references to old state -/

def isOldToken (s : Text) : Bool := s = "\\old" || s.startsWith oldStem

def declaredOld (c : Contract) (i : Int) : List Text :=
  (c.oldVars.list i).map OldVar.name ++ (c.oldExprDecls.list i).map declaredName

/-- the old-state names that a text refers to, selectors apart -/
def oldTokens (s : Text) : List Text :=
  ((occurrences s).filter fun o => !o.selector && isOldToken o.text).map Occurrence.text

/-- the first old-state name of a text that its spec case does not declare -/
def undeclaredOld? (c : Contract) (i : Int) (s : Text) : Option Text :=
  (oldTokens s).find? fun tok => !(declaredOld c i).contains tok

/-- the postconditions with their spec cases, normal ones before exceptional ones -/
def postTexts (c : Contract) : List (Int × Text) :=
  c.post.entries ++ c.xpost.entries.flatMap fun e => e.2.map fun s => (e.1, s.pred)

/-- every old-state name of a postcondition is declared for its spec case -/
def checkOld (c : Contract) : Except Fault Unit :=
  (postTexts c).forM fun e =>
    match undeclaredOld? c e.1 e.2 with
    | some tok => .error (.unresolvedOld e.1 tok)
    | none => .ok ()

/-! ### bindings -/

/-- the old variables with their spec cases, in spec-case order -/
def oldVarsInOrder (c : Contract) : List (Int × OldVar) :=
  c.pre.indices.flatMap fun i => (c.oldVars.list i).map fun v => (i, v)

/-- adds the binding of an old variable; the same text may be declared again -/
def addBinding (c : Contract) (oracle : Oracle) (bs : List Binding) (e : Int × OldVar) :
    Except Fault (List Binding) :=
  let name := e.2.name
  if name = [] then .error (.clause e.1 (.unnamedOldVar e.2.text))
  else
    match bs.find? fun b => b.name = name with
    | some b => if b.var = e.2 then .ok bs else .error (.clause e.1 (.oldVarTwice name))
    | none => .ok (bs ++ [⟨e.1, name, e.2, oracle.inPrecondition c name, oracle.inPreExpr c name⟩])

def findBindings (c : Contract) (oracle : Oracle) : Except Fault (List Binding) :=
  (oldVarsInOrder c).foldlM (addBinding c oracle) []

def captures {α : Type} (var : α → OldVar) (xs : List α) : List Text :=
  (xs.map fun x => (var x).capture).filter (· != [])

/-- the declaration of a pre-expression variable, boolean unless it says otherwise -/
def preExprDecl (decl : Text) : Text :=
  let d := decl.trim
  if d.startsWith "var " then d
  else if isName d then "var " ++ d ++ " bool"
  else "var " ++ d

def lateOf (c : Contract) (bs : List Binding) (i : Int) : List Text :=
  captures Binding.var (bs.filter fun b => b.index = i && !b.early) ++ c.oldExprs.list i

def ofBindings (c : Contract) (bs : List Binding) : Plan where
  decls := (bs.map fun b => b.var.decl) ++ c.preExprDecls.map preExprDecl
    ++ c.pre.indices.flatMap c.oldExprDecls.list
  early := captures Binding.var (bs.filter Binding.early)
  preExprs := c.preExprs
  late := c.pre.indices.flatMap (lateOf c bs)
  bindings := bs
  checkPrecondition := bs.any Binding.early || !c.preExprs.isEmpty

/-- the plan of a contract whose clauses belong to declared spec cases and whose old-state names
are all declared -/
def extract (c : Contract) (oracle : Oracle) : Except Fault Plan := do
  c.validate
  checkOld c
  let bs ← findBindings c oracle
  return ofBindings c bs

end Plan

end ContractChecks
