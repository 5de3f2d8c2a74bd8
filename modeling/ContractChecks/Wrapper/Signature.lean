import ContractChecks.Wrapper.Statement

/-!
# Signature of a wrapper

Everything about a wrapper except its body: name, parameters, results, the expression that invokes
the checked method, and the documentation.

A crosscut method intercepts other members, so its wrapper gets the rest of the intercepted call
as a parameter.  Under direct checking the wrapper takes the place of the method and calls its
renamed body; in the other modes it is called instead of the method, with the receiver as its first
parameter.
-/

namespace ContractChecks

def wrapperStem : Text := "racCheckPost"

/-- begins the name of a checked method whose body is wrapped -/
def bodyStem : Text := "racOrig"

/-- the function that continues an intercepted call -/
def proceedName : Text := "racProceed"

def errorType : Text := "error"

structure Signature where
  wrapper : Wrapper
  crosscut : Bool
  /-- the type of the result, empty if there is none -/
  resultType : Text
  errResult : Bool
  /-- what happens to the name of the object under construction -/
  renames : Renaming

/-- whether a clause or some code refers to the object under construction -/
def usesObject (c : Contract) : Bool :=
  ((c.clauses .precondition ++ c.clauses .normalPost ++ c.clauses .exceptionalPost).any
    fun cl => references cl.pred objectName)
    || references (Text.join "\n" c.xpostCode) objectName

def namedParam (p : Param) (i : Nat) : Param :=
  if isBlankName p.name then { p with name := "racArg" ++ Text.ofNat i } else p

def namedParams (ps : List Param) : List Param := ps.zipIdx.map fun p => namedParam p.1 p.2

/-- a parameter passed on -/
def argument (p : Param) : Text := if p.variadic then p.name ++ "..." else p.name

def callText (target : Text) (ps : List Param) : Text :=
  target ++ "(" ++ Text.join ", " (ps.map argument) ++ ")"

/-- the type of the result of a wrapper, empty if there is none -/
def resultTypeOf (m : Method) (mode : Mode) (crosscut : Bool) : Text :=
  if crosscut then anyType
  else if m.returnType != [] then m.returnType
  else if m.constructor && mode.wrapsCalls then m.constructedType
  else []

def wrapperDoc (name : Text) (m : Method) (crosscut : Bool) : Text :=
  let vis := m.visibility.text
  let target : Text :=
    if crosscut then "members intercepted by " ++ m.text ++ " pointcut" else "method " ++ m.text
  name ++ " checks the " ++ vis ++ " precondition, normal and\nexceptional " ++ vis
    ++ " postcondition of " ++ target ++ "."

def receiverParam? (m : Method) : Option Param :=
  if m.receiverType = [] then none else some { name := m.receiverName, type := m.receiverType }

/-- the checked method as it is called, with its receiver if it has one -/
def qualifiedTarget (m : Method) (name : Text) : Text :=
  if m.receiverType = [] then name else m.receiverName ++ "." ++ name

/-- name, receiver, parameters and call target, by mode -/
def wrapperHead (m : Method) (mode : Mode) (crosscut : Bool) : Wrapper :=
  let ps := namedParams m.params
  if crosscut then
    { name := wrapperStem ++ m.owner ++ m.name
      mode := mode
      params := (receiverParam? m).toList ++ ps
        ++ [{ name := proceedName, type := "func() " ++ anyType }]
      callTarget := proceedName ++ "()" }
  else
    match mode with
    | .direct =>
      { name := wrapperStem ++ m.name
        mode := mode
        recv := receiverParam? m
        params := ps
        callTarget := callText (qualifiedTarget m (bodyStem ++ m.name)) ps }
    | _ =>
      { name := wrapperStem ++ m.owner ++ m.name
        mode := mode
        params := (receiverParam? m).toList ++ ps
        callTarget := callText (qualifiedTarget m m.name) ps }

/-- what cannot be generated for a contract, if anything -/
def unsupported? (c : Contract) (mode : Mode) (crosscut : Bool) : Option Unsupported :=
  let m := c.method
  if crosscut && m.constructor then some .crosscutConstructor
  else if m.abstract && mode = .direct then some .abstractBody
  else if m.constructor && resultTypeOf m mode crosscut = [] && usesObject c then
    some .unboundObject
  else none

namespace Signature

def of (c : Contract) (mode : Mode) (oracle : Oracle) : Except Fault Signature :=
  let m := c.method
  let crosscut := oracle.isCrosscut m
  match unsupported? c mode crosscut with
  | some feature => .error (.unsupported m.text mode feature)
  | none =>
    let resultType := resultTypeOf m mode crosscut
    let errResult := !crosscut && m.returnsError
    let head := wrapperHead m mode crosscut
    .ok {
      wrapper := { head with
        results := (if resultType = [] then [] else [resultType])
          ++ if errResult then [errorType] else []
        doc := wrapperDoc head.name m crosscut }
      crosscut := crosscut
      resultType := resultType
      errResult := errResult
      renames :=
        if m.constructor && resultType != [] then [(objectName, resultVar)] else [] }

/-- the variables that the checked method's results are assigned to -/
def assigned (sig : Signature) : List Text :=
  (if sig.resultType = [] then [] else [resultVar]) ++ if sig.errResult then [errorVar] else []

end Signature

end ContractChecks
