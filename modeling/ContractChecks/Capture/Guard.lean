import ContractChecks.Contract.Basic

/-!
# Guarded captures

In a contract with several spec cases each capture runs only if the precondition of its case
holds, so that no capture is evaluated in a state its case does not apply to.  An old variable
that a precondition or a pre-expression reads is captured before the check and stays unguarded.
-/

namespace ContractChecks

/-- the statement, run only if the predicate holds -/
def guardedBy (pre stmt : Text) : Text := "if " ++ pre ++ " \x7b\n" ++ stmt ++ "\n\x7d"

namespace Contract

/-- whether the texts of the contract tell that the variable is read early -/
def readsEarly (c : Contract) (v : OldVar) : Bool := (Oracle.scanning []).readEarly c v

/-- the precondition of a spec case, if it can fail -/
def caseGuard? (c : Contract) (i : Int) : Option Text := (c.pre.get? i).filter assertable

def guardOldVar (c : Contract) (pre : Text) (v : OldVar) : OldVar :=
  if c.readsEarly v || v.capture = [] then v
  else ⟨v.decl ++ "/" ++ guardedBy pre v.capture⟩

/-- the contract with its captures guarded by the preconditions of their spec cases -/
def guardCaptures (c : Contract) : Contract :=
  if c.pre.size < 2 then c
  else
    { c with
      oldExprs := c.oldExprs.mapValues fun i es =>
        match c.caseGuard? i with
        | some pre => es.map (guardedBy pre)
        | none => es
      oldVars := c.oldVars.mapValues fun i vs =>
        match c.caseGuard? i with
        | some pre => vs.map (c.guardOldVar pre)
        | none => vs }

end Contract

end ContractChecks
