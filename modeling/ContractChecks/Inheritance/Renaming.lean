import ContractChecks.Contract.Basic

/-!
# Renaming an inherited contract

An inherited contract speaks of its own parameters, receiver and temporaries.  Before it is
merged, parameters and receiver get the names of the overriding method, and a temporary whose name
is already taken gets a fresh one.
-/

namespace ContractChecks

namespace Contract

def temporaries (c : Contract) : List Text :=
  (c.oldVars.entries.flatMap fun e => e.2.map OldVar.name)
    ++ (c.oldExprDecls.entries.flatMap fun e => e.2.map declaredName)
    ++ c.preExprDecls.map declaredName

end Contract

/-- the `n`-th name tried for a temporary inherited at a level, from 1 on -/
def tempCandidate (name : Text) (level n : Nat) : Text :=
  let base := name ++ "_" ++ Text.ofNat level
  if n ≤ 1 then base else base ++ "_" ++ Text.ofNat n

/-- the first candidate that is not taken -/
def freshTemp (taken : List Text) (name : Text) (level : Nat) : Text :=
  (((List.range (taken.length + 1)).map fun k => tempCandidate name level (k + 1)).find?
    fun t => !taken.contains t).getD (tempCandidate name level 1)

/-- the parameters of the inherited method to those of the override -/
def paramRenaming (own inherited : Method) : Renaming :=
  (own.params.zip inherited.params).foldl (fun f p =>
    if !isBlankName p.2.name && p.1.name != [] && p.2.name != p.1.name then
      f.set p.2.name p.1.name
    else f) []

def signatureRenaming (own inherited : Method) : Renaming :=
  if inherited.receiverName = own.receiverName then paramRenaming own inherited
  else (paramRenaming own inherited).set inherited.receiverName own.receiverName

/-- adds a fresh name for a temporary that is taken -/
def renameTemp (level : Nat) (p : Renaming × List Text) (name : Text) : Renaming × List Text :=
  if name = [] || !p.2.contains name then p
  else
    let fresh := freshTemp p.2 name level
    (p.1.set name fresh, p.2 ++ [fresh])

/-- the renaming applied to an inherited contract, and the names taken afterwards -/
def inheritedRenaming (taken : List Text) (own : Method) (inherited : Contract) (level : Nat) :
    Renaming × List Text :=
  inherited.temporaries.foldl (renameTemp level) (signatureRenaming own inherited.method, taken)

namespace Contract

/-- every clause text renamed; the types of signals stay -/
def renamed (f : Renaming) (c : Contract) : Contract where
  method := c.method
  pre := c.pre.mapValues fun _ => rename f
  post := c.post.mapValues fun _ => rename f
  xpost := c.xpost.mapValues fun _ ss =>
    ss.map fun s => ⟨s.type, rename f s.var, rename f s.pred⟩
  oldVars := c.oldVars.mapValues fun _ vs => vs.map fun v => ⟨rename f v.text⟩
  oldExprDecls := c.oldExprDecls.mapValues fun _ ds => ds.map (rename f)
  oldExprs := c.oldExprs.mapValues fun _ es => es.map (rename f)
  preExprDecls := c.preExprDecls.map (rename f)
  preExprs := c.preExprs.map (rename f)
  xpostCode := c.xpostCode.map (rename f)

end Contract

end ContractChecks
