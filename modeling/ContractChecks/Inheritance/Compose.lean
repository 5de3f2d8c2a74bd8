import ContractChecks.Inheritance.Renaming

/-!
# Composition of contracts

The contracts that a method inherits are merged into its own.  Every inherited spec case becomes
a spec case of the result, so an override may only weaken what callers must establish.  With more
than one spec case, a postcondition is demanded only if the precondition of its own case held on
entry, which is recorded in an old variable.

* `compatible own inherited`: whether an inherited contract can apply to an override;
* `Merge`: the contract merged so far, with the names taken;
* `compose own inherited`: the composed contract.
-/

namespace ContractChecks

def compositionProblem? (own inherited : Method) : Option CompositionProblem :=
  match own.visibility, inherited.visibility with
  | .unknown n, _ => some (.overrideVisibility n)
  | .of _, .unknown n => some (.inheritedVisibility n)
  | .of o, .of i =>
    if i = .priv then some .privateInherited
    else if o.rank < i.rank then some (.lessVisible (.of o) (.of i))
    else if inherited.name != own.name then some .namesDiffer
    else if inherited.params.length != own.params.length then
      some (.parameterCount own.params.length inherited.params.length)
    else none

/-- whether an inherited contract can apply to the overriding method -/
def compatible (own inherited : Method) : Except Fault Unit :=
  match compositionProblem? own inherited with
  | some p => .error (.composition own.text inherited.text p)
  | none => .ok ()

structure Merge where
  result : Contract
  /-- the temporaries declared so far -/
  taken : List Text := []
  /-- the next spec-case index -/
  next : Int := 0

/-- a value written if there is one -/
def CaseTable.setSome {α : Type} (t : CaseTable α) (i : Int) : Option α → CaseTable α
  | some v => t.set i v
  | none => t

namespace Merge

/-- copies one spec case under the next index -/
def addCase (c : Contract) (m : Merge) (i : Int) : Merge :=
  let r := m.result
  { m with
    next := m.next + 1
    result := { r with
      pre := r.pre.setSome m.next (c.pre.get? i)
      post := r.post.setSome m.next (c.post.get? i)
      xpost := r.xpost.setSome m.next (c.xpost.get? i)
      oldVars := r.oldVars.setSome m.next (c.oldVars.get? i)
      oldExprDecls := r.oldExprDecls.setSome m.next (c.oldExprDecls.get? i)
      oldExprs := r.oldExprs.setSome m.next (c.oldExprs.get? i) } }

/-- copies all spec cases of a contract, and what belongs to no case -/
def add (m : Merge) (c : Contract) : Merge :=
  let m' := c.pre.indices.foldl (addCase c) m
  { m' with
    result := { m'.result with
      preExprDecls := m'.result.preExprDecls ++ c.preExprDecls
      preExprs := m'.result.preExprs ++ c.preExprs
      xpostCode := m'.result.xpostCode ++ c.xpostCode } }

def reserve (m : Merge) (c : Contract) : Merge := { m with taken := m.taken ++ c.temporaries }

def addInherited (own : Method) (m : Merge) (p : Contract × Nat) : Merge :=
  let r := inheritedRenaming m.taken own p.1 p.2
  ({ m with taken := r.2 }.reserve p.1).add (p.1.renamed r.1)

/-! ### guarded cases -/

/-- the variable that records whether a spec case applied on entry -/
def caseName (i : Int) : Text := oldStem ++ "Case" ++ Text.ofInt i

def implies (cond pred : Text) : Text := "!" ++ cond ++ " || (" ++ pred ++ ")"

/-- the predicate under a condition, if it can fail -/
def impliesIf (cond pred : Text) : Text := if assertable pred then implies cond pred else pred

/-- whether a spec case has a postcondition that can fail -/
def hasCheckedPost (c : Contract) (i : Int) : Bool :=
  ((c.post.get? i).any assertable) || (c.xpost.list i).any fun s => assertable s.pred

/-- makes the postconditions of a spec case conditional on the variable `name`, which records the
precondition `pre` -/
def guardCaseWith (c : Contract) (i : Int) (name pre : Text) : Contract :=
  { c with
    oldVars := c.oldVars.append i [⟨name ++ " bool/" ++ name ++ " = " ++ pre⟩]
    post := c.post.setSome i ((c.post.get? i).map (impliesIf name))
    xpost := c.xpost.setSome i ((c.xpost.get? i).map fun ss =>
      ss.map fun s => { s with pred := impliesIf name s.pred }) }

/-- makes the postconditions of a spec case conditional on its precondition, where both can fail -/
def guardCase (m : Merge) (i : Int) : Except Fault Merge :=
  match (m.result.pre.get? i).filter assertable with
  | none => .ok m
  | some pre =>
    if !hasCheckedPost m.result i then .ok m
    else
      let name := caseName i
      if m.taken.contains name then .error (.clause i (.reservedName name))
      else .ok { m with
        taken := m.taken ++ [name]
        result := guardCaseWith m.result i name pre }

def guardCases (m : Merge) : Except Fault Merge :=
  if 1 < m.result.pre.size then m.result.pre.indices.foldlM guardCase m else .ok m

end Merge

/-- every inherited contract fits the override and is valid itself -/
def checkInherited (own : Method) (inherited : List Contract) : Except Fault Unit :=
  inherited.forM fun c => do
    compatible own c.method
    c.validate.mapError fun f => .within ("inherited from " ++ c.method.text) f

/-- the spec cases of `own` followed by those of each inherited contract -/
def mergeAll (own : Contract) (inherited : List Contract) : Merge :=
  let m : Merge := { result := { method := own.method } }
  (inherited.zipIdx 1).foldl (Merge.addInherited own.method) ((m.reserve own).add own)

/-- the contract of an override together with the contracts it inherits -/
def compose (own : Contract) (inherited : List Contract) : Except Fault Contract := do
  own.validate
  checkInherited own.method inherited
  let m ← (mergeAll own inherited).guardCases
  return m.result

end ContractChecks
