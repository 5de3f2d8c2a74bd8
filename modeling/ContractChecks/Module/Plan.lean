import ContractChecks.Declaration.Contract
import ContractChecks.Inheritance.Compose
import ContractChecks.Module.Item

/-!
# Jobs

A job is a declaration to make a wrapper for: one with a contract of its own, or with one that it
inherits from an interface method it implements.  Interfaces have no bodies to wrap, so their
methods are jobs only if checks are woven around calls.

* `Plan`: the jobs with the names of crosscut methods, the results reported so far and the log;
* `Planning.plan found`: the jobs for the declarations `found`.
-/

namespace ContractChecks

/-- an interface method with its contract -/
structure Source where
  found : Found
  contract : Contract

structure Job where
  found : Found
  own : Contract
  /-- what is inherited, in the order of the interface methods -/
  inherited : List Source := []

structure Planning where
  /-- the positions of the methods that implement an interface method -/
  implementors : Found → List Position
  mode : Mode

structure JobPlan where
  jobs : List Job := []
  /-- the qualified names of crosscut methods -/
  crosscut : List Text := []
  results : List Result := []
  log : List Text := []

def Found.result (f : Found) (reason : Text) (children : List Result) : Result :=
  .node { pos := f.pos, producer := f.decl.producer, reason := reason } children

namespace Planning

/-- the contract that the directives of a declaration give; nothing if there are none, or if they
are faulty -/
def own? (f : Found) : Option DeclaredContract :=
  if f.decl.directives.isEmpty then none else f.decl.contract.toOption

/-- the result about a declaration whose directives are faulty -/
def faulty? (f : Found) : Option Result :=
  match f.decl.contract with
  | .ok _ => none
  | .error e => some (f.result e.message [])

/-- the interface methods with a contract -/
def sources (found : List Found) : List Source :=
  (found.filter fun f => f.decl.isInterface).filterMap fun f =>
    (own? f).map fun c => ⟨f, c.contract⟩

/-- what each declaration inherits: the heir and the source, in the order of the sources -/
def bequests (x : Planning) (found : List Found) : List (Found × Source) :=
  (sources found).flatMap fun s =>
    (x.implementors s.found).filterMap fun pos =>
      (found.find? fun f => !f.decl.isInterface && f.pos = pos).map fun f => (f, s)

def inherited (bequests : List (Found × Source)) (f : Found) : List Source :=
  (bequests.filter fun b => b.1.pos = f.pos).map Prod.snd

/-- whether a declaration is a job, provided that its directives are not faulty -/
def isJob (x : Planning) (bequests : List (Found × Source)) (f : Found) : Bool :=
  ((own? f).isSome || !(inherited bequests f).isEmpty)
    && (!f.decl.isInterface || x.mode.wrapsCalls)

def job? (bequests : List (Found × Source)) (f : Found) : Option Job :=
  match f.decl.contract with
  | .ok c => some { found := f, own := c.contract, inherited := inherited bequests f }
  | .error _ => none

def inheritLine (b : Found × Source) : Text :=
  "inherit " ++ b.1.decl.producer ++ " from " ++ b.2.found.decl.producer

def plan (x : Planning) (found : List Found) : JobPlan :=
  let contracted := found.filter fun f => !f.decl.directives.isEmpty
  let bequests := x.bequests found
  let chosen := found.filter (x.isJob bequests)
  let early := contracted.filterMap faulty?
  let late := chosen.filterMap faulty?
  { jobs := chosen.filterMap (job? bequests)
    crosscut := (found.filterMap own?).filterMap fun c =>
      if c.crosscut then some c.contract.method.text else none
    results := early ++ late
    log := early.map (Result.text []) ++ bequests.map inheritLine ++ late.map (Result.text []) }

end Planning

end ContractChecks
