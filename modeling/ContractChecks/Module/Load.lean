import ContractChecks.Module.Plan
import ContractChecks.Wrapper.File
import ContractChecks.Wrapper.Synthesis

/-!
# Loading modules

Finds the contracts in the selected packages of a module and makes a wrapper for every contracted
declaration.  A declaration that cannot be checked gives a result, and does not keep the others
from being checked.

* `Job.run`: the wrapper of a job, or the result that says why there is none;
* `Outcome.collect`: the outcomes of all jobs by package and position, in whatever order the jobs
  were done;
* `Planning.execute items`: the checked packages, the results and the log for the items of files;
* `load options module report`: those for the selected packages of a module.
-/

namespace ContractChecks

/-- the wrapper of a declaration -/
structure CheckedMethod where
  pos : Position
  /-- what the wrapper checks, inherited clauses included -/
  contract : Contract
  wrapper : Wrapper
  /-- the packages that the wrapper's code names -/
  imports : Imports := []
  /-- whether the declaration is in a test source -/
  test : Bool := false

structure CheckedPackage where
  info : PackageInfo
  methods : List CheckedMethod := []

def CheckedMethod.packaged (c : CheckedMethod) : PackagedWrapper :=
  { wrapper := c.wrapper, imports := c.imports, test := c.test }

/-! ### jobs -/

inductive Outcome where
  | checked (package : PackageInfo) (method : CheckedMethod)
  | failed (result : Result)

namespace Job

def originResult (s : Source) : Result :=
  s.found.result ("inherited from " ++ s.found.decl.producer) []

/-- the contract of a job with everything it inherits -/
def composed (j : Job) : Except Fault Contract := compose j.own (j.inherited.map Source.contract)

/-- makes the wrapper of a job -/
def run (j : Job) (mode : Mode) (oracle : Oracle) : Outcome :=
  match j.composed with
  | .error e => .failed (j.found.result e.message (j.inherited.map originResult))
  | .ok c =>
    match synthesize c mode oracle with
    | .error e => .failed (j.found.result e.message [])
    | .ok w =>
      .checked j.found.package
        { pos := j.found.pos
          contract := c
          wrapper := w
          imports := w.usedImports j.found.imports
          test := j.found.pos.file.endsWith "_test.go" }

def startLine (j : Job) : Text :=
  "synthesizing " ++ j.found.pos.text ++ ": " ++ j.found.decl.producer ++ " ("
    ++ Text.ofNat j.inherited.length ++ " inherited)"

end Job

namespace Outcome

/-- the log line at the end of a job -/
def line : Outcome → Text
  | .checked _ c => generatedLine c.contract c.wrapper
  | .failed r => r.text []

def result? : Outcome → Option Result
  | .failed r => some r
  | .checked _ _ => none

def checked? : Outcome → Option (PackageInfo × CheckedMethod)
  | .checked p c => some (p, c)
  | .failed _ => none

def methodsOf (outcomes : List Outcome) (p : PackageInfo) : List CheckedMethod :=
  (((outcomes.filterMap checked?).filter fun e => e.1 = p).map Prod.snd).mergeSort
    fun a b => a.pos.le b.pos

/-- the packages with a checked method, by import path -/
def collect (outcomes : List Outcome) : List CheckedPackage :=
  let infos := ((outcomes.filterMap checked?).map Prod.fst).eraseDups
  (infos.mergeSort fun a b => a.path.le b.path).map fun p => ⟨p, methodsOf outcomes p⟩

end Outcome

/-! ### modules -/

structure LoadOptions where
  mode : Mode := .direct
  /-- whether only asserted implementations inherit -/
  assertedOnly : Bool := false
  tests : Bool := false
  /-- the directory in which patterns are used -/
  dir : Path := {}
  patterns : List Text := []

inductive LoadFault where
  | noPackages
  /-- the source is faulty -/
  | source (reason : Text)
deriving DecidableEq, Repr

def LoadFault.message : LoadFault → Text
  | .noPackages => "no packages specified"
  | .source why => "could not load source due to error(s): " ++ why

structure Loaded where
  packages : List CheckedPackage := []
  results : List Result := []
  log : List Text := []

/-- an entry of the log as it is written; one that ends its line itself stays as it is -/
def logLine (entry : Text) : Text := if entry.endsWith "\n" then entry else entry ++ "\n"

def logText (log : List Text) : Text := Text.concat (log.map logLine)

namespace Item

def found? : Item → Option Found
  | .declaration f => some f
  | _ => none

def result? : Item → Option Result
  | .rejected f => some (.leaf f)
  | _ => none

def assertion? : Item → Option (TypeKey × TypeKey)
  | .assertion i t => some (i, t)
  | _ => none

def line? : Item → Option Text
  | .declaration f =>
    if f.decl.directives.isEmpty then none else some ("found " ++ f.decl.producer)
  | .rejected f => some ((Result.leaf f).text [])
  | .assertion i t => some ("assertion " ++ i.name ++ " " ++ t.name)

end Item

def Found.interfaceKey? (f : Found) : Option TypeKey :=
  match f.decl.holder with
  | .interface i => some ⟨f.package.path, i⟩
  | _ => none

/-- whether a declaration is the method `name` of a type that is not generic -/
def Found.isMethodOf (f : Found) (k : TypeKey) (name : Text) : Bool :=
  match f.decl.holder with
  | .receiver r _ => f.receiverKey? = some k && r.typeArgs = [] && f.decl.name = name
  | _ => false

/-- the types asserted to implement an interface.  If assertions are made about several names of
the interface, those about one of the names count, the last one that is come to. -/
def assertedTypes (u : Universe) (r : TypeReport) (assertions : List (TypeKey × TypeKey))
    (interface : TypeKey) : List TypeKey :=
  match ((r.order (assertions.map Prod.fst).eraseDups).filter fun k =>
    u.firstName k = interface).getLast? with
  | some last => (assertions.filter fun a => a.1 = last).map Prod.snd
  | none => []

/-- the types that implement an interface: those asserted to, or all that have its methods -/
def implementingTypes (u : Universe) (r : TypeReport) (assertions : List (TypeKey × TypeKey))
    (assertedOnly : Bool) (interface : TypeKey) : List TypeKey :=
  if assertedOnly then assertedTypes u r assertions interface
  else u.implementors (r.runtime u) interface

/-- the positions of the methods that implement an interface method; only methods declared on the
implementing type itself count -/
def implementingMethods (found : List Found) (types : TypeKey → List TypeKey) (f : Found) :
    List Position :=
  match f.interfaceKey? with
  | none => []
  | some i =>
    (types i).filterMap fun k =>
      (found.find? fun g => g.isMethodOf k f.decl.name).map Found.pos

/-- the outcome of every job, with the lines that tell about it -/
def runJobs (p : JobPlan) (mode : Mode) : List (Job × Outcome) :=
  p.jobs.map fun j => (j, j.run mode (Oracle.scanning p.crosscut))

def packageItems (m : SourceModule) (u : Universe) (ps : List SourcePackage) : List Item :=
  ps.flatMap fun p => p.files.flatMap (fileItems m u p)

/-- the declarations among some items, by position -/
def foundIn (items : List Item) : List Found :=
  (items.filterMap Item.found?).mergeSort fun a b => a.pos.le b.pos

/-- how the declarations among some items are planned with -/
def planningFor (o : LoadOptions) (u : Universe) (r : TypeReport) (items : List Item) : Planning :=
  { implementors := implementingMethods (foundIn items)
      (implementingTypes u r (items.filterMap Item.assertion?) o.assertedOnly)
    mode := o.mode }

/-- plans the declarations among some items and runs their jobs -/
def Planning.execute (x : Planning) (items : List Item) : Loaded :=
  let p := x.plan (foundIn items)
  let outcomes := runJobs p x.mode
  { packages := Outcome.collect (outcomes.map Prod.snd)
    results := sortResults (items.filterMap Item.result? ++ p.results
      ++ outcomes.filterMap fun e => e.2.result?)
    log := items.filterMap Item.line? ++ p.log
      ++ outcomes.flatMap fun e => [e.1.startLine, e.2.line] }

/-- the contracts of a module; `typeError` is the reason why its source is faulty, if it is -/
def load (o : LoadOptions) (m : SourceModule) (r : TypeReport) (typeError : Option Text) :
    Except LoadFault Loaded :=
  if o.patterns.isEmpty then .error .noPackages
  else
    match typeError with
    | some why => .error (.source why)
    | none =>
      let u := Universe.of m o.tests
      let items := packageItems m u (m.matched o.tests o.dir o.patterns)
      .ok ((planningFor o u r items).execute items)

end ContractChecks
