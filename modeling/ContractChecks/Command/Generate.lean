import ContractChecks.Module.Load

/-!
# Generated files of a module

Every package with a checked method gets a file with the wrappers of its methods, and another one
for the methods declared in test sources.  The files are written next to the sources of the
package, unless a single output file is named.

* `Workplace`: the module and the files around it;
* `writePackages`: writes the files of checked packages, up to the first failure.
-/

namespace ContractChecks

/-- what a command works on -/
structure Workplace where
  module : SourceModule
  /-- the directory the command is used in -/
  dir : Text := module.dir
  /-- the reason why the source is faulty, if it is -/
  typeError : Option Text := none
  report : TypeReport := .complete
  /-- the configuration files with their texts, by full name -/
  configs : List (Text × Text) := []

namespace Workplace

def dirs (w : Workplace) : List Path :=
  Path.parse w.module.dir
    :: w.module.files.map fun f => Path.parse (w.module.fullName f.dir.text)

/-- the path that a text names where the command is used -/
def resolve (w : Workplace) (s : Text) : Path := resolveDir w.module (Path.parse w.dir) s

/-- whether a path is a directory of the module, or above one -/
def isDir (w : Workplace) (p : Path) : Bool :=
  w.dirs.any fun d => d.rooted = p.rooted && p.elements.isPrefixOf d.elements

end Workplace

inductive GenerateFault where
  /-- one output file for several packages: the file written and the next package -/
  | sharedOutput (file package : Text)
  | cannotOpen (file reason : Text)
  | unknownStatement (package : Text) (statement : UnknownStatement)
  | load (fault : LoadFault)
deriving DecidableEq, Repr

def GenerateFault.message : GenerateFault → Text
  | .sharedOutput file package =>
    "--out cannot be used when generating " ++ file ++ " and " ++ package
  | .cannotOpen file why => file ++ ": open " ++ file ++ ": " ++ why
  | .unknownStatement package u => "rendering " ++ package ++ ": " ++ u.message
  | .load f => f.message

/-- what was written so far -/
structure Written where
  files : List (Text × GeneratedFile) := []
  log : List Text := []

/-- writing can fail, and keeps what was written before the failure -/
abbrev WriteM := EStateM GenerateFault Written

def packageFile (p : CheckedPackage) (test : Bool) : WriteM (Option GeneratedFile) :=
  let wrappers := p.methods.map CheckedMethod.packaged
  match GeneratedFile.render p.info.path p.info.name test wrappers with
  | .ok f => pure f
  | .error u => throw (.unknownStatement p.info.path u)

/-- the name of the file for the wrappers of a package; `out` is the output file asked for, empty
if there is none -/
def fileName (out : Text) (p : CheckedPackage) (test : Bool) : WriteM Text := do
  if out = [] then
    let stop : Text := if test then "_rac_test.go" else "_rac.go"
    return ((Path.parse p.info.dir).join (p.info.name ++ stop)).text
  else
    match (← get).files.head? with
    | some f => throw (.sharedOutput f.1 p.info.path)
    | none => return out

def writeFile (w : Workplace) (name : Text) (f : GeneratedFile) : WriteM Unit := do
  if w.isDir (w.resolve name) then throw (.cannotOpen name "is a directory")
  else if w.isDir (w.resolve name).parent then
    modify fun s => { files := s.files ++ [(name, f)], log := s.log ++ ["wrote " ++ name] }
  else throw (.cannotOpen name "no such file or directory")

/-- writes one of the files of a package, if there is something to write -/
def writeTests (w : Workplace) (out : Text) (p : CheckedPackage) (test : Bool) : WriteM Unit := do
  match ← packageFile p test with
  | none => return
  | some f =>
    let name ← fileName out p test
    writeFile w name f

/-- writes the files of a package; the support package is passed over -/
def writePackage (w : Workplace) (out : Text) (p : CheckedPackage) : WriteM Unit := do
  if inPackage p.info.path supportPath then
    modify fun s => { s with log := s.log ++ ["skipping " ++ p.info.path] }
  else
    writeTests w out p false
    writeTests w out p true

def writePackages (w : Workplace) (out : Text) (ps : List CheckedPackage) : WriteM Unit :=
  ps.forM (writePackage w out)

end ContractChecks
