import ContractChecks.Declaration.Basic
import ContractChecks.Module.Target
import ContractChecks.Report.Path
import ContractChecks.Wrapper.Imports

/-!
# Source modules

A module is a directory of source files.  The files of one directory make a package, whose import
path is that of the module followed by the directory.

* `SourceModule.packages tests`: the packages of a module;
* `SourcePackage.isMatched`: whether a pattern selects a package; a pattern names a directory or
  an import path, and one that ends in three dots also selects everything below;
* `SourcePackage.fileImports`: the package names that can be used in a file.
-/

namespace ContractChecks

structure ImportDecl where
  /-- empty if the package is imported under its own name -/
  name : Text := []
  path : Text
deriving DecidableEq, Repr

structure SourceComment where
  text : Text
  line : Nat := 0
deriving DecidableEq, Repr

structure FuncDecl where
  name : Text
  typeParams : Text := []
  receiver : Option Receiver := none
  params : List Param := []
  results : List Text := []
  comments : List SourceComment := []
  /-- the line of the function itself -/
  line : Nat := 0
  hasBody : Bool := true
  eval : Evaluator

structure TypeDecl where
  name : Text
  typeParams : Text := []
  definition : Text
deriving DecidableEq, Repr

structure InterfaceDecl where
  name : Text
  /-- the interfaces whose methods it takes over -/
  embeds : List Text := []
  methods : List FuncDecl := []

/-- a statement in the source that a type implements an interface -/
structure AssertionDecl where
  interface : Text
  type : Text
deriving DecidableEq, Repr

inductive Decl where
  | type (t : TypeDecl)
  | interface (i : InterfaceDecl)
  | func (f : FuncDecl)
  | assertion (a : AssertionDecl)

structure SourceFile where
  /-- the path below the directory of the module -/
  path : Text
  /-- the name of the package -/
  package : Text
  imports : List ImportDecl := []
  decls : List Decl := []

structure SourceModule where
  dir : Text
  /-- the import path -/
  path : Text
  files : List SourceFile := []

structure SourcePackage where
  name : Text
  path : Text
  dir : Text
  files : List SourceFile := []

/-! ### files -/

namespace SourceFile

def dir (f : SourceFile) : Path := (Path.parse f.path).parent

def isTest (f : SourceFile) : Bool := f.path.endsWith "_test.go"

/-- whether the file belongs to a package: those that only document one do not -/
def isSource (f : SourceFile) : Bool :=
  isSourceName (pathBase f.path) && f.package != "documentation".toList

def typeNames (f : SourceFile) : List Text :=
  f.decls.filterMap fun d =>
    match d with
    | .type t => some t.name
    | .interface i => some i.name
    | _ => none

end SourceFile

/-! ### packages -/

namespace SourceModule

def fullName (m : SourceModule) (below : Text) : Text := ((Path.parse m.dir).join below).text

def packageOf (m : SourceModule) (files : List SourceFile) (dir : Path) : SourcePackage :=
  let inside := files.filter fun f => f.dir = dir
  { name := (inside.head?.map SourceFile.package).getD []
    path := Text.join "/" (m.path :: dir.elements)
    dir := m.fullName dir.text
    files := inside }

/-- the packages of a module.  Test sources belong to a package only if `tests` is set, and then
only packages with test sources count. -/
def packages (m : SourceModule) (tests : Bool) : List SourcePackage :=
  let files := m.files.filter fun f => f.isSource && (tests || !f.isTest)
  let all := (files.map SourceFile.dir).eraseDups.map (m.packageOf files)
  all.filter fun p => !tests || p.files.any SourceFile.isTest

/-- the name of the package with an import path; a package outside the module is called like the
last element of its path -/
def importedName (m : SourceModule) (path : Text) : Text :=
  match (m.packages false).find? fun p => p.path = path with
  | some p => p.name
  | none => pathBase path

end SourceModule

namespace SourcePackage

def typeNames (p : SourcePackage) : List Text := p.files.flatMap SourceFile.typeNames

def ownImports (m : SourceModule) (f : SourceFile) : Imports :=
  f.imports.map fun i => (if i.name = [] then m.importedName i.path else i.name, i.path)

/-- the package names that can be used in a file: its own imports, and the imports of the other
files of the package under their own names -/
def fileImports (m : SourceModule) (p : SourcePackage) (f : SourceFile) : Imports :=
  let all := p.files.flatMap fun g => g.imports.map fun i => (m.importedName i.path, i.path)
  all.foldl (fun r e => if r.any fun x => x.1 = e.1 then r else r ++ [e]) (ownImports m f)

end SourcePackage

/-! ### patterns -/

/-- the mark of a pattern that also selects everything below -/
def belowMark : Text := "..."

/-- a directory that patterns pass over -/
def isHiddenElement (e : Text) : Bool :=
  e.startsWith "." || e.startsWith "_" || e = "testdata" || e = "vendor"

/-- the path a pattern starts at, and whether everything below is selected -/
def cutPattern (pattern : Text) : Text × Bool :=
  if pattern.endsWith ("/" ++ belowMark) then (Text.dropEnd ("/" ++ belowMark) pattern, true)
  else (pattern, false)

/-- whether a list of elements is `start`, or lies below it if `below` is set -/
def reaches (start elements : List Text) (below : Bool) : Bool :=
  elements = start
    || (below && start.isPrefixOf elements
      && !(elements.drop start.length).any isHiddenElement)

def isDirPattern (m : SourceModule) (pattern : Text) : Bool :=
  pattern = "." || pattern = ".." || pattern.startsWith "./" || pattern.startsWith "../"
    || pattern.startsWith "/" || pattern = m.dir || pattern.startsWith (m.dir ++ "/")

def resolveDir (m : SourceModule) (work : Path) (s : Text) : Path :=
  if s.startsWith "/" || s = m.dir || s.startsWith (m.dir ++ "/") then Path.parse s
  else work.join s

namespace SourcePackage

/-- whether a pattern, used in the directory `work`, selects the package -/
def isMatched (m : SourceModule) (work : Path) (p : SourcePackage) (pattern : Text) : Bool :=
  let c := cutPattern pattern
  if isDirPattern m pattern then
    reaches (resolveDir m work c.1).elements (Path.parse p.dir).elements c.2
  else
    reaches (Text.splitAtChar '/' c.1) (Text.splitAtChar '/' p.path) c.2

end SourcePackage

def SourceModule.matched (m : SourceModule) (tests : Bool) (work : Path) (patterns : List Text) :
    List SourcePackage :=
  (m.packages tests).filter fun p => patterns.any (p.isMatched m work)

end ContractChecks
