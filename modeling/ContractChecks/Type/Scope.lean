import ContractChecks.Text.Uppercase
import ContractChecks.Type.Reader

/-!
# Names in a file

In a source text a type of another package is written with the name of the package in front of it,
and a type of the same package without one.  A package can also be imported without a name; its
types are then written like those of the same package.

* `FileScope.resolve`: a type in which every name stands for itself: import paths are in the place
  of package names;
* `FileScope.type? s`: the type that a text means in a file;
* `typeNameIn`: how the name of a type is written in a package.
-/

namespace ContractChecks

structure FileScope where
  /-- the import path of the package -/
  package : Text
  /-- the imported packages by the names used in the file -/
  imports : List (Text × Text) := []
  /-- the types declared in the package -/
  types : List Text := []
  /-- the types of packages imported without a name -/
  foreign : List TypeKey := []
deriving DecidableEq, Repr

namespace FileScope

/-- what the name of a type means, where `params` are the type parameters in scope -/
def resolveKey (s : FileScope) (params : List Text) (k : TypeKey) : TypeHead :=
  if k.package != [] then .named { k with package := (s.imports.lookup k.package).getD k.package }
  else if params.contains k.name then .param k.name
  else if s.types.contains k.name then .named { k with package := s.package }
  else .named ((s.foreign.find? fun f => f.name = k.name).getD k)

def resolveHead (s : FileScope) (params : List Text) : TypeHead → TypeHead
  | .named k => s.resolveKey params k
  | .struct fs => .struct (fs.map fun f => { f with package := namePackage s.package f.name })
  | .interface ms =>
    .interface (ms.map fun m => { m with package := namePackage s.package m.name })
  | h => h

def resolve (s : FileScope) (params : List Text) (t : TypeExpr) : TypeExpr :=
  t.mapHeads (s.resolveHead params)

def type? (s : FileScope) (params : List Text) (text : Text) : Option TypeExpr :=
  (TypeExpr.parse? text).map (s.resolve params)

end FileScope

/-- the name of a type as it is written in a package: types of other packages with their import
path -/
def typeNameIn (package : Text) (k : TypeKey) : Text :=
  if k.package = [] || k.package = package then k.name else k.package ++ "." ++ k.name

def fullTypeName (k : TypeKey) : Text := typeNameIn [] k

/-- the text of a type as it is written in the package of a file; a text that is no type stays as
it is -/
def FileScope.typeText (s : FileScope) (params : List Text) (text : Text) : Text :=
  match s.type? params text with
  | some t => t.text (typeNameIn s.package)
  | none => text

end ContractChecks
