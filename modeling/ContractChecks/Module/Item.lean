import ContractChecks.Module.Types
import ContractChecks.Report.Result

/-!
# Declarations of a source file

What a file contributes to the checks of its package.  Functions stand at the first column of
their line; the methods of an interface and their comments are indented by one column.

* `Found`: a declaration with its position and the imports it can use;
* `Item`: what a file contributes: declarations, declarations with an unknown directive, and
  assertions that a type implements an interface;
* `fileItems`: the items of a file in order.
-/

namespace ContractChecks

structure PackageInfo where
  name : Text
  path : Text
  dir : Text
deriving DecidableEq, Repr

structure Found where
  decl : Declaration
  pos : Position
  /-- the package names that can be used where the method is declared -/
  imports : Imports := []
  package : PackageInfo
  /-- the type that a method with a receiver belongs to -/
  receiverKey? : Option TypeKey := none

inductive Item where
  | declaration (f : Found)
  | rejected (f : Finding)
  | assertion (interface type : TypeKey)

structure FileContext where
  /-- the full name of the file -/
  file : Text
  package : PackageInfo
  scope : FileScope
  imports : Imports
  /-- the types of the module -/
  types : Universe

namespace FileContext

/-- a position in the file; lines stand for offsets -/
def position (x : FileContext) (line column : Nat) : Position :=
  { file := x.file, line := line, column := column, offset := line }

/-- a comment at a column; carriage returns do not count in it -/
def comment (x : FileContext) (column : Nat) (c : SourceComment) : Comment :=
  { text := dropReturnsInComment c.text, pos := some (x.position c.line column) }

/-- the type defined in the package that a result is, or points to -/
def built? (x : FileContext) (t : TypeExpr) : Option Text :=
  match if t.head = .pointer then t.parts else [t] with
  | [.node (.named k) _] =>
    if k.package = x.package.path && !x.types.isAlias k then some k.name else none
  | _ => none

def resultType (x : FileContext) (params : List Text) (text : Text) : ResultType :=
  match x.scope.type? params text with
  | some t =>
    { text := t.text (typeNameIn x.package.path)
      isError := x.types.isError t
      built? := x.built? t }
  | none => { text := text }

/-- what a function is declared on: an interface, if it is given, or its receiver -/
def holder (x : FileContext) (interface? : Option Text) (f : FuncDecl) : Holder :=
  match interface?, f.receiver with
  | some i, _ => .interface i
  | none, some r => .receiver r (x.types.isAlias ⟨x.package.path, r.type⟩)
  | none, none => .package

def typeParams (f : FuncDecl) : List Text :=
  typeParamNames f.typeParams ++ (f.receiver.map fun r => typeParamNames r.typeArgs).getD []

def declaration (x : FileContext) (interface? : Option Text) (f : FuncDecl)
    (ds : List Directive) : Declaration :=
  let params := typeParams f
  { package := x.package.path
    name := f.name
    typeParams := f.typeParams
    holder := x.holder interface? f
    params := f.params.map fun p => { p with type := x.scope.typeText params p.type }
    results := f.results.map (x.resultType params)
    hasBody := f.hasBody
    directives := ds
    eval := f.eval }

def funcItem (x : FileContext) (column : Nat) (interface? : Option Text) (f : FuncDecl) : Item :=
  let pos := x.position f.line column
  match readDirectives (f.comments.map (x.comment column)) with
  | .ok ds =>
    .declaration
      { decl := x.declaration interface? f ds
        pos := pos
        imports := x.imports
        package := x.package
        receiverKey? := f.receiver.bind (x.scope.receiverKey? x.types) }
  | .error e =>
    .rejected
      { pos := pos
        producer := (x.declaration interface? f []).producer
        reason := e.message }

def assertedKey? (x : FileContext) (text : Text) : Option TypeKey :=
  match x.scope.type? [] text with
  | some (.node (.named k) _) => if x.types.isAlias k then none else some k
  | _ => none

/-- an assertion counts only for types under the names they are defined with -/
def assertionItem? (x : FileContext) (a : AssertionDecl) : Option Item := do
  let i ← x.assertedKey? a.interface
  let t ← x.assertedKey? a.type
  if x.types.isInterface (.ofKey i) then some (.assertion i t) else none

def declItems (x : FileContext) : Decl → List Item
  | .type _ => []
  | .assertion a => (x.assertionItem? a).toList
  | .func f => [x.funcItem 1 none f]
  | .interface i => i.methods.map (x.funcItem 2 (some i.name))

def of (m : SourceModule) (u : Universe) (p : SourcePackage) (f : SourceFile) : FileContext :=
  { file := m.fullName f.path
    package := { name := p.name, path := p.path, dir := p.dir }
    scope := p.scope m f
    imports := p.fileImports m f
    types := u }

end FileContext

def SourceModule.context (m : SourceModule) (f : SourceFile) : FileContext :=
  FileContext.of m (Universe.of m false) (m.packageOf m.files f.dir) f

def fileItems (m : SourceModule) (u : Universe) (p : SourcePackage) (f : SourceFile) : List Item :=
  f.decls.flatMap (FileContext.of m u p f).declItems

end ContractChecks
