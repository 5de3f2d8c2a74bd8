import ContractChecks.Module.Source
import ContractChecks.Type.Implements

/-!
# Types of a module

The type definitions and methods in the source of a module.

* `SourcePackage.scope`: what names mean in a file;
* `FileScope.funcType`: the type of a function;
* `Universe.of`: the universe of a module.
-/

namespace ContractChecks

namespace SourcePackage

/-- the types of a package that are visible outside it -/
def exportedTypes (p : SourcePackage) : List TypeKey :=
  (p.typeNames.filter isExported).map fun n => ⟨p.path, n⟩

def unnamedImports (m : SourceModule) (f : SourceFile) : List SourcePackage :=
  (m.packages false).filter fun p => f.imports.any fun i => i.name = "." && i.path = p.path

def scope (m : SourceModule) (p : SourcePackage) (f : SourceFile) : FileScope :=
  { package := p.path
    imports := ownImports m f
    types := p.typeNames
    foreign := (unnamedImports m f).flatMap exportedTypes }

end SourcePackage

/-! ### definitions -/

namespace FileScope

/-- the type that a text means; a text that is no type is a type of its own -/
def typeOf (s : FileScope) (params : List Text) (text : Text) : TypeExpr :=
  (s.type? params text).getD (.ofKey (predeclared text))

def funcType (s : FileScope) (params : List Text) (f : FuncDecl) : TypeExpr :=
  .node (.func (f.params.map Param.name) (f.params.any Param.variadic) (f.results.map fun _ => []))
    (f.params.map (fun p => s.typeOf params p.type) ++ f.results.map (s.typeOf params))

/-- a definition; the sign of equality makes it another name for a type -/
def typeDef (s : FileScope) (t : TypeDecl) : TypeDef :=
  let params := typeParamNames t.typeParams
  let body := t.definition.trim
  { key := ⟨s.package, t.name⟩
    params := params
    isAlias := body.startsWith "="
    body := (s.type? params (Text.dropStart "=" body)).getD (.node (.struct []) []) }

def interfaceDef (s : FileScope) (i : InterfaceDecl) : TypeDef :=
  let heads := i.methods.map fun f => { name := f.name, package := namePackage s.package f.name }
  let embedded := (i.embeds.filterMap TypeExpr.parseEmbedded?).map (s.resolve [])
  { key := ⟨s.package, i.name⟩
    body := .node (.interface heads) (i.methods.map (s.funcType []) ++ embedded) }

def def? (s : FileScope) : Decl → Option TypeDef
  | .type t => some (s.typeDef t)
  | .interface i => some (s.interfaceDef i)
  | _ => none

/-- the type that the methods with a receiver belong to -/
def receiverKey? (s : FileScope) (u : Universe) (r : Receiver) : Option TypeKey :=
  match (u.pointed (s.resolve [] (.ofKey { name := r.type }))).1 with
  | .node (.named k) _ => some k
  | _ => none

def method? (s : FileScope) (u : Universe) : Decl → Option MethodDef
  | .func f => do
    let r ← f.receiver
    let owner ← s.receiverKey? u r
    let params := typeParamNames r.typeArgs
    return {
      owner := owner
      params := params
      pointer := r.pointer
      head := { name := f.name, package := namePackage s.package f.name }
      type := s.funcType params f }
  | _ => none

end FileScope

/-- everything that is found in the declarations of some packages, in order -/
def collectDecls {α : Type} (m : SourceModule) (ps : List SourcePackage)
    (f : FileScope → Decl → Option α) : List α :=
  ps.flatMap fun p => p.files.flatMap fun file => file.decls.filterMap (f (p.scope m file))

/-- the universe of a module, with its test sources if `tests` is set -/
def Universe.of (m : SourceModule) (tests : Bool) : Universe :=
  let ps := m.packages false ++ if tests then m.packages true else []
  let u : Universe := { types := predeclaredTypes ++ collectDecls m ps FileScope.def? }
  { u with methods := collectDecls m ps fun s => s.method? u }

end ContractChecks
