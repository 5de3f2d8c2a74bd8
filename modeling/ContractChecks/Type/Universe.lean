import ContractChecks.Type.Scope

/-!
# Definitions of types

The types of a program with their definitions and methods.  A definition either makes a new type
or gives another name to an existing one.

* `Universe`: the definitions and methods;
* `Universe.unalias t`: the type `t` under its first name;
* `Universe.underlying t`: what `t` is made of;
* `Universe.typeSet t`: the methods of the interface `t`, and the types it is restricted to;
* `Universe.canonical t`: a text that two types share if and only if they are the same type.
-/

namespace ContractChecks

structure TypeDef where
  key : TypeKey
  /-- the type parameters -/
  params : List Text := []
  /-- whether it is another name for the type it is defined as -/
  isAlias : Bool := false
  body : TypeExpr
deriving Repr

structure MethodDef where
  owner : TypeKey
  /-- the names given to the type parameters of the owner -/
  params : List Text := []
  /-- whether it needs a pointer -/
  pointer : Bool := false
  head : MethodHead
  type : TypeExpr
deriving Repr

structure Universe where
  types : List TypeDef := []
  methods : List MethodDef := []
deriving Repr

/-! ### predeclared types -/

def predeclared (name : Text) : TypeKey := { name := name }

def errorKey : TypeKey := predeclared "error"

def emptyInterface : TypeExpr := .node (.interface []) []

/-- the definitions of predeclared names; the types without one are made of themselves -/
def predeclaredTypes : List TypeDef :=
  let stringFunc : TypeExpr := .node (.func [] false [[]]) [.ofKey (predeclared "string")]
  [{ key := errorKey, body := .node (.interface [{ name := "Error" }]) [stringFunc] },
   { key := predeclared "comparable", body := emptyInterface },
   { key := predeclared "any", isAlias := true, body := emptyInterface },
   { key := predeclared "byte", isAlias := true, body := .ofKey (predeclared "uint8") },
   { key := predeclared "rune", isAlias := true, body := .ofKey (predeclared "int32") }]

namespace Universe

def type? (u : Universe) (k : TypeKey) : Option TypeDef := u.types.find? fun d => d.key = k

def isAlias (u : Universe) (k : TypeKey) : Bool := (u.type? k).any TypeDef.isAlias

/-! ### definitions opened -/

/-- a type whose name is replaced by its definition as long as `p` holds of it, at most `n`
times -/
def openTo (u : Universe) (p : TypeDef → Bool) : Nat → TypeExpr → TypeExpr
  | n + 1, .node (.named k) args =>
    match (u.type? k).filter p with
    | some d => u.openTo p n (d.body.instantiate (d.params.zip args))
    | none => .node (.named k) args
  | _, t => t

/-- the type under its first name -/
def unalias (u : Universe) (t : TypeExpr) : TypeExpr :=
  u.openTo TypeDef.isAlias (u.types.length + 1) t

/-- what the type is made of -/
def underlying (u : Universe) (t : TypeExpr) : TypeExpr :=
  u.openTo (fun _ => true) (u.types.length + 1) t

def isInterface (u : Universe) (t : TypeExpr) : Bool :=
  match u.underlying t with
  | .node (.interface _) _ => true
  | _ => false

/-- the type that a pointer points to, and whether there was a pointer -/
def pointed (u : Universe) (t : TypeExpr) : TypeExpr × Bool :=
  match u.unalias t with
  | .node .pointer [x] => (u.unalias x, true)
  | x => (x, false)

/-! ### identity -/

end Universe

/-- a method as far as interfaces are concerned -/
structure MethodSig where
  head : MethodHead
  /-- the canonical text of its type -/
  type : Text
deriving DecidableEq, Repr

/-- the types that an interface allows: they have all the methods and are among every choice -/
structure TypeSet where
  methods : List MethodSig := []
  choices : List (List (Bool × TypeExpr)) := []

namespace TypeSet

def append (a b : TypeSet) : TypeSet :=
  { methods := a.methods ++ b.methods, choices := a.choices ++ b.choices }

def concat (ss : List TypeSet) : TypeSet := ss.foldl append {}

end TypeSet

/-- a name with the package it belongs to, if it is not visible outside it -/
def ownedName (package name : Text) : Text :=
  if package = [] then name else package ++ "." ++ name

/-- a head without everything that does not matter for what the type is, and with the packages of
names that belong to one -/
def TypeHead.bare : TypeHead → TypeHead
  | .func ps v rs => .func (ps.map fun _ => []) v (rs.map fun _ => [])
  | .struct fs =>
    .struct (fs.map fun f =>
      { f with
        name := ownedName f.package f.name ++ (if f.embedded then ['!'] else [])
        embedded := false })
  | h => h

def MethodSig.le (a b : MethodSig) : Bool :=
  (ownedName a.head.package a.head.name).le (ownedName b.head.package b.head.name)

def canonicalInterface (methods : List MethodSig) (choices : List Text) : Text :=
  let sorted := methods.eraseDups.mergeSort MethodSig.le
  TypeHead.bracedText "interface"
    (sorted.map (fun m =>
      TypeHead.methodText ⟨ownedName m.head.package m.head.name, []⟩ m.type) ++ choices)

namespace Universe

mutual

/-- the canonical text of a type, with a bound on the depth of calls -/
def canonicalTo (u : Universe) : Nat → TypeExpr → Text
  | 0, _ => []
  | n + 1, t =>
    match u.unalias t with
    | .node (.interface ms) parts =>
      let s := u.typeSetTo n (.node (.interface ms) parts)
      canonicalInterface s.methods (s.choices.map fun c =>
        TypeHead.text fullTypeName (.union (c.map Prod.fst))
          (c.map fun p => u.canonicalTo n p.2))
    | .node h parts => h.bare.text fullTypeName (parts.map (u.canonicalTo n))

/-- the type set of an interface, with a bound on the depth of calls -/
def typeSetTo (u : Universe) : Nat → TypeExpr → TypeSet
  | 0, _ => {}
  | n + 1, t =>
    match u.underlying t with
    | .node (.interface ms) parts =>
      let own := (ms.zip parts).map fun p => ⟨p.1, u.canonicalTo n p.2⟩
      TypeSet.append { methods := own }
        (TypeSet.concat ((parts.drop ms.length).map (u.typeSetTo n)))
    | .node (.union marks) parts => { choices := [marks.zip parts] }
    | _ => { choices := [[(false, t)]] }

end

/-- a bound that the depth of a type stays below when all definitions in it are opened -/
def depthBound (u : Universe) (t : TypeExpr) : Nat :=
  2 * (u.types.foldl (fun n d => n + d.body.size) (t.size + 1))

def canonical (u : Universe) (t : TypeExpr) : Text := u.canonicalTo (u.depthBound t) t

def typeSet (u : Universe) (t : TypeExpr) : TypeSet := u.typeSetTo (u.depthBound t) t

def isError (u : Universe) (t : TypeExpr) : Bool :=
  match u.unalias t with
  | .node (.named k) _ => k = errorKey
  | _ => false

end Universe

end ContractChecks
