import ContractChecks.Type.Universe

/-!
# Implemented interfaces

A type implements an interface if it has all its methods: same name, same parameter types, same
result types.  A type has the methods declared on it and those of the fields embedded in it, where
a nearer one hides those further away, and two at the same distance hide each other.  A method that
needs a pointer belongs to a value only if the value is reached through a pointer.

* `Universe.find?`: the method of a type with a given name;
* `TypeReport`: what type checking reports about the types that values have, and in which order;
* `Universe.implementors`: those of the types that implement an interface.
-/

namespace ContractChecks

/-- a type at some distance from the one in which a name is looked up -/
structure Reached where
  type : TypeExpr
  /-- whether a pointer was followed on the way -/
  indirect : Bool

/-- what a name means in a type: a method, or something else -/
structure Hit where
  method? : Option MethodSig := none
  /-- whether it needs a pointer and there is none -/
  unreachable : Bool := false

namespace Universe

/-- the methods of a given name that are declared on a type -/
def ownHits (u : Universe) (m : MethodHead) (r : Reached) : List Hit :=
  match r.type with
  | .node (.named k) args =>
    (u.methods.filter fun d => d.owner = k && d.head = m).map fun d =>
      { method? := some ⟨m, u.canonical (d.type.instantiate (d.params.zip args))⟩
        unreachable := d.pointer && !r.indirect }
  | _ => []

/-- the meanings of a name in what a type is made of -/
def innerHits (u : Universe) (m : MethodHead) (r : Reached) : List Hit :=
  match u.underlying r.type with
  | .node (.struct fs) _ =>
    (fs.filter fun f => f.name = m.name && f.package = m.package).map fun _ => {}
  | .node (.interface ms) parts =>
    let s := u.typeSet (.node (.interface ms) parts)
    (s.methods.eraseDups.filter fun x => x.head = m).map fun x => { method? := some x }
  | _ => []

/-- the meanings of a name in a type; a method declared on it hides all else -/
def hits (u : Universe) (m : MethodHead) (r : Reached) : List Hit :=
  match u.ownHits m r with
  | [] => u.innerHits m r
  | hs => hs

def embedded (u : Universe) (r : Reached) : List Reached :=
  match u.underlying r.type with
  | .node (.struct fs) parts =>
    ((fs.zip parts).filter fun p => p.1.embedded).map fun p =>
      let x := u.pointed p.2
      { type := x.1, indirect := r.indirect || x.2 }
  | _ => []

def mark? (u : Universe) (r : Reached) : Option Text :=
  match r.type with
  | .node (.named _) _ => some (u.canonical r.type)
  | _ => none

/-- the method of a name in the types at one distance or further away; the named types in `seen`
were looked at before -/
def findFrom (u : Universe) (m : MethodHead) :
    Nat → List Text → List Reached → Option Hit
  | 0, _, _ => none
  | n + 1, seen, level =>
    match level.flatMap (u.hits m) with
    | [] =>
      let seen := seen ++ level.filterMap u.mark?
      let next := (level.flatMap u.embedded).filter fun r =>
        !(u.mark? r).any fun k => seen.contains k
      if next.isEmpty then none else u.findFrom m n seen next
    | [h] => some h
    | _ => none

/-- the method of a type, its own or one of an embedded field; `pointer` tells whether it is looked
up in the pointers to the type -/
def find? (u : Universe) (t : TypeExpr) (pointer : Bool) (m : MethodHead) : Option MethodSig :=
  ((u.findFrom m (u.types.length + 1) [] [{ type := t, indirect := pointer }]).filter
    fun h => !h.unreachable).bind Hit.method?

def isAmong (u : Universe) (t : TypeExpr) (choice : List (Bool × TypeExpr)) : Bool :=
  choice.any fun c =>
    if c.1 then u.canonical (u.underlying t) = u.canonical (u.underlying c.2)
    else u.canonical t = u.canonical c.2

/-- whether a type has all that the types of a set have; with `pointer`, whether the pointers to it
do -/
def belongs (u : Universe) (s : TypeSet) (t : TypeExpr) (pointer : Bool) : Bool :=
  (s.methods.all fun m => u.find? t pointer m.head = some m)
    && s.choices.all (u.isAmong (if pointer then .pointerTo t else t))

def name? (u : Universe) (t : TypeExpr) : Option TypeKey :=
  match (u.pointed t).1 with
  | .node (.named k) _ => some k
  | _ => none

/-- whether a type implements an interface; interfaces do not, nor do the pointers to them -/
def implements (u : Universe) (t interface : TypeExpr) : Bool :=
  let x := u.pointed t
  !u.isInterface x.1 && u.belongs (u.typeSet interface) x.1 x.2

/-- the names of those types that implement an interface, each once -/
def implementors (u : Universe) (runtime : List TypeExpr) (interface : TypeKey) : List TypeKey :=
  ((runtime.filter fun t => u.implements t (.ofKey interface)).filterMap u.name?).eraseDups

def definedTypes (u : Universe) : List TypeExpr :=
  (u.types.filter fun d => d.params.isEmpty && !d.isAlias).flatMap fun d =>
    [.ofKey d.key, .pointerTo (.ofKey d.key)]

/-- the interface that a name stands for under the name it was defined with first, found through
at most `n` definitions -/
def firstNameTo (u : Universe) : Nat → TypeKey → TypeKey
  | 0, k => k
  | n + 1, k =>
    match (u.type? k).map TypeDef.body with
    | some (.node (.named b) []) => u.firstNameTo n b
    | _ => k

def firstName (u : Universe) (k : TypeKey) : TypeKey := u.firstNameTo u.types.length k

end Universe

/-- What type checking reports, as far as it is free to choose. -/
structure TypeReport where
  /-- the types that values have when the program runs -/
  runtime : Universe → List TypeExpr
  /-- the order in which the interfaces of assertions are gone through -/
  order : List TypeKey → List TypeKey
  perm : ∀ ks, (order ks).Perm ks

/-- the report in which every defined type is the type of some value -/
def TypeReport.complete : TypeReport := ⟨Universe.definedTypes, id, List.Perm.refl⟩

end ContractChecks
