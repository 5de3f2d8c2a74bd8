import ContractChecks.Text.Basic

/-!
# Types

A type is a tree: a head, which says what sort of type it is, over the types it is made of.

* `TypeHead`: a named type, a pointer, a function, a structure, ...;
* `TypeExpr.fold`: everything that is computed from a type without looking at definitions;
* `TypeExpr.text qualifier`: the type as it is written, where `qualifier` gives the names of named
  types;
* `TypeExpr.instantiate`: the type with other types in the place of type parameters.
-/

namespace ContractChecks

structure TypeKey where
  /-- the import path, or the name used for it in a file; empty for predeclared types -/
  package : Text := []
  name : Text
deriving DecidableEq, Repr

inductive ChannelUse where
  | both
  | send
  | receive
deriving DecidableEq, Repr

structure FieldHead where
  name : Text
  /-- the declaring package, empty for names visible outside it -/
  package : Text := []
  embedded : Bool := false
  /-- the tag as a quoted text -/
  tag : Text := []
deriving DecidableEq, Repr

structure MethodHead where
  name : Text
  /-- the declaring package, empty for names visible outside it -/
  package : Text := []
deriving DecidableEq, Repr

inductive TypeHead where
  /-- a named type over its type arguments -/
  | named (key : TypeKey)
  | param (name : Text)
  | pointer
  | slice
  | array (size : Text)
  | map
  | channel (use : ChannelUse)
  /-- a function over its parameters and results, with their names, which can be empty -/
  | func (params : List Text) (variadic : Bool) (results : List Text)
  | struct (fields : List FieldHead)
  /-- an interface over the types of its methods, followed by the embedded types -/
  | interface (methods : List MethodHead)
  /-- a choice of types; a mark lets a type stand for all types defined like it -/
  | union (marks : List Bool)
deriving DecidableEq, Repr

inductive TypeExpr where
  | node (head : TypeHead) (parts : List TypeExpr)
deriving Repr

namespace TypeExpr

mutual

def fold {α : Type} (f : TypeHead → List α → α) : TypeExpr → α
  | .node h ps => f h (foldAll f ps)

def foldAll {α : Type} (f : TypeHead → List α → α) : List TypeExpr → List α
  | [] => []
  | t :: ts => t.fold f :: foldAll f ts

end

def head : TypeExpr → TypeHead
  | .node h _ => h

def parts : TypeExpr → List TypeExpr
  | .node _ ps => ps

def ofKey (k : TypeKey) : TypeExpr := .node (.named k) []

def pointerTo (t : TypeExpr) : TypeExpr := .node .pointer [t]

/-- the number of heads -/
def size (t : TypeExpr) : Nat := t.fold fun _ ns => ns.foldl (· + ·) 1

def mapHeads (f : TypeHead → TypeHead) (t : TypeExpr) : TypeExpr :=
  t.fold fun h ps => .node (f h) ps

/-- the type with other types in the place of type parameters -/
def instantiate (args : List (Text × TypeExpr)) (t : TypeExpr) : TypeExpr :=
  t.fold fun h ps =>
    match h with
    | .param n => (args.lookup n).getD (.node h ps)
    | h => .node h ps

end TypeExpr

/-! ### text -/

/-- a parameter or a result -/
def slotText (name type : Text) : Text := if name = [] then type else name ++ " " ++ type

/-- parameters between parentheses; the last one can be variadic -/
def paramsText (names : List Text) (variadic : Bool) (types : List Text) : Text :=
  let marked :=
    if variadic then types.dropLast ++ (types.getLast?.map fun t => ("..." : Text) ++ t).toList
    else types
  "(" ++ Text.join ", " ((names.zip marked).map fun p => slotText p.1 p.2) ++ ")"

def resultSlotsText (names : List Text) (types : List Text) : Text :=
  match names, types with
  | [], _ => []
  | [[]], [t] => " " ++ t
  | ns, ts => " " ++ paramsText ns false ts

namespace TypeHead

/-- parameters and results of a function -/
def signatureText (params : List Text) (variadic : Bool) (results : List Text)
    (types : List Text) : Text :=
  paramsText params variadic (types.take params.length)
    ++ resultSlotsText results (types.drop params.length)

def tagText (tag : Text) : Text := if tag = [] then [] else " " ++ tag

def fieldText (f : FieldHead) (type : Text) : Text :=
  (if f.embedded then type else f.name ++ " " ++ type) ++ tagText f.tag

/-- a method in an interface, whose type starts with the word for functions -/
def methodText (m : MethodHead) (type : Text) : Text := m.name ++ Text.dropStart "func" type

/-- several types in brackets -/
def argsText (args : List Text) : Text :=
  if args.isEmpty then [] else "[" ++ Text.join ", " args ++ "]"

def bracedText (word : Text) (members : List Text) : Text :=
  word ++ "\x7b" ++ Text.join "; " members ++ "\x7d"

def text (qualifier : TypeKey → Text) : TypeHead → List Text → Text
  | .named k, args => qualifier k ++ argsText args
  | .param n, _ => n
  | .pointer, ts => "*" ++ Text.concat ts
  | .slice, ts => "[]" ++ Text.concat ts
  | .array n, ts => "[" ++ n ++ "]" ++ Text.concat ts
  | .map, ts => "map[" ++ ts.headD [] ++ "]" ++ Text.concat ts.tail
  | .channel .both, ts =>
    let t := Text.concat ts
    if t.startsWith "<-" then "chan (" ++ t ++ ")" else "chan " ++ t
  | .channel .send, ts => "chan<- " ++ Text.concat ts
  | .channel .receive, ts => "<-chan " ++ Text.concat ts
  | .func ps v rs, ts => "func" ++ signatureText ps v rs ts
  | .struct fs, ts => bracedText "struct" ((fs.zip ts).map fun p => fieldText p.1 p.2)
  | .interface ms, ts =>
    bracedText "interface"
      (((ms.zip ts).map fun p => methodText p.1 p.2) ++ ts.drop ms.length)
  | .union marks, ts =>
    Text.join " | " ((marks.zip ts).map fun p => if p.1 then ("~" : Text) ++ p.2 else p.2)

end TypeHead

def TypeExpr.text (qualifier : TypeKey → Text) (t : TypeExpr) : Text :=
  t.fold (TypeHead.text qualifier)

end ContractChecks
