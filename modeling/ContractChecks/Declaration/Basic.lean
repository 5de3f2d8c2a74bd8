import ContractChecks.Directive.Comment
import ContractChecks.Directive.Expression
import ContractChecks.Text.Uppercase
import ContractChecks.Type.Reader

/-!
# Declarations

A function of a package, a method of a type or a method of an interface, with its directives.

* `Declaration.producer`: the qualified name, used in messages;
* `Declaration.method`: the method that contracts speak of.
-/

namespace ContractChecks

structure Receiver where
  name : Text := []
  type : Text
  /-- the type parameters in brackets, empty unless the type is generic -/
  typeArgs : Text := []
  pointer : Bool := false
deriving DecidableEq, Repr

/-- what a function is declared on -/
inductive Holder where
  | package
  /-- a receiver; its type is aliased if the name used for it is not the one it is defined with -/
  | receiver (r : Receiver) (aliased : Bool)
  | interface (name : Text)
deriving DecidableEq, Repr

structure ResultType where
  text : Text
  /-- whether it is the type of errors -/
  isError : Bool := false
  /-- the type defined in the same package that it is, or points to -/
  built? : Option Text := none
deriving DecidableEq, Repr

structure Declaration where
  /-- the import path of the declaring package -/
  package : Text
  name : Text
  /-- the type parameters in brackets, empty unless the function is generic -/
  typeParams : Text := []
  holder : Holder := .package
  params : List Param := []
  results : List ResultType := []
  hasBody : Bool := true
  directives : List Directive := []
  /-- what is known about the expressions of the directives -/
  eval : Evaluator

/-- the result type, empty if there is none, and whether a trailing error is returned -/
def resultShape : List ResultType → Except DirectiveFault (Text × Bool)
  | [] => .ok ([], false)
  | [t] => .ok (if t.isError then ([], true) else (t.text, false))
  | [t, e] => if e.isError then .ok (t.text, true) else .error (.resultCount 2)
  | ts => .error (.resultCount ts.length)

/-- what the directives say about the method itself -/
structure Marks where
  constructor : Bool := false
  tier : Tier
deriving DecidableEq, Repr

namespace Declaration

def isInterface (d : Declaration) : Bool :=
  match d.holder with
  | .interface _ => true
  | _ => false

def isPackageFunction (d : Declaration) : Bool := d.holder = .package

/-- the names of type parameters in brackets, empty if there are none -/
def typeArgsText (s : Text) : Text := TypeHead.argsText (typeParamNames s)

/-- the qualified name -/
def producer (d : Declaration) : Text :=
  match d.holder with
  | .package => d.package ++ "." ++ d.name
  | .receiver r _ =>
    "(" ++ (if r.pointer then ['*'] else []) ++ d.package ++ "." ++ r.type
      ++ typeArgsText r.typeArgs ++ ")." ++ d.name
  | .interface i => "(" ++ d.package ++ "." ++ i ++ ")." ++ d.name

/-- the method with everything that depends on what it is declared on -/
def heldMethod (d : Declaration) : Except DirectiveFault Method :=
  if d.typeParams != [] then .error .genericFunction
  else
    match d.holder with
    | .interface i => .ok { name := d.name, owner := i, params := d.params, abstract := true }
    | .receiver r aliased =>
      if aliased then .error (.aliasedReceiver (d.package ++ "." ++ r.type))
      else if r.typeArgs != [] then .error .genericReceiver
      else
        .ok {
          name := d.name
          owner := r.type
          receiver := if isBlankName r.name then [] else r.name
          pointerReceiver := r.pointer
          params := d.params
          abstract := !d.hasBody }
    | .package => .ok { name := d.name, params := d.params, static := true, abstract := !d.hasBody }

/-- applies a directive about the method itself -/
def mark (d : Declaration) (m : Marks) (dir : Directive) : Except DirectiveFault Marks :=
  match dir.kind with
  | .constructor =>
    if d.isPackageFunction then .ok { m with constructor := true } else .error .constructorMethod
  | .visibility => do
    let t ← Tier.parse dir.text
    return { m with tier := t }
  | _ => .ok m

/-- exported functions are public, the others belong to their package -/
def defaultTier (d : Declaration) : Tier := if isExported d.name then .pub else .pkg

def marks (d : Declaration) : Except DirectiveFault Marks :=
  d.directives.foldlM d.mark { tier := d.defaultTier }

/-- the type of the same package that a package function builds -/
def constructed? (d : Declaration) : Option Text :=
  if d.isPackageFunction then d.results.head?.bind ResultType.built? else none

/-- a function named after the type it builds is a constructor without being marked as one -/
def isConstructor (d : Declaration) (m : Marks) : Bool :=
  m.constructor || d.constructed?.any fun t => d.name = "New" ++ t

/-- the method that the contract of the declaration speaks of -/
def method (d : Declaration) : Except DirectiveFault Method := do
  let held ← d.heldMethod
  let shape ← resultShape d.results
  let marks ← d.marks
  let m := { held with
    returnType := shape.1, returnsError := shape.2, visibility := .of marks.tier }
  if d.isConstructor marks then
    match d.constructed? with
    | some t => .ok { m with constructor := true, owner := t, ownerType := shape.1 }
    | none => .error .foreignConstructor
  else .ok m

end Declaration

end ContractChecks
