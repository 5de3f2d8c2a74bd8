import ContractChecks.Text.Basic

/-!
# Slash-separated paths

A path is a list of elements, rooted or not.  Reading a text drops empty and single-dot elements,
and lets a double-dot element remove the one before it.

* `Path.parse`, `Path.text`: the path of a text and back;
* `Path.relative? base target`: the way from `base` to `target`;
* `Path.parent`: the path without its last element;
* `pathBase`: the last element of a path.
-/

namespace ContractChecks

structure Path where
  rooted : Bool := false
  elements : List Text := []
deriving DecidableEq, Repr

namespace Path

def dot : Text := "."
def dotDot : Text := ".."

/-- adds an element at the end -/
def push (p : Path) (e : Text) : Path :=
  if e = [] || e = dot then p
  else if e = dotDot then
    match p.elements.getLast? with
    | none => if p.rooted then p else { p with elements := [e] }
    | some x =>
      if x = dotDot then { p with elements := p.elements ++ [e] }
      else { p with elements := p.elements.dropLast }
  else { p with elements := p.elements ++ [e] }

def parse (s : Text) : Path :=
  (Text.splitAtChar '/' s).foldl push { rooted := s.startsWith "/" }

def text (p : Path) : Text :=
  if p.rooted then '/' :: Text.join "/" p.elements
  else if p.elements.isEmpty then dot
  else Text.join "/" p.elements

/-- adds the elements of a text at the end -/
def join (p : Path) (s : Text) : Path := (Text.splitAtChar '/' s).foldl push p

def parent (p : Path) : Path := { p with elements := p.elements.dropLast }

/-- two lists without the elements they have in common at their start -/
def dropCommon : List Text → List Text → List Text × List Text
  | x :: xs, y :: ys => if x = y then dropCommon xs ys else (x :: xs, y :: ys)
  | xs, ys => (xs, ys)

/-- the elements by which a path is named as a target: the current directory has its dot -/
def targetElements (p : Path) : List Text :=
  if p.rooted || !p.elements.isEmpty then p.elements else [dot]

/-- the way from `base` to `target`; there is none between a rooted path and another, and none
down from a directory that is only known as the parent of others -/
def relative? (base target : Path) : Option Text :=
  if base = target then some dot
  else if base.rooted != target.rooted then none
  else
    let p := dropCommon base.elements target.targetElements
    if p.1.head? = some dotDot && !p.2.isEmpty then none
    else some (Text.join "/" (p.1.map (fun _ => dotDot) ++ p.2))

end Path

/-- the last element of a slash-separated path -/
def pathBase (path : Text) : Text :=
  if path = [] then "."
  else
    match (Text.splitAtChar '/' path).filter (· != []) with
    | [] => "/"
    | parts => parts.getLastD []

/-- a file name as seen from a directory; it stays as it is if the directory is empty, or if there
is no way from it -/
def relativeName (base file : Text) : Text :=
  if base = [] then file else ((Path.parse base).relative? (Path.parse file)).getD file

end ContractChecks
