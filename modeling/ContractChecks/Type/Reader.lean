import ContractChecks.Source.Bracket
import ContractChecks.Source.Token
import ContractChecks.Text.Quoted
import ContractChecks.Type.Expr

/-!
# Reading types

Reads a type from its tokens by recursive descent.  Every reader is given a bound on the depth of
its calls, and gives the tokens after what it has read.

* `TypeExpr.parse? s`: the type that the text `s` is;
* `typeParamNames s`: the names in a list of type parameters between brackets.
-/

namespace ContractChecks

def skipToken (t : Text) : List Text → Option (List Text)
  | [] => none
  | u :: r => if u = t then some r else none

def nextIs (t : Text) (ts : List Text) : Bool := ts.head? == some t

def endsSlot (ts : List Text) : Bool := nextIs "," ts || nextIs ")" ts

def endsField (ts : List Text) : Bool := nextIs ";" ts || nextIs "\x7d" ts

def startsType (ts : List Text) : Bool :=
  ts.head?.any isName || nextIs "*" ts || nextIs "[" ts || nextIs "<-" ts

/-- the name of a type, with the name of its package if it is given -/
def readKey (name : Text) (ts : List Text) : TypeKey × List Text :=
  match ts with
  | dot :: n :: r => if dot = "." && isName n then (⟨name, n⟩, r) else (⟨[], name⟩, ts)
  | _ => (⟨[], name⟩, ts)

def readNames : List Text → Option (List Text × List Text)
  | [] => none
  | n :: r =>
    if isName n then
      match r with
      | comma :: r' =>
        if comma = "," then (readNames r').map fun p => (n :: p.1, p.2) else some ([n], r)
      | [] => some ([n], [])
    else none

/-- the tag of a field in its quoted form, empty if there is none -/
def readTag (ts : List Text) : Text × List Text :=
  match ts with
  | t :: r =>
    if t.startsWith ['\x22'] then (t, r)
    else if t.startsWith ['\x60'] then (Text.quote (t.drop 1).dropLast, r)
    else ([], ts)
  | [] => ([], [])

/-- a parameter or result as it is written -/
structure Slot where
  name : Text := []
  variadic : Bool := false
  type : TypeExpr

def TypeExpr.loneName : TypeExpr → Text
  | .node (.named k) [] => k.name
  | _ => []

/-- parameters are all named or all without a name; several names can share a type -/
def shareSlots (slots : List Slot) : List Slot :=
  if slots.any fun s => s.name != [] then
    slots.foldr (fun s rest =>
      match rest with
      | next :: _ =>
        if s.name = [] then { next with name := s.type.loneName } :: rest else s :: rest
      | [] => [s]) []
  else slots

def funcType (params results : List Slot) : TypeExpr :=
  .node (.func (params.map Slot.name) (params.any Slot.variadic) (results.map Slot.name))
    ((params ++ results).map Slot.type)

/-- a member of an interface: a method, or an embedded type -/
structure Member where
  method? : Option MethodHead := none
  type : TypeExpr

def interfaceType (members : List Member) : TypeExpr :=
  let methods := members.filter fun m => m.method?.isSome
  let embedded := members.filter fun m => m.method?.isNone
  .node (.interface (methods.filterMap Member.method?)) ((methods ++ embedded).map Member.type)

/-- a choice of types; one type without a mark stands for itself -/
def unionType : List (Bool × TypeExpr) → TypeExpr
  | [(false, t)] => t
  | terms => .node (.union (terms.map Prod.fst)) (terms.map Prod.snd)

namespace TypeExpr

mutual

def readType : Nat → List Text → Option (TypeExpr × List Text)
  | 0, _ => none
  | _ + 1, [] => none
  | n + 1, t :: r =>
    if t = "*" then do
      let (x, r) ← readType n r
      return (.pointerTo x, r)
    else if t = "(" then do
      let (x, r) ← readType n r
      return (x, ← skipToken ")" r)
    else if t = "[" then do
      let size := r.takeWhile (· != "]".toList)
      let (x, r) ← readType n (← skipToken "]" (r.drop size.length))
      return (.node (if size.isEmpty then .slice else .array (Text.concat size)) [x], r)
    else if t = "map" then do
      let (k, r) ← readType n (← skipToken "[" r)
      let (v, r) ← readType n (← skipToken "]" r)
      return (.node .map [k, v], r)
    else if t = "chan" then do
      let send := nextIs "<-" r
      let (x, r) ← readType n (if send then r.tail else r)
      return (.node (.channel (if send then .send else .both)) [x], r)
    else if t = "<-" then do
      let (x, r) ← readType n (← skipToken "chan" r)
      return (.node (.channel .receive) [x], r)
    else if t = "func" then readFunc n r
    else if t = "struct" then do
      let (fs, r) ← readFields n (← skipToken "\x7b" r)
      return (.node (.struct (fs.map Prod.fst)) (fs.map Prod.snd), r)
    else if t = "interface" then do
      let (ms, r) ← readMembers n (← skipToken "\x7b" r)
      return (interfaceType ms, r)
    else if isName t then readNamed n t r
    else none

/-- a named type from the token after its first name on -/
def readNamed : Nat → Text → List Text → Option (TypeExpr × List Text)
  | 0, _, _ => none
  | n + 1, t, ts =>
    let (key, r) := readKey t ts
    match (skipToken "[" r).bind (readArgs n) with
    | some (args, r') => some (.node (.named key) args, r')
    | none => some (.ofKey key, r)

/-- type arguments up to the closing bracket -/
def readArgs : Nat → List Text → Option (List TypeExpr × List Text)
  | 0, _ => none
  | n + 1, ts => do
    let (x, r) ← readType n ts
    if nextIs "," r then
      let (xs, r) ← readArgs n r.tail
      return (x :: xs, r)
    else return ([x], ← skipToken "]" r)

def readFunc : Nat → List Text → Option (TypeExpr × List Text)
  | 0, _ => none
  | n + 1, ts => do
    let (ps, r) ← readSlots n (← skipToken "(" ts)
    let ps := shareSlots ps
    if nextIs "(" r then
      let (rs, r) ← readSlots n r.tail
      return (funcType ps (shareSlots rs), r)
    else if startsType r then
      let (x, r) ← readType n r
      return (funcType ps [{ type := x }], r)
    else return (funcType ps [], r)

/-- parameters up to the closing parenthesis -/
def readSlots : Nat → List Text → Option (List Slot × List Text)
  | 0, _ => none
  | n + 1, ts =>
    if nextIs ")" ts then some ([], ts.tail)
    else do
      let (s, r) ← readSlot n ts
      if nextIs "," r then
        let (ss, r) ← readSlots n r.tail
        return (s :: ss, r)
      else return ([s], ← skipToken ")" r)

/-- a parameter: a type, or a name and a type -/
def readSlot : Nat → List Text → Option (Slot × List Text)
  | 0, _ => none
  | n + 1, ts =>
    match (readSlotType n ts).filter fun p => endsSlot p.2 with
    | some p => some p
    | none =>
      match ts with
      | name :: r =>
        if isName name then (readSlotType n r).map fun p => ({ p.1 with name := name }, p.2)
        else none
      | [] => none

/-- the type of a parameter, with its mark if it is variadic -/
def readSlotType : Nat → List Text → Option (Slot × List Text)
  | 0, _ => none
  | n + 1, ts =>
    let variadic := nextIs "..." ts
    (readType n (if variadic then ts.tail else ts)).map fun p =>
      ({ variadic := variadic, type := p.1 }, p.2)

/-- fields up to the closing brace -/
def readFields : Nat → List Text → Option (List (FieldHead × TypeExpr) × List Text)
  | 0, _ => none
  | n + 1, ts =>
    if nextIs "\x7d" ts then some ([], ts.tail)
    else if nextIs ";" ts then readFields n ts.tail
    else do
      let (fs, r) ← readField n ts
      let (more, r) ← readFields n r
      return (fs ++ more, r)

/-- a field: an embedded type, or names and a type -/
def readField : Nat → List Text → Option (List (FieldHead × TypeExpr) × List Text)
  | 0, _ => none
  | n + 1, ts =>
    match (readEmbedded n ts).filter fun p => endsField p.2 with
    | some (f, r) => some ([f], r)
    | none => do
      let (names, r) ← readNames ts
      let (x, r) ← readType n r
      let (tag, r) := readTag r
      return (names.map fun name => ({ name := name, tag := tag }, x), r)

/-- an embedded field, which is called like its type -/
def readEmbedded : Nat → List Text → Option ((FieldHead × TypeExpr) × List Text)
  | 0, _ => none
  | n + 1, ts =>
    let pointer := nextIs "*" ts
    match if pointer then ts.tail else ts with
    | name :: r =>
      if isName name then do
        let (x, r') ← readNamed n name r
        let (tag, r') := readTag r'
        let head : FieldHead := { name := (readKey name r).1.name, embedded := true, tag := tag }
        return ((head, if pointer then .pointerTo x else x), r')
      else none
    | [] => none

/-- members of an interface up to the closing brace -/
def readMembers : Nat → List Text → Option (List Member × List Text)
  | 0, _ => none
  | n + 1, ts =>
    if nextIs "\x7d" ts then some ([], ts.tail)
    else if nextIs ";" ts then readMembers n ts.tail
    else do
      let (m, r) ← readMember n ts
      let (ms, r) ← readMembers n r
      return (m :: ms, r)

/-- a member of an interface: a method, or a choice of types -/
def readMember : Nat → List Text → Option (Member × List Text)
  | 0, _ => none
  | n + 1, ts =>
    match ts with
    | name :: r =>
      if isName name && nextIs "(" r then
        (readFunc n r).map fun p => ({ method? := some { name := name }, type := p.1 }, p.2)
      else (readTerms n ts).map fun p => ({ type := unionType p.1 }, p.2)
    | [] => none

/-- types with bars between them, each with its mark -/
def readTerms : Nat → List Text → Option (List (Bool × TypeExpr) × List Text)
  | 0, _ => none
  | n + 1, ts => do
    let mark := nextIs "~" ts
    let (x, r) ← readType n (if mark then ts.tail else ts)
    if nextIs "|" r then
      let (xs, r) ← readTerms n r.tail
      return ((mark, x) :: xs, r)
    else return ([(mark, x)], r)

end

/-- a reading of all tokens, with a bound that no type comes near to -/
def readWhole {α : Type} (read : Nat → List Text → Option (α × List Text)) (s : Text) : Option α :=
  let ts := tokens s
  match read (4 * (ts.length + 1)) ts with
  | some (x, []) => some x
  | _ => none

def parse? (s : Text) : Option TypeExpr := readWhole readType s

/-- the member of an interface that a text is: the name of another interface, or a choice -/
def parseEmbedded? (s : Text) : Option TypeExpr := (readWhole readTerms s).map unionType

end TypeExpr

def typeParamNames (s : Text) : List Text :=
  if s.startsWith "[" then
    ((splitTop "," (s.drop 1).dropLast).map leadingName).filter (· != [])
  else []

end ContractChecks
