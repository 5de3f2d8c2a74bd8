import ContractChecks.Module.Source

/-!
# Reading source files

Reads the declarations of a source file that is laid out as usual: a declaration starts at the
first column of a line.  If that line ends with an opening bracket, the declaration goes on up to
a line that starts with a closing bracket and does not end with an opening one.  The comments
before a declaration belong to it.

* `Chunk`, `chunks`: the declarations of a text as they are written, with their comments;
* `SourceFile.parse path text`: the file with the declarations it contains;
* `modulePath?`: the import path that a module file gives.
-/

namespace ContractChecks

/-! ### chunks -/

/-- a declaration as it is written -/
structure Chunk where
  /-- its first line -/
  line : Nat
  comments : List SourceComment := []
  lines : List Text
deriving DecidableEq, Repr

/-- what the line before was part of -/
inductive ChunkState where
  | outside
  | comment (c : SourceComment)
  | chunk (c : Chunk)
deriving DecidableEq, Repr

structure ChunkReader where
  chunks : List Chunk := []
  comments : List SourceComment := []
  state : ChunkState := .outside
deriving DecidableEq, Repr

/-- whether a declaration goes on after its first line, or after a closing bracket -/
def endsOpen (line : Text) : Bool := line.trimEnd.getLast?.any isOpening

/-- whether a line is the last one of a declaration over several lines -/
def closesChunk (line : Text) : Bool := line.head?.any isClosing && !endsOpen line

namespace ChunkReader

def addComment (r : ChunkReader) (c : SourceComment) : ChunkReader :=
  { r with comments := r.comments ++ [c], state := .outside }

def addChunk (r : ChunkReader) (c : Chunk) : ChunkReader :=
  { chunks := r.chunks ++ [c], comments := [], state := .outside }

/-- a line that does not go on with anything -/
def start (r : ChunkReader) (n : Nat) (line : Text) : ChunkReader :=
  if line.trim = [] then r
  else if line.startsWith "//" then r.addComment { text := line, line := n }
  else if line.startsWith "/*" then
    if Text.contains "*/" line then r.addComment { text := line.trimEnd, line := n }
    else { r with state := .comment { text := line, line := n } }
  else
    let c : Chunk := { line := n, comments := r.comments, lines := [line] }
    if endsOpen line then { r with state := .chunk c } else r.addChunk c

def step (r : ChunkReader) (l : Nat × Text) : ChunkReader :=
  match r.state with
  | .outside => r.start l.1 l.2
  | .comment c =>
    let c := { c with text := c.text ++ "\n" ++ l.2 }
    if Text.contains "*/" l.2 then r.addComment { c with text := c.text.trimEnd }
    else { r with state := .comment c }
  | .chunk c =>
    let c := { c with lines := c.lines ++ [l.2] }
    if closesChunk l.2 then r.addChunk c else { r with state := .chunk c }

end ChunkReader

def chunks (lines : List (Nat × Text)) : List Chunk := (lines.foldl ChunkReader.step {}).chunks

def numberLines : Nat → List Text → List (Nat × Text)
  | _, [] => []
  | n, l :: ls => (n, l) :: numberLines (n + 1) ls

namespace Chunk

def head (c : Chunk) : Text := c.lines.headD []

def text (c : Chunk) : Text := Text.join "\n" c.lines

/-- the lines between the first and the last one, without their indentation -/
def inner (c : Chunk) : List (Nat × Text) :=
  numberLines (c.line + 1) (c.lines.tail.dropLast.map (Text.dropStart "\t"))

/-- the declarations of a group: a word followed by several declarations in parentheses -/
def members (word : Text) (c : Chunk) : List Chunk :=
  if c.head.trimEnd = word ++ " (" then
    (chunks c.inner).map fun d =>
      { d with lines := (word ++ " " ++ d.head) :: d.lines.tail }
  else [c]

/-- the text after the word that a declaration starts with -/
def after? (word : Text) (c : Chunk) : Option Text :=
  if c.head.startsWith (word ++ " ") then some (c.text.drop (word.length + 1)) else none

end Chunk

/-! ### signatures -/

/-- what stands in the brackets at the start of a text, and the text after them -/
def bracketed? (s : Text) : Option (Text × Text) :=
  (cutClose s).map fun p => (p.1.drop 1, p.2.drop 1)

/-- the name and the type of a parameter; the name is empty if there is only one of them -/
def splitField (field : Text) : Text × Text :=
  let name := leadingName field
  let rest : Text := field.drop name.length
  if name != [] && name != "chan" && rest.head?.any isBlank && rest.trim != [] then
    (name, rest.trim)
  else ([], field)

/-- several names can share the type of the last of them -/
def shareTypes (fields : List (Text × Text)) : List (Text × Text) :=
  (fields.foldr (fun f acc =>
    if f.1 = [] then ((f.2, acc.2) :: acc.1, acc.2) else (f :: acc.1, f.2)) ([], [])).1

/-- the parameters between parentheses -/
def readFields (s : Text) : List (Text × Text) :=
  let fields := ((splitTop "," s).filter (· != [])).map splitField
  if fields.any fun f => f.1 != [] then shareTypes fields else fields

def readParam (f : Text × Text) : Param :=
  { name := f.1, type := Text.dropStart "..." f.2, variadic := f.2.startsWith "..." }

/-- the result types, before the body -/
def readResults (s : Text) : List Text :=
  let s := s.trim
  match s with
  | [] => []
  | '(' :: _ => ((bracketed? s).map fun p => (readFields p.1).map Prod.snd).getD []
  | s => [s]

/-- the text before a body or a comment at the end of the line -/
def beforeBody (s : Text) : Text :=
  let s := ((Text.cut? " \x7b" s).map Prod.fst).getD s
  ((Text.cut? " //" s).map Prod.fst).getD s

def readReceiver? (s : Text) : Option Receiver :=
  (readFields s).head?.map fun f =>
    let t := Text.dropStart "*" f.2
    { name := f.1
      type := t.takeWhile (· != '[')
      typeArgs := t.dropWhile (· != '[')
      pointer := f.2.startsWith "*" }

/-- whether an expression is the length or the capacity of something -/
def isMeasure (s : Text) : Bool :=
  let name := leadingName s
  (name = "len" || name = "cap") && (enclosed? (s.drop name.length)).isSome

/-- an evaluator that knows the types of some names, and of lengths and capacities -/
def Evaluator.ofNames (types : List (Text × Text)) : Evaluator where
  parseError? _ := none
  typeOf s :=
    match types.lookup s with
    | some t => .ok t
    | none => if isMeasure s then .ok "int" else .error (.untyped "no type information")

/-- type parameters in brackets, if there are any, and the text after them -/
def cutTypeParams (s : Text) : Text × Text :=
  if s.startsWith "[" then
    ((bracketed? s).map fun p => (['['] ++ p.1 ++ [']'], p.2)).getD ([], s)
  else ([], s)

def readSignature? (c : Chunk) (receiver : Option Receiver) (s : Text) : Option FuncDecl := do
  let name := leadingName s
  let (typeParams, rest) := cutTypeParams (s.drop name.length)
  let (inside, rest) ← bracketed? rest
  let fields := readFields inside
  return {
    name := name
    typeParams := typeParams
    receiver := receiver
    params := fields.map readParam
    results := readResults (beforeBody rest)
    comments := c.comments
    line := c.line
    hasBody := Text.contains " \x7b" rest
    eval := Evaluator.ofNames fields }

def readFunc? (c : Chunk) (s : Text) : Option FuncDecl :=
  if s.startsWith "(" then do
    let (inside, rest) ← bracketed? s
    readSignature? c (readReceiver? inside) rest.trimStart
  else readSignature? c none s

/-! ### declarations -/

def unquotePath (s : Text) : Text := (s.drop 1).takeWhile fun c => !isQuoteMark c

def readImport (s : Text) : ImportDecl :=
  let name : Text := s.trim.takeWhile fun c => !isQuoteMark c && !isBlank c
  { name := name, path := unquotePath (Text.trim (s.trim.drop name.length)) }

/-- whether a member of an interface is a method, not the name of another interface -/
def Chunk.isMethod (c : Chunk) : Bool := Text.contains "(" c.text

def readInterface (name : Text) (members : List Chunk) : InterfaceDecl :=
  { name := name
    embeds := (members.filter fun c => !c.isMethod).map fun c => (beforeBody c.text).trim
    methods := (members.filter Chunk.isMethod).filterMap fun c => readSignature? c none c.text }

/-- the members of a type in braces, as chunks -/
def bodyChunks (c : Chunk) : List Chunk :=
  if c.lines.length = 1 then
    match (Text.cut? "\x7b" c.text).bind fun p => cutClose ('\x7b' :: p.2) with
    | some p =>
      ((splitTop ";" (p.1.drop 1)).filter (· != [])).map fun t => { line := c.line, lines := [t] }
    | none => []
  else chunks c.inner

/-- a type with everything on one line -/
def flatDefinition (c : Chunk) (definition : Text) : Text :=
  if definition.startsWith "struct" && c.lines.length != 1 then
    "struct\x7b " ++ Text.join "; " ((bodyChunks c).map fun d => d.text.trim) ++ " \x7d"
  else definition

def readType (c : Chunk) (s : Text) : Decl :=
  let name := leadingName s
  let (typeParams, rest) := cutTypeParams (s.drop name.length)
  let definition := rest.trim
  if definition.startsWith "interface" then .interface (readInterface name (bodyChunks c))
  else
    .type { name := name, typeParams := typeParams, definition := flatDefinition c definition }

/-- the type of a value that is written to assert something about it -/
def assertedType (value : Text) : Text :=
  if value.startsWith "(*" || value.startsWith "new(" then
    let v : Text := value.drop (if value.startsWith "(*" then 2 else 4)
    v.takeWhile (· != ')')
  else (Text.dropStart "&" value).takeWhile (· != '\x7b')

/-- an assertion: a variable without a name but with a type -/
def readAssertion? (s : Text) : Option AssertionDecl := do
  let (interface, value) ← Text.cut? " = " (← if s.startsWith "_ " then some (s.drop 2) else none)
  return { interface := interface.trim, type := assertedType value.trim }

def Chunk.decls (c : Chunk) : List Decl :=
  match c.after? "func", c.after? "type", c.after? "var" with
  | some s, _, _ => ((readFunc? c s).map Decl.func).toList
  | _, some _, _ =>
    (c.members "type").filterMap fun d => (d.after? "type").map (readType d)
  | _, _, some _ =>
    (c.members "var").filterMap fun d => (d.after? "var").bind fun s =>
      (readAssertion? s).map Decl.assertion
  | _, _, _ => []

def Chunk.imports (c : Chunk) : List ImportDecl :=
  match c.after? "import" with
  | some _ => (c.members "import").filterMap fun d => (d.after? "import").map readImport
  | none => []

def SourceFile.parse (path text : Text) : SourceFile :=
  let cs := chunks (numberLines 1 text.lines)
  { path := path
    package := ((cs.filterMap (Chunk.after? "package")).headD []).takeWhile isNamePart
    imports := cs.flatMap Chunk.imports
    decls := cs.flatMap Chunk.decls }

def modulePath? (text : Text) : Option Text :=
  (text.lines.find? fun l => l.startsWith "module ").bind fun l => (Text.words l)[1]?

end ContractChecks
