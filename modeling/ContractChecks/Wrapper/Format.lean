import ContractChecks.Source.Token

/-!
# Formatted code

Generated code is formatted before it is compared.  The texts in it are formatted already, but some
of them come to stand in places where formatting drops parentheses:

* parentheses directly around parentheses;
* parentheses around the whole condition of a statement.  They stay where braces could be taken for
  the block of the statement.

All other tokens are as they are written.

* `Nest`: tokens with everything in brackets taken together;
* `formattedTokens s`: the tokens of the formatted code `s`.
-/

namespace ContractChecks

/-! ### nests -/

/-- a token, and whether it is the first one of its line -/
structure Placed where
  text : Text
  newLine : Bool := false
deriving DecidableEq, Repr

/-- the tokens among pieces, where `newLine` tells whether a line starts with the first of them -/
def placedFrom (newLine : Bool) : List Text → List Placed
  | [] => []
  | p :: ps =>
    if p.all isBlank then placedFrom (newLine || p.any (· = '\n')) ps
    else ⟨tokenForm p, newLine⟩ :: placedFrom false ps

inductive Nest where
  | token (t : Placed)
  | group (opening : Placed) (inside : List Nest) (closing : Placed)
deriving Repr

def isOpeningToken (t : Text) : Bool :=
  match t with
  | [c] => isOpening c
  | _ => false

def isClosingToken (t : Text) : Bool :=
  match t with
  | [c] => isClosing c
  | _ => false

/-- the nests up to a closing bracket, and the tokens from it on, with a bound on the number of
tokens -/
def nestsWithin : Nat → List Placed → List Nest × List Placed
  | 0, ts => ([], ts)
  | _ + 1, [] => ([], [])
  | n + 1, t :: r =>
    if isClosingToken t.text then ([], t :: r)
    else if isOpeningToken t.text then
      let p := nestsWithin n r
      match p.2 with
      | c :: r' =>
        let q := nestsWithin n r'
        (.group t p.1 c :: q.1, q.2)
      | [] => (.token t :: p.1, [])
    else
      let q := nestsWithin n r
      (.token t :: q.1, q.2)

/-- the nests of tokens; closing brackets without an opening one stand alone -/
def nests (ts : List Placed) : List Nest :=
  let p := nestsWithin (ts.length + 1) ts
  p.1 ++ p.2.map .token

namespace Nest

mutual

def tokens : Nest → List Placed
  | .token t => [t]
  | .group o ns c => o :: (tokensAll ns ++ [c])

def tokensAll : List Nest → List Placed
  | [] => []
  | n :: ns => n.tokens ++ tokensAll ns

end

/-- the token with which it starts -/
def first : Nest → Placed
  | .token t => t
  | .group o _ _ => o

def isBraces : Nest → Bool
  | .group o _ _ => o.text = ['\x7b']
  | .token _ => false

def isToken (t : Text) : Nest → Bool
  | .token p => p.text = t
  | .group _ _ _ => false

end Nest

/-! ### formatting -/

def sourceKeywords : List Text :=
  ["break", "case", "chan", "const", "continue", "default", "defer", "else", "fallthrough", "for",
   "func", "go", "goto", "if", "import", "interface", "map", "package", "range", "return",
   "select", "struct", "switch", "type", "var"].map String.toList

/-- the words that start a statement with a condition before its block -/
def headWords : List Text := ["if", "for", "switch"].map String.toList

def memberWords : List Text := ["struct", "interface"].map String.toList

/-- whether something in parentheses after a token belongs to it -/
def isOperandToken (t : Text) : Bool :=
  t = "func" || t = "." || t.head?.any isQuoteMark || (isName t && !sourceKeywords.contains t)

/-- what stands before a token -/
structure FormatState where
  last : Text := []
  /-- whether something ends there to which parentheses can belong -/
  operand : Bool := false
  /-- the first word of the statement before whose block the token stands, if there is one -/
  head : Text := []
  /-- whether the tokens are a whole condition -/
  isCondition : Bool := false
deriving DecidableEq, Repr

namespace FormatState

/-- before a nest: a line that starts after an operand starts a statement -/
def before (st : FormatState) (n : Nest) : FormatState :=
  if n.first.newLine && st.operand then {} else st

/-- after a nest: comments do not count, and a statement has its block at the first braces at the
latest -/
def after (st : FormatState) : Nest → FormatState
  | .token t =>
    if isComment t.text then st
    else
      { st with
        last := t.text
        operand := isOperandToken t.text
        head := if headWords.contains t.text then t.text else st.head }
  | .group o _ c =>
    { st with
      last := c.text
      operand := true
      head := if o.text = ['\x7b'] then [] else st.head }

/-- whether parentheses before `next` are around the whole condition of a statement -/
def isBeforeBlock (st : FormatState) (next : Option Nest) : Bool :=
  if st.last = ";" then
    if st.head = "for" then next.any (Nest.isToken ";")
    else st.head != [] && next.any Nest.isBraces
  else st.head != [] && (st.last = st.head || st.last = "range") && next.any Nest.isBraces

end FormatState

mutual

/-- whether there are braces that do not hold the members of a type, after the token `last` -/
def Nest.hasBraces (last : Text) : Nest → Bool
  | .token _ => false
  | .group o inside _ =>
    (o.text = ['\x7b'] && !memberWords.contains last) || hasBracesFrom [] inside

def hasBracesFrom (last : Text) : List Nest → Bool
  | [] => false
  | .token t :: ns => hasBracesFrom t.text ns
  | .group o inside c :: ns => (Nest.group o inside c).hasBraces last || hasBracesFrom c.text ns

end

mutual

/-- the tokens of one of the nests of a sequence, where `next` is the one after it -/
def Nest.formatted (st : FormatState) (next : Option Nest) : Nest → List Text
  | .token t => [t.text]
  | .group o inside c =>
    let isWhole := st.isBeforeBlock next || (st.isCondition && next.isNone && st.last = [])
    if o.text != ['('] || st.operand then o.text :: (formattedFrom {} inside ++ [c.text])
    else if isWhole && !hasBracesFrom [] inside then formattedFrom { isCondition := true } inside
    else
      match inside with
      | [.group o' inside' c'] =>
        if o'.text = ['('] then formattedFrom {} [.group o' inside' c']
        else o.text :: (formattedFrom {} [.group o' inside' c'] ++ [c.text])
      | ns => o.text :: (formattedFrom {} ns ++ [c.text])

/-- the tokens of a sequence of nests -/
def formattedFrom (st : FormatState) : List Nest → List Text
  | [] => []
  | n :: ns =>
    let st := st.before n
    n.formatted st ns.head? ++ formattedFrom (st.after n) ns

end

def formattedTokens (s : Text) : List Text :=
  formattedFrom {} (nests (placedFrom false (pieces s)))

end ContractChecks
