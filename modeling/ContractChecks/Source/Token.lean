import ContractChecks.Source.Lexeme
import ContractChecks.Source.Number

/-!
# Tokens

A text is cut from left to right into pieces: blanks, comments and tokens, which are names and
keywords, literals as written, numbers and operators by longest match.

* `pieces s`: the pieces of `s` as they are written;
* `tokens s`: the tokens and comments of `s`, by which generated code is compared; carriage
  returns count in no comment and in no literal between back quotes;
* `unparen s`: the expression `s` without comments and blanks around it and without the
  parentheses around the whole of it.
-/

namespace ContractChecks

/-- the operators and punctuation, longer ones before their beginnings -/
def operators : List Text :=
  ["<<=", ">>=", "&^=", "...", "<<", ">>", "&^", "+=", "-=", "*=", "/=", "%=", "&=", "|=", "^=",
   "&&", "||", "<-", "++", "--", "==", "!=", "<=", ">=", ":=", "+", "-", "*", "/", "%", "&", "|",
   "^", "<", ">", "=", "!", "(", ")", "[", "]", "\x7b", "\x7d", ",", ";", ".", ":", "~"].map
    String.toList

def lineComment (s : Text) : Text × Text := (s.takeWhile (· != '\n'), s.dropWhile (· != '\n'))

/-- a comment up to its closing mark, of a text that starts with the opening mark -/
def blockComment (s : Text) : Text × Text :=
  match Text.cut? "*/" (s.drop 2) with
  | some p => (s.take 2 ++ p.1 ++ "*/", p.2)
  | none => (s, [])

/-- the first comment or token of a text that starts with a character other than white space, and
the text after it -/
def firstToken (c : Char) (r : Text) : Text × Text :=
  if isQuoteMark c then
    let p := literalTail c r
    (c :: p.1, p.2)
  else if isNameStart c then (c :: r.takeWhile isNamePart, r.dropWhile isNamePart)
  else if isDigit c || (c = '.' && r.head?.any isDigit) then numberToken (c :: r)
  else if c = '/' && r.head? = some '/' then lineComment (c :: r)
  else if c = '/' && r.head? = some '*' then blockComment (c :: r)
  else
    match operators.find? fun op => op.isPrefixOf (c :: r) with
    | some op => (op, (c :: r).drop op.length)
    | none => ([c], r)

/-- the first piece of a text that starts with `c`, and the text after it -/
def firstPiece (c : Char) (r : Text) : Text × Text :=
  if isBlank c then ([c], r) else firstToken c r

/-- pieces read with a bound on their number -/
def piecesWithin : Nat → Text → List Text
  | 0, _ => []
  | _ + 1, [] => []
  | n + 1, c :: r => (firstPiece c r).1 :: piecesWithin n (firstPiece c r).2

/-- the pieces of a text; there are never more of them than characters -/
def pieces (s : Text) : List Text := piecesWithin s.length s

def isLineComment (p : Text) : Bool := p.startsWith "//"

def isBlockComment (p : Text) : Bool := p.startsWith "/*"

def isComment (p : Text) : Bool := isLineComment p || isBlockComment p

/-! ### tokens -/

def dropReturns (s : Text) : Text := s.filter (· != '\r')

/-- the text without its carriage returns, of a text that comes after `before` in a comment; one
between a star and a slash stays, because the comment would end there without it -/
def dropReturnsAfter (before : Text) : Text → Text
  | [] => []
  | c :: r =>
    if c = '\r' && !(2 < before.length && before.getLast? = some '*' && r.head? = some '/') then
      dropReturnsAfter before r
    else c :: dropReturnsAfter (before ++ [c]) r

def dropReturnsInComment (p : Text) : Text :=
  if isBlockComment p then dropReturnsAfter [] p else dropReturns p

def tokenForm (p : Text) : Text :=
  if isLineComment p then (dropReturnsInComment p).trimEnd
  else if isBlockComment p then dropReturnsInComment p
  else if p.startsWith ['\x60'] then dropReturns p
  else p

def tokens (s : Text) : List Text :=
  ((pieces s).filter fun p => !p.all isBlank).map tokenForm

/-! ### expressions in parentheses -/

/-- white space and comments -/
def isFiller (p : Text) : Bool := p.all isBlank || isComment p

/-- the pieces without those at both ends that do not count -/
def dropFiller (ps : List Text) : List Text :=
  ((ps.dropWhile isFiller).reverse.dropWhile isFiller).reverse

theorem length_dropFiller_le (ps : List Text) : (dropFiller ps).length ≤ ps.length := by
  have h1 := (List.dropWhile_sublist (l := ps) isFiller).length_le
  have h2 := (List.dropWhile_sublist (l := (ps.dropWhile isFiller).reverse) isFiller).length_le
  simp only [dropFiller, List.length_reverse] at h2 ⊢
  omega

/-- whether the parentheses open so far are all closed by the last piece, and not before -/
def closesAtEnd (depth : Nat) : List Text → Bool
  | [] => false
  | [p] => depth = 1 && p = [')']
  | p :: ps =>
    if p = ['('] then closesAtEnd (depth + 1) ps
    else if p = [')'] then depth != 1 && closesAtEnd (depth - 1) ps
    else closesAtEnd depth ps

/-- whether the pieces are one pair of parentheses with something in it -/
def isEnclosed : List Text → Bool
  | [] => false
  | p :: ps => p = ['('] && closesAtEnd 1 ps

/-- the pieces without the parentheses around the whole of them -/
def barePieces (ps : List Text) : List Text :=
  if _h : isEnclosed (dropFiller ps) then barePieces (dropFiller ps).tail.dropLast
  else dropFiller ps
termination_by ps.length
decreasing_by
  have h1 := length_dropFiller_le ps
  have h2 : dropFiller ps ≠ [] := by
    intro h
    simp [h, isEnclosed] at _h
  have h3 := List.length_pos_iff.2 h2
  simp only [List.length_dropLast, List.length_tail]
  omega

/-- the expression without the parentheses around the whole of it -/
def unparen (s : Text) : Text := Text.concat (barePieces (pieces s))

end ContractChecks
