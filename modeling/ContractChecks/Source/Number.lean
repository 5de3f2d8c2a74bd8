import ContractChecks.Text.Basic

/-!
# Numbers

A number has up to five parts, each of which may be empty: a mark of its base, digits, a fraction,
an exponent, and the mark of an imaginary number.  What follows them is not part of the number, so
in `1.0.text` the number is `1.0`.

* `numberToken s`: the number that `s` starts with, and the text after it.
-/

namespace ContractChecks

def isDigit (c : Char) : Bool := '0' ≤ c && c ≤ '9'

def isHexDigit (c : Char) : Bool := isDigit c || ('a' ≤ c && c ≤ 'f') || ('A' ≤ c && c ≤ 'F')

/-- what reads a part at the start of a text, and gives it with the text after it -/
abbrev PartReader := Text → Text × Text

namespace PartReader

/-- one of some characters, or nothing -/
def oneOf (marks : Text) : PartReader
  | [] => ([], [])
  | c :: r => if marks.any (· = c) then ([c], r) else ([], c :: r)

def isDigitPart (hex : Bool) (c : Char) : Bool :=
  c = '_' || if hex then isHexDigit c else isDigit c

def digits (hex : Bool) : PartReader := fun s =>
  (s.takeWhile (isDigitPart hex), s.dropWhile (isDigitPart hex))

/-- one part and the next -/
def andThen (f g : PartReader) : PartReader := fun s =>
  ((f s).1 ++ (g (f s).2).1, (g (f s).2).2)

def after (marks : Text) (f : PartReader) : PartReader := fun s =>
  if (oneOf marks s).1 = [] then ([], s) else andThen (oneOf marks) f s

/-- the mark of a base after a zero -/
def base : PartReader
  | '0' :: c :: r => if ("xXoObB" : Text).any (· = c) then (['0', c], r) else ([], '0' :: c :: r)
  | s => ([], s)

def fraction (hex : Bool) : PartReader := after "." (digits hex)

def exponent : PartReader := after "eEpP" (andThen (oneOf "+-") (digits false))

end PartReader

open PartReader in
/-- the number at the start of a text, and the text after it -/
def numberToken (s : Text) : Text × Text :=
  let hex := (base s).1.any fun c => c = 'x' || c = 'X'
  (base.andThen <| (digits hex).andThen <| (fraction hex).andThen <|
    exponent.andThen (oneOf "i")) s

end ContractChecks
