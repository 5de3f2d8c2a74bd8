import ContractChecks.Text.Basic
import ContractChecks.Text.Printable

/-!
# Quoted text

`quote s` writes `s` as a double-quoted literal.  The quote, the backslash and the named control
characters get a backslash form; printable characters stand for themselves; the other characters
below U+0080 are written with two hexadecimal digits, those below U+10000 with four, the rest
with eight.
-/

namespace ContractChecks

namespace Text

/-- the lower-case hexadecimal numeral of `n`, padded with zeros to `width` digits -/
def hex (width n : Nat) : Text :=
  let digits := Nat.toDigits 16 n
  List.replicate (width - digits.length) '0' ++ digits

/-- the letter that names a control character after a backslash -/
def controlLetter? (c : Char) : Option Char :=
  if c.toNat = 0x07 then some 'a'
  else if c.toNat = 0x08 then some 'b'
  else if c.toNat = 0x0c then some 'f'
  else if c.toNat = 0x0a then some 'n'
  else if c.toNat = 0x0d then some 'r'
  else if c.toNat = 0x09 then some 't'
  else if c.toNat = 0x0b then some 'v'
  else none

def quoteChar (c : Char) : Text :=
  if c = '\x22' || c = '\\' then ['\\', c]
  else if isPrintable c then [c]
  else
    match controlLetter? c with
    | some l => ['\\', l]
    | none =>
      if c.toNat < 0x80 then '\\' :: 'x' :: hex 2 c.toNat
      else if c.toNat < 0x10000 then '\\' :: 'u' :: hex 4 c.toNat
      else '\\' :: 'U' :: hex 8 c.toNat

def quote (s : Text) : Text := '\x22' :: (s.flatMap quoteChar ++ ['\x22'])

end Text

end ContractChecks
