import ContractChecks.Text.Basic

/-!
# Source positions

A place in a source file.  Positions of one file are ordered by their byte offsets, and those of
different files by the names of the files.
-/

namespace ContractChecks

structure Position where
  file : Text := []
  line : Int := 0
  column : Int := 0
  offset : Int := 0
deriving DecidableEq, Repr

namespace Position

/-- the file, the line and the column -/
def text (p : Position) : Text :=
  p.file ++ ":" ++ Text.ofInt p.line ++ ":" ++ Text.ofInt p.column

/-- by file, then by offset -/
def le (p q : Position) : Bool :=
  if p.file = q.file then p.offset ≤ q.offset else p.file.le q.file

end Position

def positionText : Option Position → Text
  | some p => p.text
  | none => "-"

end ContractChecks
