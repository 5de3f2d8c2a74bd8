import ContractChecks.Source.Literal
import ContractChecks.Text.Blank

/-!
# Lexemes

A text is cut from left to right into lexemes: literals, keywords (a name after a backslash),
names, numbers, and single other characters.  A number takes in the name characters and points
that follow it, so that `0x1f` and `1.5e9` hide no name.

* `lexemes s`: the lexemes of `s`; their texts in order are `s` again (`concat_lexemes`);
* `occurrences s`: the names and keywords of `s` with their byte offsets; a name is a selector
  when the last character before it other than layout is a point;
* `references s name`: whether `name` is among the occurrences, selectors included;
* `rename f s`: `s` with its names replaced by `f`, selectors and literals left alone;
* `isName`, `leadingName`: a text that is one name, the name a text starts with.
-/

namespace ContractChecks

def isNameStart (c : Char) : Bool :=
  c = '_' || ('a' ≤ c && c ≤ 'z') || ('A' ≤ c && c ≤ 'Z') || 0x80 ≤ c.toNat

def isNamePart (c : Char) : Bool := isNameStart c || ('0' ≤ c && c ≤ '9')

def isNumberPart (c : Char) : Bool := isNamePart c || c = '.'

inductive Lexeme where
  | literal (raw : Text)
  /-- a name with its leading backslash -/
  | keyword (raw : Text)
  | name (raw : Text)
  | number (raw : Text)
  | other (c : Char)
deriving DecidableEq, Repr

namespace Lexeme

def text : Lexeme → Text
  | .literal raw => raw
  | .keyword raw => raw
  | .name raw => raw
  | .number raw => raw
  | .other c => [c]

/-- the last character other than layout up to the end of a lexeme, where `last` is the one
before it -/
def lastMark (last : Option Char) : Lexeme → Option Char
  | .other c => if isLayout c then last else some c
  | l => l.text.getLast?

end Lexeme

/-- the first lexeme of a text that starts with `c`, and the text after it -/
def firstLexeme (c : Char) (r : Text) : Lexeme × Text :=
  if isQuoteMark c then
    let p := literalTail c r
    (.literal (c :: p.1), p.2)
  else if c = '\\' && r.head?.any isNameStart then
    (.keyword (c :: r.takeWhile isNamePart), r.dropWhile isNamePart)
  else if isNameStart c then
    (.name (c :: r.takeWhile isNamePart), r.dropWhile isNamePart)
  else if '0' ≤ c && c ≤ '9' then
    (.number (c :: r.takeWhile isNumberPart), r.dropWhile isNumberPart)
  else (.other c, r)

theorem firstLexeme_append (c : Char) (r : Text) :
    (firstLexeme c r).1.text ++ (firstLexeme c r).2 = c :: r := by
  unfold firstLexeme
  split
  · simp [Lexeme.text, literalTail_append]
  split
  · simp [Lexeme.text]
  split
  · simp [Lexeme.text]
  split
  · simp [Lexeme.text]
  · simp [Lexeme.text]

theorem length_firstLexeme_le (c : Char) (r : Text) : (firstLexeme c r).2.length ≤ r.length := by
  unfold firstLexeme
  split
  · exact length_literalTail_le c r
  split
  · exact (List.dropWhile_sublist isNamePart).length_le
  split
  · exact (List.dropWhile_sublist isNamePart).length_le
  split
  · exact (List.dropWhile_sublist isNumberPart).length_le
  · exact Nat.le_refl _

def lexemes : Text → List Lexeme
  | [] => []
  | c :: r => (firstLexeme c r).1 :: lexemes (firstLexeme c r).2
termination_by s => s.length
decreasing_by
  have h := length_firstLexeme_le c r
  simp
  omega

def unlex (ls : List Lexeme) : Text := ls.flatMap Lexeme.text

theorem concat_lexemes (s : Text) : unlex (lexemes s) = s := by
  fun_induction lexemes s with
  | case1 => rfl
  | case2 c r ih =>
    rw [unlex] at *
    rw [List.flatMap_cons, ih, firstLexeme_append]

/-- a name or keyword found in a text, with its byte offsets -/
structure Occurrence where
  text : Text
  start : Nat
  stop : Nat
  /-- set when the name follows a point -/
  selector : Bool
deriving DecidableEq, Repr

/-- the occurrences among lexemes that start at byte `pos`, where `last` is the last character
other than layout before them -/
def occurrencesFrom (pos : Nat) (last : Option Char) : List Lexeme → List Occurrence
  | [] => []
  | l :: ls =>
    let stop := pos + l.text.bytes
    let rest := occurrencesFrom stop (l.lastMark last) ls
    match l with
    | .keyword raw => ⟨raw, pos, stop, false⟩ :: rest
    | .name raw => ⟨raw, pos, stop, last == some '.'⟩ :: rest
    | _ => rest

def occurrences (s : Text) : List Occurrence := occurrencesFrom 0 none (lexemes s)

/-- whether `name` occurs in `s`; a selector `s.n` is a reference to `n` -/
def references (s name : Text) : Bool := (occurrences s).any fun o => o.text == name

/-- replacements of names; a name without an entry stays as it is -/
abbrev Renaming := List (Text × Text)

namespace Renaming

def get? (f : Renaming) (name : Text) : Option Text := f.lookup name

/-- the entry for `name` is replaced, or added at the end -/
def set (f : Renaming) (name target : Text) : Renaming :=
  if f.any fun p => p.1 == name then
    f.map fun p => if p.1 == name then (name, target) else p
  else f ++ [(name, target)]

end Renaming

def renameFrom (f : Renaming) (last : Option Char) : List Lexeme → Text
  | [] => []
  | l :: ls =>
    let new :=
      match l with
      | .keyword raw => (f.get? raw).getD raw
      | .name raw => if last == some '.' then raw else (f.get? raw).getD raw
      | l => l.text
    new ++ renameFrom f (l.lastMark last) ls

def rename (f : Renaming) (s : Text) : Text := renameFrom f none (lexemes s)

/-- a single name without a backslash -/
def isName : Text → Bool
  | [] => false
  | c :: r => isNameStart c && r.all isNamePart

/-- the name a text starts with after layout, or nothing -/
def leadingName (s : Text) : Text :=
  match s.dropWhile isLayout with
  | [] => []
  | c :: r => if isNameStart c then c :: r.takeWhile isNamePart else []

end ContractChecks
