import ContractChecks.Directive.Fault
import ContractChecks.Text.Blank

/-!
# Directives in comments

A directive is a comment of its own: a comment mark, blanks, `rac:`, the word for its kind, and a
text up to the end of the comment.  Every other comment is passed over.

* `cutDirective? comment`: the word and the text of a directive;
* `readDirectives comments`: all directives of a declaration, or the first unknown word.
-/

namespace ContractChecks

inductive DirectiveKind where
  | also
  | constructor
  | crosscut
  | ensures
  | let
  | old
  | requires
  | signals
  | visibility
deriving DecidableEq, Repr

namespace DirectiveKind

/-- in the order of their words -/
def all : List DirectiveKind :=
  [.also, .constructor, .crosscut, .ensures, .let, .old, .requires, .signals, .visibility]

/-- the word after `rac:` -/
def word : DirectiveKind → Text
  | .also => "also"
  | .constructor => "constructor"
  | .crosscut => "crosscut"
  | .ensures => "ensures"
  | .let => "let"
  | .old => "old"
  | .requires => "requires"
  | .signals => "signals"
  | .visibility => "visibility"

/-- what follows the word, and what the directive does -/
def usage : DirectiveKind → Text
  | .also => "starts a new specification case"
  | .constructor => "marks a function as the constructor of its result type"
  | .crosscut => "marks a function as a pointcut whose advice wraps intercepted members"
  | .ensures => "<expr>: a normal postcondition; may use \\result, \\old(e) and quantifiers"
  | .let => "<ident> = <expr>: a boolean pre-expression evaluated on entry"
  | .old => "<ident> [<Type>] = <expr>: binds pre-state to a name"
  | .requires => "<expr>: a precondition"
  | .signals => "(<Type> [var]) <expr>: an exceptional postcondition"
  | .visibility => "public|protected|package|private"

def parse? (w : Text) : Option DirectiveKind := all.find? fun k => k.word = w

theorem mem_all (k : DirectiveKind) : k ∈ all := by
  cases k <;> decide

theorem parse?_word (k : DirectiveKind) : parse? k.word = some k := by
  cases k <;> rfl

end DirectiveKind

structure Directive where
  kind : DirectiveKind
  text : Text := []
  pos : Option Position := none
deriving DecidableEq, Repr

structure Comment where
  text : Text
  pos : Option Position := none
deriving DecidableEq, Repr

/-- the blanks that can stand between the comment mark and `rac:` -/
def isCommentBlank (c : Char) : Bool := c = ' ' || (0x09 ≤ c.toNat && c.toNat ≤ 0x0d)

def isWordChar (c : Char) : Bool :=
  c = '_' || ('a' ≤ c && c ≤ 'z') || ('A' ≤ c && c ≤ 'Z') || ('0' ≤ c && c ≤ '9')

def afterMark? (comment : Text) : Option Text :=
  if comment.startsWith "//" || comment.startsWith "/*" then some (comment.drop 2) else none

/-- the text after `rac:` -/
def afterTag? (s : Text) : Option Text :=
  if s.startsWith "rac:" then some (s.drop 4) else none

/-- the word of a directive and its text, trimmed and without the mark that ends a comment -/
def cutDirective? (comment : Text) : Option (Text × Text) := do
  let s ← afterMark? comment
  let r ← afterTag? (s.dropWhile isCommentBlank)
  if (r.takeWhile isWordChar).isEmpty then none
  else some (r.takeWhile isWordChar, (Text.dropEnd "*/" (r.dropWhile isWordChar)).trim)

/-- the directives among comments, in order; an unknown word is an error -/
def readDirectives : List Comment → Except DirectiveFault (List Directive)
  | [] => .ok []
  | c :: cs =>
    match cutDirective? c.text with
    | none => readDirectives cs
    | some (w, t) =>
      match DirectiveKind.parse? w with
      | none => .error (.unknownDirective w)
      | some k => do
        let ds ← readDirectives cs
        return { kind := k, text := t, pos := c.pos } :: ds

end ContractChecks
