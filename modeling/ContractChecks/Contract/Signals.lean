import ContractChecks.Text.Blank
import ContractChecks.Source.Lexeme

/-!
# Signals clauses and old variables

A signals clause speaks of the exceptional end of a method: its predicate must hold whenever a
signal of the given type is raised, which is bound to the variable meanwhile.

An old variable is written as one compound text: a declaration and a capture statement with a
slash between them.  Only the leading name of the declaration counts as its name.
-/

namespace ContractChecks

def anyType : Text := "interface\x7b\x7d"

structure Signals where
  /-- empty for a clause about every signal -/
  type : Text := []
  var : Text := []
  pred : Text := []
deriving DecidableEq, Repr

namespace Signals

def typeOrAny (s : Signals) : Text := if s.type.isEmpty then anyType else s.type

/-- the type and, if there is one, the variable -/
def binding (s : Signals) : Text :=
  if s.var.isEmpty then s.typeOrAny else s.typeOrAny ++ " " ++ s.var

def text (s : Signals) : Text := "signals (" ++ s.binding ++ ") " ++ s.pred

end Signals

/-- a declaration without a leading `var` -/
def dropVar (decl : Text) : Text := Text.dropStart "var " decl

def declaredName (decl : Text) : Text := leadingName (dropVar decl.trim)

structure OldVar where
  text : Text
deriving DecidableEq, Repr

namespace OldVar

/-- the variable of a name and a type that captures an expression -/
def encode (name type expr : Text) : OldVar :=
  ⟨name ++ " " ++ type ++ "/" ++ name ++ " = " ++ expr⟩

/-- declaration and capture, both trimmed -/
def split (v : OldVar) : Text × Text :=
  match Text.cut? "/" v.text with
  | some p => (p.1.trim, p.2.trim)
  | none => (v.text.trim, [])

def name (v : OldVar) : Text := leadingName (dropVar v.split.1).trim

def decl (v : OldVar) : Text :=
  if v.split.1.startsWith "var " then v.split.1 else "var " ++ v.split.1

/-- the statement that captures the old value, empty if there is none -/
def capture (v : OldVar) : Text := v.split.2

end OldVar

end ContractChecks
