import ContractChecks.Wrapper.Statement

/-!
# Imports of a wrapper

The packages a wrapper's code refers to, among those visible where the method is declared.
-/

namespace ContractChecks

abbrev Imports := List (Text × Text)

/-- the names and keywords that stand directly before a point; a name that follows one does not
count -/
def qualifiersFrom (last : Option Char) : List Lexeme → List Text
  | [] => []
  | l :: ls =>
    let rest := qualifiersFrom (l.lastMark last) ls
    match l with
    | .keyword raw => if ls.head? = some (.other '.') then raw :: rest else rest
    | .name raw =>
      if last != some '.' && ls.head? = some (.other '.') then raw :: rest else rest
    | _ => rest

def qualifiers (s : Text) : List Text := qualifiersFrom none (lexemes s)

namespace Wrapper

/-- the texts of a wrapper in which a package can be named -/
def texts (w : Wrapper) : List Text :=
  ((flatten w.stmts).flatMap fun a => [a.text, a.type])
    ++ (w.recv.toList.map Param.type) ++ w.params.map Param.type ++ w.results

/-- the imports that the wrapper's code refers to -/
def usedImports (w : Wrapper) (imports : Imports) : Imports :=
  imports.filter fun e => w.texts.any fun t => (qualifiers t).contains e.1

end Wrapper

end ContractChecks
