import ContractChecks.Report.Path
import ContractChecks.Wrapper.Code
import ContractChecks.Wrapper.Imports

/-!
# Generated files

The wrappers of one package, in a file of their own beside the sources.  The file imports the
support package if some statement uses it, and every package that a wrapper refers to; a package
is imported under its own name unless the last element of its path is another one.
-/

namespace ContractChecks

/-- the first line of every generated file -/
def fileHeader : Text := "// Code generated by racgen. DO NOT EDIT."

structure PackagedWrapper where
  wrapper : Wrapper
  imports : Imports := []
  /-- whether the method is declared in a test source -/
  test : Bool := false
deriving Repr

/-- an import: the name it is given, empty if that is the package's own, and the path -/
structure ImportSpec where
  name : Text
  path : Text
deriving DecidableEq, Repr

namespace ImportSpec

/-- by path, then by name -/
def le (a b : ImportSpec) : Bool :=
  if a.path = b.path then a.name.le b.name else a.path.le b.path

end ImportSpec

structure GeneratedFile where
  package : Text
  imports : List ImportSpec
  /-- the source after the imports -/
  body : Text
deriving DecidableEq, Repr

/-- whether the code of a statement calls the support package -/
def StmtKind.usesSupport : StmtKind → Bool
  | .check | .checkCause | .guard | .propagate | .select => true
  | _ => false

def importSpec (name path : Text) : ImportSpec :=
  ⟨if name = pathBase path then [] else name, path⟩

/-- the imports of several wrappers; for one name the last wrapper decides -/
def mergeImports (ws : List PackagedWrapper) : Imports :=
  (ws.flatMap PackagedWrapper.imports).foldl (fun f e => Renaming.set f e.1 e.2) []

/-- the imports of a file without repetitions, sorted -/
def fileImports (usesSupport : Bool) (imports : Imports) : List ImportSpec :=
  let specs := (if usesSupport then [ImportSpec.mk [] supportPath] else [])
    ++ imports.map fun e => importSpec e.1 e.2
  specs.eraseDups.mergeSort ImportSpec.le

namespace GeneratedFile

/-- the file for the wrappers of a package, or nothing if there are none -/
def render (path package : Text) (test : Bool) (ws : List PackagedWrapper) :
    Except UnknownStatement (Option GeneratedFile) := do
  let chosen := ws.filter fun w => w.test == test
  let style : CodeStyle := { qualified := path != supportPath, inFile := true }
  let sources ← chosen.mapM fun w => w.wrapper.source style
  if chosen.isEmpty then .ok none
  else
    let calls := chosen.any fun w => w.wrapper.stmts.any fun s => s.action.kind.usesSupport
    .ok (some {
      package := package
      imports := fileImports (calls && style.qualified) (mergeImports chosen)
      body := Text.join "\n" sources })

/-- the tokens of the formatted source after the imports -/
def tokens (f : GeneratedFile) : List Text := formattedTokens f.body

/-- the name of an import with a space after it, if there is one -/
def namePart (name : Text) : Text := if name = [] then [] else name ++ " "

def importLine (i : ImportSpec) : Text := "\t" ++ namePart i.name ++ i.path.quote ++ "\n"

def importBlock : List ImportSpec → Text
  | [] => []
  | specs => "import (\n" ++ Text.concat (specs.map importLine) ++ ")\n\n"

/-- the whole file -/
def source (f : GeneratedFile) : Text :=
  fileHeader ++ "\n\npackage " ++ f.package ++ "\n\n" ++ importBlock f.imports ++ f.body

end GeneratedFile

end ContractChecks
