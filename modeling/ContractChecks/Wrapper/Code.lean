import ContractChecks.PackagePath
import ContractChecks.Text.Quoted
import ContractChecks.Wrapper.Doc
import ContractChecks.Wrapper.Format
import ContractChecks.Wrapper.Statement

/-!
# Code of a wrapper

The source text of the function that a wrapper is, one statement a line.  Names of the support
package are qualified unless the code belongs to that package itself.

* `Stmt.source`, `blockSource`: statements;
* `Wrapper.source`: documentation and declaration;
* `Wrapper.tokens`: the tokens of its formatted source, by which code is compared.
-/

namespace ContractChecks

/-- a statement kind for which there is no code -/
structure UnknownStatement where
  number : Int
deriving DecidableEq, Repr

def UnknownStatement.message (u : UnknownStatement) : Text :=
  "unknown statement kind " ++ Text.ofInt u.number

structure CodeStyle where
  /-- whether names of the support package are qualified -/
  qualified : Bool := true
  /-- whether the code stands in a file, where documentation is formatted -/
  inFile : Bool := false
deriving DecidableEq, Repr

def CodeStyle.support (style : CodeStyle) (name : Text) : Text :=
  if style.qualified then supportName ++ "." ++ name else name

def CodeStyle.call (style : CodeStyle) (name : Text) (args : List Text) : Text :=
  style.support name ++ "(" ++ Text.join ", " args ++ ")"

/-- a block with its head -/
def bracedSource (head body : Text) : Text := head ++ " \x7b\n" ++ body ++ "\x7d"

def lineSource (s : Text) : Text := s ++ "\n"

/-- raises the caught signal again; a trailing error is returned, not raised -/
def rethrowSource (a : Action) : Text :=
  let raise : Text := "panic(" ++ caughtVar ++ ")"
  if a.errorResult then bracedSource ("if " ++ errorVar ++ " == nil") (lineSource raise)
  else raise

/-- a statement that has no statements inside it -/
def simpleSource (style : CodeStyle) (a : Action) : Except UnknownStatement Text :=
  match a.kind with
  | .declare | .capture | .support | .code => .ok a.text
  | .check =>
    .ok (style.call "Check" [a.text, style.support a.signal.text, a.message.quote])
  | .checkCause =>
    .ok (style.call "CheckCause"
      [a.text, style.support a.signal.text, caughtVar, a.message.quote])
  | .propagate => .ok (style.call "Propagate" [caughtVar])
  | .rethrow => .ok (rethrowSource a)
  | .return => .ok ("return " ++ a.text)
  | .guard | .select => .ok []
  | .unknown n => .error ⟨n⟩

/-- the invocation of the checked method, which binds the caught signal -/
def guardSource (style : CodeStyle) (a : Action) : Text :=
  let invoke := caughtVar ++ " := "
    ++ style.call "Guard" [bracedSource "func()" (lineSource a.text)]
  if a.errorResult then
    lineSource invoke
      ++ lineSource (bracedSource ("if " ++ caughtVar ++ " == nil && " ++ errorVar ++ " != nil")
        (lineSource (caughtVar ++ " = " ++ errorVar)))
  else lineSource invoke

def selectSource (style : CodeStyle) (a : Action) : Text :=
  let var : Text := if a.var = [] then "_" else a.var
  "if " ++ var ++ ", ok := " ++ style.support "As" ++ "[" ++ a.type ++ "](" ++ caughtVar ++ "); ok"

mutual

def Stmt.source (style : CodeStyle) : Stmt → Except UnknownStatement Text
  | .node a body normal exceptional =>
    match a.kind with
    | .guard =>
      if normal.isEmpty then do
        let e ← blockSource style exceptional
        .ok (guardSource style a ++ bracedSource ("if " ++ caughtVar ++ " != nil") e)
      else do
        let n ← blockSource style normal
        let e ← blockSource style exceptional
        .ok (guardSource style a ++ bracedSource ("if " ++ caughtVar ++ " == nil") n
          ++ bracedSource " else" e)
    | .select => do
      let b ← blockSource style body
      .ok (bracedSource (selectSource style a) b)
    | _ => simpleSource style a

def blockSource (style : CodeStyle) : List Stmt → Except UnknownStatement Text
  | [] => .ok []
  | s :: ss => do
    let first ← s.source style
    let more ← blockSource style ss
    .ok (lineSource first ++ more)

end

def docSource (style : CodeStyle) (doc : Text) : Text :=
  let comments := docComments doc
  (if style.inFile then formattedDoc comments else comments).flatMap lineSource

def paramSource (p : Param) : Text :=
  p.name ++ (if p.variadic then " ..." else " ") ++ p.type

def resultsSource : List Text → Text
  | [] => []
  | [r] => " " ++ r
  | rs => " (" ++ Text.join ", " rs ++ ")"

def receiverSource : Option Param → Text
  | some p => "(" ++ p.name ++ " " ++ p.type ++ ") "
  | none => []

namespace Wrapper

def header (w : Wrapper) : Text :=
  "func " ++ receiverSource w.recv ++ w.name ++ "(" ++ Text.join ", " (w.params.map paramSource)
    ++ ")" ++ resultsSource w.results

/-- documentation and declaration of the wrapper -/
def source (style : CodeStyle) (w : Wrapper) : Except UnknownStatement Text := do
  let body ← blockSource style w.stmts
  .ok (docSource style w.doc ++ lineSource (bracedSource w.header body))

def tokens (style : CodeStyle) (w : Wrapper) : Except UnknownStatement (List Text) :=
  (w.source style).map formattedTokens

end Wrapper

end ContractChecks
