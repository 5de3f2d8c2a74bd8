import ContractChecks.Module.Source

/-!
# Layout of a source file

Where the declarations of a file stand if it is written out: the package line, the imports one a
line, and the declarations, with an empty line after each part.  Comments stand on lines of their
own before the function they belong to.

`SourceFile.laidOut`: the file with the lines that its declarations get.
-/

namespace ContractChecks

def SourceComment.height (c : SourceComment) : Nat := c.text.lines.length

/-- comments one below the other, from a line on -/
def placeComments : Nat → List SourceComment → List SourceComment
  | _, [] => []
  | line, c :: cs => { c with line := line } :: placeComments (line + c.height) cs

/-- the height of several things one below the other -/
def stackedHeight (heights : List Nat) : Nat := heights.foldl (· + ·) 0

namespace FuncDecl

/-- the number of lines of a function with its comments -/
def height (f : FuncDecl) : Nat := stackedHeight (f.comments.map SourceComment.height) + 1

def placedAt (line : Nat) (f : FuncDecl) : FuncDecl :=
  { f with comments := placeComments line f.comments, line := line + f.height - 1 }

end FuncDecl

/-- functions one below the other, from a line on -/
def placeMethods : Nat → List FuncDecl → List FuncDecl
  | _, [] => []
  | line, f :: fs => f.placedAt line :: placeMethods (line + f.height) fs

/-- the number of lines of an interface: its first and last one, and those between -/
def InterfaceDecl.height (i : InterfaceDecl) : Nat :=
  i.embeds.length + stackedHeight (i.methods.map FuncDecl.height) + 2

namespace Decl

def height : Decl → Nat
  | .type _ => 1
  | .assertion _ => 1
  | .func f => f.height
  | .interface i => i.height

def placedAt (line : Nat) : Decl → Decl
  | .func f => .func (f.placedAt line)
  | .interface i =>
    .interface { i with methods := placeMethods (line + i.embeds.length + 1) i.methods }
  | d => d

end Decl

/-- declarations from a line on, with an empty line after each -/
def placeDecls : Nat → List Decl → List Decl
  | _, [] => []
  | line, d :: ds => d.placedAt line :: placeDecls (line + d.height + 1) ds

def SourceFile.firstLine (f : SourceFile) : Nat :=
  if f.imports.isEmpty then 3 else f.imports.length + 4

def SourceFile.laidOut (f : SourceFile) : SourceFile :=
  { f with decls := placeDecls f.firstLine f.decls }

def SourceModule.laidOut (m : SourceModule) : SourceModule :=
  { m with files := m.files.map SourceFile.laidOut }

end ContractChecks
