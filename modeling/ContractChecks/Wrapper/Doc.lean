import ContractChecks.Source.Token

/-!
# Documentation of a wrapper

The documentation stands before the wrapper as comments, one a line.  In a file it is formatted:
its paragraphs have one empty line between them, and directives for tools come last.

* `docComments doc`: the comments as they are written;
* `formattedDoc comments`: the comments as they stand in a file.
-/

namespace ContractChecks

/-- a line of documentation; a line that is a comment already stays as it is -/
def docComment (line : Text) : Text :=
  if isComment line then line else "// " ++ line

def docComments (doc : Text) : List Text := doc.lines.map docComment

def isDirectiveChar (c : Char) : Bool := ('a' ≤ c && c ≤ 'z') || ('0' ≤ c && c ≤ '9')

/-- whether a comment, without its mark, is a directive for tools: two words with a colon between
them, or one of three words -/
def isToolDirective (s : Text) : Bool :=
  s.startsWith "line " || s.startsWith "extern " || s.startsWith "export "
    || match s.span isDirectiveChar with
      | (_ :: _, ':' :: c :: _) => isDirectiveChar c
      | _ => false

/-- lines without the empty ones at both ends, and with one empty line at most between others -/
def joinParagraphs : List Text → List Text
  | [] => []
  | l :: ls =>
    match l, joinParagraphs ls with
    | [], [] => []
    | [], [] :: rest => [] :: rest
    | l, rest => l :: rest

def textComment (line : Text) : Text := if line = [] then "//" else "// " ++ line

/-- the comments as they stand in a file; documentation with indented lines stays as it is -/
def formattedDoc (comments : List Text) : List Text :=
  if !comments.all isLineComment then comments
  else
    let bodies := comments.map fun c => (dropReturns c).drop 2
    let directives := bodies.filter isToolDirective
    let lines := (bodies.filter fun b => !isToolDirective b).map fun b =>
      (Text.dropStart " " b).trimEnd
    if lines.isEmpty || lines.any fun l => l.head?.any isBlank then comments
    else
      (joinParagraphs (lines.dropWhile List.isEmpty)).map textComment
        ++ if directives.isEmpty then [] else ([] :: directives).map fun d => ("//" : Text) ++ d

end ContractChecks
