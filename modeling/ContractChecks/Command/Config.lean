import ContractChecks.Text.Blank
import ContractChecks.Text.Quoted

/-!
# Configuration files

A configuration file holds settings, one a line: a key, an equals sign and a value.  Values are
strings, integers, truth values, and lists of these in brackets, which may go over several lines.
Comments start with a number sign.

* `readSettings text`: the settings of a file in order;
* `Config.ofSettings`: the configuration they give;
* `ConfigFault.message`: the wording of what is wrong with a file.
-/

namespace ContractChecks

inductive Scalar where
  | text (s : Text)
  | number (n : Int)
  | truth (b : Bool)
deriving DecidableEq, Repr

inductive ConfigValue where
  | scalar (v : Scalar)
  | list (vs : List Scalar)
deriving DecidableEq, Repr

structure Setting where
  key : Text
  value : ConfigValue
  /-- the line of the value -/
  line : Nat
deriving DecidableEq, Repr

inductive ConfigFault where
  /-- the text at a line is no setting -/
  | shape (line : Nat)
  /-- a word in the place of a value -/
  | noValue (line : Nat) (key word : Text)
  | repeatedKey (line : Nat) (key : Text)
  /-- a value of another sort than the key asks for -/
  | wrongSort (line : Nat) (key : Text) (found wanted : Text)
  | unknownKey (key : Text)
deriving DecidableEq, Repr

def isKeyChar (c : Char) : Bool :=
  c = '_' || c = '-' || ('a' ≤ c && c ≤ 'z') || ('A' ≤ c && c ≤ 'Z') || ('0' ≤ c && c ≤ '9')

def keyText (key : Text) : Text :=
  if key != [] && key.all isKeyChar then key else key.quote

namespace ConfigFault

def place (line : Nat) (key : Text) : Text :=
  "toml: line " ++ Text.ofNat line ++ " (last key " ++ key.quote ++ "): "

def message : ConfigFault → Text
  | .shape line =>
    "toml: line " ++ Text.ofNat line ++ ": expected a key, an equals sign and a value"
  | .noValue line key word =>
    place line key ++ "expected value but found " ++ word.quote ++ " instead"
  | .repeatedKey line key => place line key ++ "Key '" ++ key ++ "' has already been defined."
  | .wrongSort line key found wanted =>
    place line key ++ "incompatible types: TOML value has type " ++ found
      ++ "; destination has type " ++ wanted
  | .unknownKey key => "unknown key " ++ (keyText key).quote

end ConfigFault

/-! ### values -/

def isLineBlank (c : Char) : Bool := c = ' ' || c = '\t'

/-- the text after blanks, line ends and comments -/
def skipVoid (inComment : Bool) : Text → Text
  | [] => []
  | c :: r =>
    if c = '\n' then skipVoid false r
    else if inComment || isLineBlank c || c = '\r' then skipVoid inComment r
    else if c = '#' then skipVoid true r
    else c :: r

def skipLineBlanks (s : Text) : Text := s.dropWhile isLineBlank

def digitValue? (c : Char) : Option Nat :=
  if '0' ≤ c && c ≤ '9' then some (c.toNat - '0'.toNat) else none

def hexValue? (c : Char) : Option Nat :=
  if '0' ≤ c && c ≤ '9' then some (c.toNat - '0'.toNat)
  else if 'a' ≤ c && c ≤ 'f' then some (c.toNat - 'a'.toNat + 10)
  else if 'A' ≤ c && c ≤ 'F' then some (c.toNat - 'A'.toNat + 10)
  else none

def hexChar? (digits : Text) : Option Char := do
  let ds ← digits.mapM hexValue?
  let n := ds.foldl (fun n d => 16 * n + d) 0
  if n.isValidChar then some (Char.ofNat n) else none

/-- the character that a letter stands for after a backslash -/
def escapedChar? (c : Char) : Option Char :=
  if c = 'b' then some '\x08'
  else if c = 't' then some '\t'
  else if c = 'n' then some '\n'
  else if c = 'f' then some '\x0c'
  else if c = 'r' then some '\r'
  else if c = '\x22' then some '\x22'
  else if c = '\\' then some '\\'
  else none

/-- a character put in front of what was read -/
def prepend? (c : Option Char) (p : Option (Text × Text)) : Option (Text × Text) := do
  let x ← c
  let q ← p
  return (x :: q.1, q.2)

/-- the contents of a string whose opening quote was passed, and the text after it -/
def basicString : Text → Option (Text × Text)
  | [] => none
  | '\\' :: 'u' :: a :: b :: c :: d :: r => prepend? (hexChar? [a, b, c, d]) (basicString r)
  | '\\' :: 'U' :: a :: b :: c :: d :: e :: f :: g :: h :: r =>
    prepend? (hexChar? [a, b, c, d, e, f, g, h]) (basicString r)
  | '\\' :: c :: r => prepend? (escapedChar? c) (basicString r)
  | c :: r =>
    if c = '\x22' then some ([], r)
    else if c = '\n' then none
    else prepend? (some c) (basicString r)

/-- the contents of a string without escapes, and the text after it -/
def literalString : Text → Option (Text × Text)
  | [] => none
  | c :: r =>
    if c = '\x27' then some ([], r)
    else if c = '\n' then none
    else prepend? (some c) (literalString r)

def string? : Text → Option (Text × Text)
  | [] => none
  | c :: r =>
    if c = '\x22' then basicString r
    else if c = '\x27' then literalString r
    else none

/-- the value of a decimal numeral, in which digits may be grouped by underscores -/
def numeral? (s : Text) : Option Nat := do
  let ds ← (s.filter (· != '_')).mapM digitValue?
  if ds.isEmpty then none else some (ds.foldl (fun n d => 10 * n + d) 0)

/-- a word that stands for a number or a truth value -/
def scalarWord? (w : Text) : Option Scalar :=
  if w = "true" then some (.truth true)
  else if w = "false" then some (.truth false)
  else if w.startsWith "-" then (numeral? (w.drop 1)).map fun n => .number (-n)
  else (numeral? (Text.dropStart "+" w)).map fun n => .number n

def isScalarChar (c : Char) : Bool := isKeyChar c || c = '+' || c = '.' || c = ':'

/-- a single value at the start of a text -/
def scalar? (s : Text) : Option (Scalar × Text) :=
  match string? s with
  | some p => some (.text p.1, p.2)
  | none =>
    (scalarWord? (s.takeWhile isScalarChar)).map fun v => (v, s.dropWhile isScalarChar)

/-- the rest of a list whose opening bracket was passed, and the text after it -/
def listTail (s : Text) : Option (List Scalar × Text) :=
  let t := skipVoid false s
  if t.startsWith "]" then some ([], t.drop 1)
  else do
    let p ← scalar? t
    let rest := skipVoid false p.2
    if rest.startsWith "]" then return ([p.1], rest.drop 1)
    else if rest.startsWith "," then
      if _h : (rest.drop 1).length < s.length then
        let q ← listTail (rest.drop 1)
        return (p.1 :: q.1, q.2)
      else none
    else none
termination_by s.length
decreasing_by exact _h

def configValue? (s : Text) : Option (ConfigValue × Text) :=
  if s.startsWith "[" then (listTail (s.drop 1)).map fun p => (.list p.1, p.2)
  else (scalar? s).map fun p => (.scalar p.1, p.2)

/-! ### settings -/

def key? (s : Text) : Option (Text × Text) :=
  match string? s with
  | some p => some p
  | none =>
    let w : Text := s.takeWhile isKeyChar
    if w.isEmpty then none else some (w, s.dropWhile isKeyChar)

def countLineEnds (s : Text) : Nat := s.count '\n'

/-- whether nothing but a comment stands before the end of the line -/
def endsLine (s : Text) : Bool :=
  match skipLineBlanks s with
  | [] => true
  | c :: _ => c = '\n' || c = '\r' || c = '#'

/-- one setting at the start of a text that has `total` line ends from the start of the file on -/
def setting (total : Nat) (s : Text) : Except ConfigFault (Setting × Text) :=
  let line (t : Text) : Nat := total - countLineEnds t + 1
  match key? s with
  | none => .error (.shape (line s))
  | some (key, r) =>
    let r := skipLineBlanks r
    if r.startsWith "=" then
      let v := skipLineBlanks (r.drop 1)
      match configValue? v with
      | some (value, rest) =>
        if endsLine rest then .ok (⟨key, value, line v⟩, rest) else .error (.shape (line v))
      | none =>
        let word : Text := v.takeWhile isKeyChar
        .error (if word.isEmpty then .shape (line v) else .noValue (line v) key word)
    else .error (.shape (line s))

/-- the settings of a text after those in `done` -/
def settingsFrom (total : Nat) (done : List Setting) (s : Text) :
    Except ConfigFault (List Setting) :=
  let t := skipVoid false s
  if t.isEmpty then .ok done
  else do
    let p ← setting total t
    if done.any fun x => x.key = p.1.key then .error (.repeatedKey p.1.line p.1.key)
    else if _h : p.2.length < s.length then settingsFrom total (done ++ [p.1]) p.2
    else .error (.shape p.1.line)
termination_by s.length

/-- the settings of a file, in order -/
def readSettings (s : Text) : Except ConfigFault (List Setting) :=
  settingsFrom (countLineEnds s) [] s

/-! ### the configuration -/

structure Config where
  assertedOnly : Bool := false
  buildFlags : List Text := []
  mode : Text := []
  out : Text := []
  packages : List Text := []
  setExitStatus : Bool := false
  tests : Bool := false
  verbose : Bool := false
deriving DecidableEq, Repr

inductive ConfigKey where
  | assertedOnly
  | buildFlags
  | mode
  | out
  | packages
  | setExitStatus
  | tests
  | verbose
deriving DecidableEq, Repr

namespace ConfigKey

def all : List ConfigKey :=
  [.assertedOnly, .buildFlags, .mode, .out, .packages, .setExitStatus, .tests, .verbose]

def word : ConfigKey → Text
  | .assertedOnly => "asserted_only"
  | .buildFlags => "build_flags"
  | .mode => "mode"
  | .out => "out"
  | .packages => "packages"
  | .setExitStatus => "set_exit_status"
  | .tests => "tests"
  | .verbose => "verbose"

/-- keys are recognised in upper and lower case -/
def parse? (s : Text) : Option ConfigKey := all.find? fun k => k.word = s.map Char.toLower

end ConfigKey

namespace Scalar

def sort : Scalar → Text
  | .text _ => "string"
  | .number _ => "int64"
  | .truth _ => "bool"

end Scalar

namespace ConfigValue

def sort : ConfigValue → Text
  | .scalar v => v.sort
  | .list _ => "[]interface \x7b\x7d"

end ConfigValue

namespace Setting

def wrongSort (s : Setting) (found wanted : Text) : ConfigFault :=
  .wrongSort s.line (keyText s.key) found wanted

def asScalarText (s : Setting) : Scalar → Except ConfigFault Text
  | .text t => .ok t
  | v => .error (s.wrongSort v.sort "string")

def asText (s : Setting) : Except ConfigFault Text :=
  match s.value with
  | .scalar v => s.asScalarText v
  | v => .error (s.wrongSort v.sort "string")

def asTruth (s : Setting) : Except ConfigFault Bool :=
  match s.value with
  | .scalar (.truth b) => .ok b
  | v => .error (s.wrongSort v.sort "boolean")

def asTexts (s : Setting) : Except ConfigFault (List Text) :=
  match s.value with
  | .list vs => vs.mapM s.asScalarText
  | v => .error (s.wrongSort v.sort "slice")

end Setting

namespace Config

/-- stores a setting; an unknown key is passed over -/
def apply (c : Config) (s : Setting) : Except ConfigFault Config :=
  match ConfigKey.parse? s.key with
  | none => .ok c
  | some .assertedOnly => do return { c with assertedOnly := ← s.asTruth }
  | some .buildFlags => do return { c with buildFlags := ← s.asTexts }
  | some .mode => do return { c with mode := ← s.asText }
  | some .out => do return { c with out := ← s.asText }
  | some .packages => do return { c with packages := ← s.asTexts }
  | some .setExitStatus => do return { c with setExitStatus := ← s.asTruth }
  | some .tests => do return { c with tests := ← s.asTruth }
  | some .verbose => do return { c with verbose := ← s.asTruth }

/-- the configuration of a list of settings; after values of a wrong sort, the first unknown key
is an error -/
def ofSettings (settings : List Setting) : Except ConfigFault Config := do
  let c ← settings.foldlM apply {}
  match settings.find? fun s => (ConfigKey.parse? s.key).isNone with
  | some s => .error (.unknownKey s.key)
  | none => .ok c

/-- the configuration of the text of a file -/
def parse (text : Text) : Except ConfigFault Config := do
  ofSettings (← readSettings text)

end Config

end ContractChecks
