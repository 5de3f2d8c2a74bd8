import ContractChecks.Text.Quoted

/-!
# Command-line flags

A flag is given by its name after two dashes, or by its letter after one.  The letters of several
switches can stand together.  A flag that is no switch takes a value: after an equals sign, directly
after its letter, or in the next argument.  Two dashes alone end the flags.

* `Flag`: the flags of the command;
* `parseFlags flags args`: the flags given by the arguments, and the other arguments;
* `positionals flags args`: the other arguments as far as they can be told without knowing whether
  the flags are right;
* `Flag.usages`: the description of a set of flags.
-/

namespace ContractChecks

inductive Flag where
  | assertedOnly
  | buildFlags
  | config
  | dir
  | help
  | mode
  | out
  | setExitStatus
  | tests
  | verbose
deriving DecidableEq, Repr

namespace Flag

/-- in the order of their names -/
def all : List Flag :=
  [.assertedOnly, .buildFlags, .config, .dir, .help, .mode, .out, .setExitStatus, .tests, .verbose]

def name : Flag → Text
  | .assertedOnly => "asserted_only"
  | .buildFlags => "build_flags"
  | .config => "config"
  | .dir => "dir"
  | .help => "help"
  | .mode => "mode"
  | .out => "out"
  | .setExitStatus => "set_exit_status"
  | .tests => "tests"
  | .verbose => "verbose"

def letter? : Flag → Option Char
  | .config => some 'c'
  | .dir => some 'd'
  | .help => some 'h'
  | .mode => some 'm'
  | .out => some 'o'
  | .tests => some 't'
  | .verbose => some 'v'
  | _ => none

/-- what the value of a flag is called; empty for switches -/
def valueName : Flag → Text
  | .buildFlags => "strings"
  | .config | .dir | .mode | .out => "string"
  | _ => []

/-- a switch needs no value -/
def isSwitch (f : Flag) : Bool := f.valueName = []

/-- the value of a flag that is not given -/
def default : Flag → Text
  | .dir => "."
  | .mode => "direct"
  | _ => []

/-- the letter and the name, as in messages -/
def label (f : Flag) : Text :=
  match f.letter? with
  | some c => ['-', c] ++ ", --" ++ f.name
  | none => "--" ++ f.name

end Flag

inductive FlagFault where
  | badShape (arg : Text)
  | unknownName (name : Text)
  /-- an unknown letter, with the letters from there on -/
  | unknownLetter (letter : Char) (cluster : Text)
  | missingValue (arg : Text)
  | missingLetterValue (letter : Char) (cluster : Text)
  | badTruth (flag : Flag) (value : Text)
deriving DecidableEq, Repr

def quotedChar (c : Char) : Text :=
  if c = '\x27' then "'\\''"
  else if c = '\x22' then ['\x27', c, '\x27']
  else '\x27' :: (Text.quoteChar c ++ ['\x27'])

def firstByte (c : Char) : Char := Char.ofNat ((String.utf8EncodeChar c).headD 0).toNat

namespace FlagFault

def message : FlagFault → Text
  | .badShape arg => "bad flag syntax: " ++ arg
  | .unknownName name => "unknown flag: --" ++ name
  | .unknownLetter c cluster =>
    "unknown shorthand flag: " ++ quotedChar (firstByte c) ++ " in -" ++ cluster
  | .missingValue arg => "flag needs an argument: " ++ arg
  | .missingLetterValue c cluster =>
    "flag needs an argument: " ++ quotedChar c ++ " in -" ++ cluster
  | .badTruth f v =>
    "invalid argument " ++ v.quote ++ " for " ++ f.label.quote
      ++ " flag: strconv.ParseBool: parsing " ++ v.quote ++ ": invalid syntax"

end FlagFault

def parseTruth? (s : Text) : Option Bool :=
  let among (ws : List String) : Bool := ws.any fun w => w.toList = s
  if among ["1", "t", "T", "true", "TRUE", "True"] then some true
  else if among ["0", "f", "F", "false", "FALSE", "False"] then some false
  else none

/-! ### parsing -/

/-- the flags given by arguments, and the other arguments -/
structure ParsedFlags where
  values : List (Flag × Text) := []
  args : List Text := []
deriving DecidableEq, Repr

namespace ParsedFlags

def value? (p : ParsedFlags) (f : Flag) : Option Text :=
  ((p.values.filter fun v => v.1 = f).getLast?).map Prod.snd

def given (p : ParsedFlags) (f : Flag) : Bool := (p.value? f).isSome

def text (p : ParsedFlags) (f : Flag) : Text := (p.value? f).getD f.default

def switch (p : ParsedFlags) (f : Flag) : Bool :=
  ((p.value? f).bind parseTruth?).getD false

end ParsedFlags

def flagValue (f : Flag) (v : Text) : Except FlagFault (Flag × Text) :=
  if f.isSwitch && (parseTruth? v).isNone then .error (.badTruth f v) else .ok (f, v)

/-- the flags of an argument, and whether the next argument was used up -/
structure FlagStep where
  values : List (Flag × Text)
  usesNext : Bool := false
deriving DecidableEq, Repr

/-- an argument that starts with two dashes; `body` is the text after them -/
def nameStep (flags : List Flag) (arg body : Text) (next : Option Text) :
    Except FlagFault FlagStep :=
  if body.startsWith "-" || body.startsWith "=" then .error (.badShape arg)
  else
    let p := (Text.cut? "=" body).getD (body, [])
    match flags.find? fun f => f.name = p.1 with
    | none => .error (.unknownName p.1)
    | some f =>
      if (Text.cut? "=" body).isSome then do return ⟨[← flagValue f p.2], false⟩
      else if f.isSwitch then do return ⟨[← flagValue f "true"], false⟩
      else
        match next with
        | some v => do return ⟨[← flagValue f v], true⟩
        | none => .error (.missingValue arg)

/-- the letters after a single dash -/
def letterStep (flags : List Flag) (next : Option Text) : Text → Except FlagFault FlagStep
  | [] => .ok ⟨[], false⟩
  | c :: r =>
    match flags.find? fun f => f.letter? = some c with
    | none => .error (.unknownLetter c (c :: r))
    | some f =>
      if Text.startsWith r "=" && 1 < r.length then do
        return ⟨[← flagValue f (r.drop 1)], false⟩
      else if f.isSwitch then do
        let v ← flagValue f "true"
        let more ← letterStep flags next r
        return { more with values := v :: more.values }
      else if !r.isEmpty then do return ⟨[← flagValue f r], false⟩
      else
        match next with
        | some v => do return ⟨[← flagValue f v], true⟩
        | none => .error (.missingLetterValue c (c :: r))

/-- an argument that is neither a flag nor the mark that ends the flags -/
def isPlain (arg : Text) : Bool := !arg.startsWith "-" || arg.length = 1

def flagsEnd : Text := "--"

/-- the flags of an argument that is one, given the next argument -/
def flagStep (flags : List Flag) (arg : Text) (next : Option Text) : Except FlagFault FlagStep :=
  if arg.startsWith "--" then nameStep flags arg (arg.drop 2) next
  else letterStep flags next (arg.drop 1)

/-- the flags given by arguments, read after `p`; the first argument is passed over if it was the
value of a flag -/
def parseFlagsFrom (flags : List Flag) (p : ParsedFlags) (skip : Bool) :
    List Text → Except FlagFault ParsedFlags
  | [] => .ok p
  | arg :: rest =>
    if skip then parseFlagsFrom flags p false rest
    else if isPlain arg then
      parseFlagsFrom flags { p with args := p.args ++ [arg] } false rest
    else if arg = flagsEnd then .ok { p with args := p.args ++ rest }
    else do
      let s ← flagStep flags arg rest.head?
      parseFlagsFrom flags { p with values := p.values ++ s.values } s.usesNext rest

def parseFlags (flags : List Flag) (args : List Text) : Except FlagFault ParsedFlags :=
  parseFlagsFrom flags {} false args

/-! ### arguments that are no flags -/

/-- whether an argument is a flag whose value is in the next argument -/
def takesNext (flags : List Flag) (arg : Text) : Bool :=
  if arg.startsWith "--" then
    !Text.contains "=" arg && !flags.any fun f => f.name = arg.drop 2 && f.isSwitch
  else
    arg.startsWith "-" && arg.bytes = 2 && !Text.contains "=" arg
      && !flags.any fun f => f.letter? = arg[1]? && f.isSwitch

/-- the arguments that are neither flags nor values of flags; a flag without a value that is
followed by at most one argument ends the search -/
def positionals (flags : List Flag) : List Text → List Text
  | [] => []
  | arg :: rest =>
    if arg = flagsEnd then []
    else if takesNext flags arg then
      match rest with
      | _ :: b :: more => positionals flags (b :: more)
      | _ => []
    else if arg != [] && !arg.startsWith "-" then arg :: positionals flags rest
    else positionals flags rest

/-- the arguments without the first positional one that is `word` -/
def dropPositional (flags : List Flag) (word : Text) : List Text → List Text
  | [] => []
  | arg :: rest =>
    if arg = flagsEnd then arg :: rest
    else if takesNext flags arg then
      match rest with
      | v :: more => arg :: v :: dropPositional flags word more
      | [] => [arg]
    else if arg = word && !arg.startsWith "-" then rest
    else arg :: dropPositional flags word rest

/-! ### descriptions -/

namespace Flag

def usage : Flag → Text
  | .assertedOnly =>
    "only consider explicit type assertions when inheriting interface contracts"
  | .buildFlags => "additional build flags to pass to the loader"
  | .config => "read settings from this file (defaults to racgen.toml in --dir)"
  | .dir => "override the current working directory"
  | .help => "help for "
  | .mode => "instrumentation mode: direct, callSite or clientAwareChecking"
  | .out => "override the output filename (defaults to <package>_rac.go)"
  | .setExitStatus => "return a non-zero exit code if declarations could not be checked"
  | .tests => "include test sources"
  | .verbose => "enable additional diagnostic messages"

/-- the letter, the name and the value of a flag -/
def synopsis (f : Flag) : Text :=
  let head :=
    match f.letter? with
    | some c => "  -" ++ [c] ++ ", --" ++ f.name
    | none => "      --" ++ f.name
  if f.isSwitch then head else head ++ " " ++ f.valueName

def defaultNote (f : Flag) : Text :=
  if f.default = [] then [] else " (default " ++ f.default.quote ++ ")"

/-- one line for each flag of a command, with the descriptions in one column -/
def usages (flags : List Flag) (command : Text) : List Text :=
  let width := (flags.map fun f => f.synopsis.length).foldl max 0
  flags.map fun f =>
    f.synopsis ++ List.replicate (width - f.synopsis.length + 3) ' ' ++ f.usage
      ++ (if f = .help then command else []) ++ f.defaultNote

end Flag

end ContractChecks
