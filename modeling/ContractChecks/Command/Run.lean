import ContractChecks.Command.Config
import ContractChecks.Command.Flags
import ContractChecks.Command.Generate

/-!
# The command

The command generates the checks of a module.  Its settings come from flags and from a
configuration file; a flag that is given wins over the file.  A subcommand lists the directives.

* `Settings.of`: the settings, from flags and configuration;
* `generate`: generates the checks and reports the declarations that could not be checked;
* `runCommand`: the whole command.
-/

namespace ContractChecks

def commandName : Text := "racgen"

/-- the configuration file used if none is named -/
def defaultConfig : Text := "racgen.toml"

inductive CommandFault where
  /-- an unknown subcommand of a command, with those it could stand for -/
  | unknownCommand (command word : Text) (suggestions : List Text)
  | flag (fault : FlagFault)
  | missingConfig (file : Text)
  | config (file : Text) (fault : ConfigFault)
  | generate (fault : GenerateFault)
  /-- a number of declarations that could not be checked -/
  | unchecked (n : Nat)
deriving DecidableEq, Repr

/-- the question after an unknown subcommand -/
def suggestionText : List Text → Text
  | [] => []
  | ws => "\n\nDid you mean this?\n" ++ Text.concat (ws.map fun w => "\t" ++ w ++ "\n")

def CommandFault.message : CommandFault → Text
  | .unknownCommand c w ws =>
    "unknown command " ++ w.quote ++ " for " ++ c.quote ++ suggestionText ws
  | .flag f => f.message
  | .missingConfig file => file ++ ": stat " ++ file ++ ": no such file or directory"
  | .config file f => file ++ ": " ++ f.message
  | .generate f => f.message
  | .unchecked n => Text.ofNat n ++ " declarations could not be checked"

/-- what a run of the command leaves behind -/
structure CommandResult where
  out : Text := []
  files : List (Text × GeneratedFile) := []
  fault : Option CommandFault := none

/-! ### settings -/

structure Settings where
  dir : Text
  mode : Mode
  assertedOnly : Bool
  tests : Bool
  /-- the output file, empty if every package gets its own -/
  out : Text
  packages : List Text
  setExitStatus : Bool
  verbose : Bool
deriving DecidableEq, Repr

/-- the first text unless it is empty -/
def orElseText (a b : Text) : Text := if a = [] then b else a

namespace Settings

/-- a switch: the flag if it is given, else the configuration -/
def choose (p : ParsedFlags) (f : Flag) (configured : Bool) : Bool :=
  if p.given f then p.switch f else configured

/-- a text: the flag if it is given, else the configuration unless it is empty -/
def chooseText (p : ParsedFlags) (f : Flag) (configured : Text) : Text :=
  if p.given f then p.text f else orElseText configured f.default

/-- the packages asked for, else the configured ones, else the one in the directory -/
def choosePackages (p : ParsedFlags) (configured : List Text) : List Text :=
  if !p.args.isEmpty then p.args
  else if !configured.isEmpty then configured
  else [Path.dot]

def of (p : ParsedFlags) (c : Config) : Settings :=
  { dir := p.text .dir
    mode := Mode.parse (chooseText p .mode c.mode)
    assertedOnly := choose p .assertedOnly c.assertedOnly
    tests := choose p .tests c.tests
    out := chooseText p .out c.out
    packages := choosePackages p c.packages
    setExitStatus := choose p .setExitStatus c.setExitStatus
    verbose := choose p .verbose c.verbose }

end Settings

def configFile (p : ParsedFlags) : Text :=
  let named := p.text .config
  if named = [] then ((Path.parse (p.text .dir)).join defaultConfig).text else named

/-- the configuration that the flags ask for; a file that is not named need not exist -/
def readConfig (w : Workplace) (p : ParsedFlags) : Except CommandFault Config :=
  match w.configs.lookup (configFile p) with
  | some text => (Config.parse text).mapError (.config (configFile p))
  | none => if p.text .config = [] then .ok {} else .error (.missingConfig (configFile p))

/-! ### generating -/

/-- the reports about declarations that could not be checked -/
def reportText (dir : Text) (rs : List Result) : Text :=
  Text.concat ((sortResults rs).map fun r => "warning: " ++ r.sortChildren.text dir ++ "\n\n")

def Settings.loadOptions (s : Settings) (w : Workplace) : LoadOptions :=
  { mode := s.mode
    assertedOnly := s.assertedOnly
    tests := s.tests
    dir := w.resolve s.dir
    patterns := s.packages }

/-- the fault of a run that came to its end -/
def Settings.exitFault (s : Settings) (rs : List Result) : Option CommandFault :=
  if s.setExitStatus && !rs.isEmpty then some (.unchecked rs.length) else none

def generate (w : Workplace) (s : Settings) : CommandResult :=
  let verbose (log : List Text) : Text := if s.verbose then logText log else []
  match load (s.loadOptions w) w.module w.report w.typeError with
  | .error f => { fault := some (.generate (.load f)) }
  | .ok l =>
    match (writePackages w s.out l.packages).run {} with
    | .error f written =>
      { out := verbose (l.log ++ written.log)
        files := written.files
        fault := some (.generate f) }
    | .ok _ written =>
      { out := verbose (l.log ++ written.log) ++ reportText s.dir l.results
        files := written.files
        fault := s.exitFault l.results }

/-! ### help -/

inductive Subcommand where
  | completion
  | directives
  | help
deriving DecidableEq, Repr

namespace Subcommand

def all : List Subcommand := [.completion, .directives, .help]

def word : Subcommand → Text
  | .completion => "completion"
  | .directives => "directives"
  | .help => "help"

def purpose : Subcommand → Text
  | .completion => "Generate the autocompletion script for the specified shell"
  | .directives => "Lists the supported directives"
  | .help => "Help about any command"

def helpLine (c : Subcommand) : Text :=
  "  " ++ c.word ++ List.replicate (12 - c.word.length) ' ' ++ c.purpose

end Subcommand

def textOfLines (ls : List Text) : Text := Text.concat (ls.map fun l => l ++ "\n")

/-- how the command is used -/
def usageText (flags : List Flag) : Text :=
  textOfLines
    ((["Usage:", "  racgen [packages] [flags]", "  racgen [command]", "",
        "Available Commands:"] : List String).map String.toList
      ++ Subcommand.all.map Subcommand.helpLine
      ++ (["", "Flags:"] : List String).map String.toList
      ++ Flag.usages flags commandName
      ++ (["", "Use \"racgen [command] --help\" for more information about a command."] :
        List String).map String.toList)

def helpText : Text :=
  "Generate runtime assertion checks for contracted Go declarations\n\n" ++ usageText Flag.all

def directivesHelp : Text :=
  Subcommand.directives.purpose ++ "\n\nUsage:\n  racgen directives [flags]\n\nFlags:\n"
    ++ textOfLines (Flag.usages [.help] Subcommand.directives.word)

def completionHelp : Text :=
  "Generate the autocompletion script for racgen for the specified shell.\n"
    ++ "See each sub-command's help for details on how to use the generated script.\n\n"
    ++ "Usage:\n  racgen completion [command]\n\nAvailable Commands:\n"
    ++ textOfLines ((["bash", "fish", "powershell", "zsh"] : List String).map fun shell =>
      "  " ++ shell.toList ++ List.replicate (12 - shell.length) ' '
        ++ "Generate the autocompletion script for " ++ shell.toList)
    ++ "\nFlags:\n"
    ++ textOfLines (Flag.usages [.help] Subcommand.completion.word)
    ++ "\nUse \"racgen completion [command] --help\" for more information about a command.\n"

def directivesText : Text :=
  Text.concat (DirectiveKind.all.map fun k =>
    "//rac:" ++ k.word ++ "\n\t" ++ k.usage ++ "\n")

/-! ### subcommands -/

/-- the least number of single-character changes from one text to another -/
def editDistance (s t : Text) : Nat :=
  let first := List.range (t.length + 1)
  let row (prev : List Nat) (c : Char) : List Nat :=
    let step (acc : List Nat) (x : Char × Nat × Nat) : List Nat :=
      let left := acc.headD 0
      let changed := if x.1 = c then x.2.1 else x.2.1 + 1
      min changed (min (left + 1) (x.2.2 + 1)) :: acc
    ((t.zip (prev.zip prev.tail)).foldl step [prev.headD 0 + 1]).reverse
  (s.foldl row first).getLastD 0

/-- whether a word could stand for another one -/
def resembles (word target : Text) : Bool :=
  let w : Text := word.map Char.toLower
  editDistance w target ≤ 2 || target.startsWith w

/-- the flags that are known before help is asked for -/
def plainFlags : List Flag := Flag.all.filter fun f => f != .help

/-- the help text asked for by the words after the help subcommand -/
def helpTopic (words : List Text) : Text :=
  match positionals plainFlags words with
  | [] => helpText
  | w :: _ =>
    if w = Subcommand.directives.word then directivesHelp
    else if w = Subcommand.completion.word then completionHelp
    else
      "Unknown help topic [" ++ Text.join " " (words.map fun w => "\x60" ++ w ++ "\x60") ++ "]\n"
        ++ usageText plainFlags

def runDirectives (args : List Text) : CommandResult :=
  match parseFlags [.help] args with
  | .error f => { fault := some (.flag f) }
  | .ok p => { out := if p.switch .help then directivesHelp else directivesText }

/-- the subcommand about completion; it has no scripts to offer, only its help text -/
def runCompletion (args : List Text) : CommandResult :=
  match parseFlags [.help] args with
  | .error f => { fault := some (.flag f) }
  | .ok p =>
    match p.args with
    | [] => { out := completionHelp }
    | w :: _ =>
      if p.switch .help then { out := completionHelp }
      else
        let command := commandName ++ " " ++ Subcommand.completion.word
        { fault := some (.unknownCommand command w []) }

def runHelp (args : List Text) : CommandResult :=
  match parseFlags [.help] args with
  | .error f => { fault := some (.flag f) }
  | .ok p => { out := helpTopic p.args }

/-- the command without a subcommand -/
def runRoot (w : Workplace) (args : List Text) : CommandResult :=
  match parseFlags Flag.all args with
  | .error f => { fault := some (.flag f) }
  | .ok p =>
    if p.switch .help then { out := helpText }
    else
      match readConfig w p with
      | .error f => { fault := some f }
      | .ok c => generate w (Settings.of p c)

/-- the subcommands that a word could stand for -/
def suggestions (word : Text) : List Text :=
  ([Subcommand.directives, .completion].map Subcommand.word).filter (resembles word)

def runCommand (w : Workplace) (args : List Text) : CommandResult :=
  match positionals plainFlags args with
  | [] => runRoot w args
  | word :: _ =>
    if word = Subcommand.directives.word then runDirectives (dropPositional plainFlags word args)
    else if word = Subcommand.completion.word then
      runCompletion (dropPositional plainFlags word args)
    else if word = Subcommand.help.word then runHelp (dropPositional plainFlags word args)
    else { fault := some (.unknownCommand commandName word (suggestions word)) }

end ContractChecks
