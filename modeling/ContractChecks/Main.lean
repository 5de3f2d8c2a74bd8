import ContractChecks.Command.Run
import ContractChecks.Module.SourceText

/-!
# The command line

Reads the module around a directory, runs the command on it, and writes what it generates.
-/

namespace ContractChecks

/-- a text for the outside -/
def shown (s : Text) : String := String.ofList s

def readText? (file : Text) : IO (Option Text) := do
  try
    return some (← IO.FS.readFile (shown file)).toList
  catch _ =>
    return none

/-- the source files in a directory and below, by their paths below the module; directories that
patterns pass over are left out -/
partial def sourceFiles (root below : Text) : IO (List SourceFile) := do
  let dir := if below = [] then root else root ++ "/" ++ below
  let mut files := []
  for e in ← (← IO.FS.realPath (shown dir)).readDir do
    let name : Text := e.fileName.toList
    let path := if below = [] then name else below ++ "/" ++ name
    if ← e.path.isDir then
      if !isHiddenElement name then
        files := files ++ (← sourceFiles root path)
    else if name.endsWith ".go" then
      if let some text ← readText? (root ++ "/" ++ path) then
        files := files ++ [SourceFile.parse path text]
  return files.mergeSort fun a b => a.path.le b.path

/-- the nearest directory with a module file, from a directory upwards, and the module's path -/
def findModule (dir : Path) : Nat → IO (Option (Text × Text))
  | 0 => return none
  | n + 1 => do
    match ← readText? (dir.join "go.mod").text with
    | some text => return (modulePath? text).map fun path => (dir.text, path)
    | none => findModule dir.parent n

/-- the module of a directory; a directory outside every module is one of its own -/
def readModule (dir : Text) : IO SourceModule := do
  let p := Path.parse dir
  let (root, path) := (← findModule p (p.elements.length + 1)).getD (dir, "command-line-arguments")
  return { dir := root, path := path, files := ← sourceFiles root [] }

/-- the configuration file that the arguments ask for, if there is one -/
def readConfigs (args : List Text) : IO (List (Text × Text)) := do
  match parseFlags Flag.all args with
  | .ok p =>
    match ← readText? (configFile p) with
    | some text => return [(configFile p, text)]
    | none => return []
  | .error _ => return []

def commandDir (args : List Text) : Text :=
  match parseFlags Flag.all args with
  | .ok p => p.text .dir
  | .error _ => Path.dot

def readWorkplace (args : List Text) : IO Workplace := do
  let here := (← IO.currentDir).toString.toList
  let dir := if (commandDir args).startsWith "/" then Path.parse (commandDir args)
    else (Path.parse here).join (commandDir args)
  return { module := ← readModule dir.text, dir := here, configs := ← readConfigs args }

/-- writes what a run of the command leaves behind; gives the exit code -/
def finish (r : CommandResult) : IO UInt32 := do
  IO.print (shown r.out)
  for f in r.files do
    IO.FS.writeFile (shown f.1) (shown f.2.source)
  match r.fault with
  | some f =>
    IO.eprintln ("error: " ++ shown f.message)
    return 1
  | none => return 0

end ContractChecks

def main (args : List String) : IO UInt32 := do
  let words := args.map String.toList
  ContractChecks.finish (ContractChecks.runCommand (← ContractChecks.readWorkplace words) words)
