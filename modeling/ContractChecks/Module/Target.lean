import ContractChecks.Text.Basic

/-!
# Sources by system

The name of a source file can end in words that say which system or machine the file is for.
Files for others do not belong to the module, and neither do files whose names start with an
underscore or a point.

`isSourceName name`: whether a file of that name belongs to the module.
-/

namespace ContractChecks

/-- the system and the machine that packages are built for -/
structure BuildTarget where
  system : Text := "linux"
  machine : Text := "amd64"
deriving DecidableEq, Repr

def systemWords : List Text :=
  ["aix", "android", "darwin", "dragonfly", "freebsd", "hurd", "illumos", "ios", "js", "linux",
   "nacl", "netbsd", "openbsd", "plan9", "solaris", "wasip1", "windows", "zos"].map String.toList

def machineWords : List Text :=
  ["386", "amd64", "amd64p32", "arm", "armbe", "arm64", "arm64be", "loong64", "mips", "mipsle",
   "mips64", "mips64le", "mips64p32", "mips64p32le", "ppc", "ppc64", "ppc64le", "riscv",
   "riscv64", "s390", "s390x", "sparc", "sparc64", "wasm"].map String.toList

def testWord : Text := "test"

/-- the words of a file name after its first underscore, without the one that marks tests -/
def targetWords (name : Text) : List Text :=
  let words := (Text.splitAtChar '_' (name.takeWhile (· != '.'))).drop 1
  if words.getLast? = some testWord then words.dropLast else words

namespace BuildTarget

def accepts (t : BuildTarget) (word : Text) : Bool := word = t.system || word = t.machine

/-- whether the last words of a name, in reverse order, allow the target -/
def allows (t : BuildTarget) : List Text → Bool
  | [] => true
  | word :: before =>
    if machineWords.contains word && before.head?.any systemWords.contains then
      t.accepts word && before.head?.any t.accepts
    else if machineWords.contains word || systemWords.contains word then t.accepts word
    else true

end BuildTarget

/-- whether a file of that name belongs to the module -/
def isSourceName (name : Text) : Bool :=
  name.endsWith ".go" && !name.startsWith "_" && !name.startsWith "."
    && ({} : BuildTarget).allows (targetWords name).reverse

end ContractChecks
