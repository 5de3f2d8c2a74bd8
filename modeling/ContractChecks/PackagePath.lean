import ContractChecks.Text.Basic

/-!
# Package paths

Generated code calls a support package, which must never be instrumented itself.
-/

namespace ContractChecks

/-- the import path of the package that generated wrappers call into -/
def supportPath : Text := "github.com/cockroachdb/racgen/pkg/rac"

/-- the name under which wrappers refer to it -/
def supportName : Text := "rac"

/-- whether `pkg` is the package `path` or a vendored copy of it -/
def inPackage (pkg path : Text) : Bool :=
  pkg = path || pkg.endsWith ("/vendor/" ++ path)

end ContractChecks
