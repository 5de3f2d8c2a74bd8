import ContractChecks.Contract.Clause
import ContractChecks.Contract.Fault
import ContractChecks.Violation.Kind

/-!
# Classification

The violation that a failed check of a clause raises, by clause kind, visibility and mode.  The
visibility must be known in every mode, also where it makes no difference.
-/

namespace ContractChecks

/-- the violations raised by the checks of one method -/
structure ViolationFamily where
  precondition : ViolationKind
  normalPost : ViolationKind
  exceptionalPost : ViolationKind
deriving DecidableEq, Repr

namespace ViolationFamily

def ofTier (mode : Mode) (tier : Tier) : ViolationFamily :=
  match mode with
  | .clientAware => ⟨.entry tier, .exitNormal tier, .exitExceptional tier⟩
  | _ => ⟨.anyEntry, .anyNormal, .anyExceptional⟩

/-- the family of a visibility, which must be one of the four tiers -/
def ofVisibility (visibility : Visibility) (mode : Mode) : Except Fault ViolationFamily :=
  match visibility with
  | .of tier => .ok (ofTier mode tier)
  | .unknown n => .error (.unknownVisibility n)

end ViolationFamily

/-- the violation raised when a clause of the given kind fails -/
def classify (kind : ClauseKind) (visibility : Visibility) (mode : Mode) :
    Except Fault ViolationKind := do
  let family ← ViolationFamily.ofVisibility visibility mode
  match kind with
  | .precondition => .ok family.precondition
  | .normalPost => .ok family.normalPost
  | .exceptionalPost => .ok family.exceptionalPost
  | .unreachable => .ok .unreachable
  | .unknown _ => .error (.unsupported kind.text mode .classification)

end ContractChecks
