import ContractChecks.Contract.Context

/-!
# Kinds of violation

There is one kind for each clause kind and visibility tier under client-aware checking, one for
each clause kind in all other modes, and one for code that was declared to be unreachable.
-/

namespace ContractChecks

inductive ViolationKind where
  | entry (tier : Tier)
  | exitNormal (tier : Tier)
  | exitExceptional (tier : Tier)
  /-- a precondition, whatever the tier -/
  | anyEntry
  /-- a normal postcondition, whatever the tier -/
  | anyNormal
  /-- an exceptional postcondition, whatever the tier -/
  | anyExceptional
  | unreachable
  /-- a number that stands for no kind -/
  | unknown (code : Int)
deriving DecidableEq, Repr

namespace ViolationKind

/-- the name by which generated code refers to the kind -/
def text : ViolationKind → Text
  | .entry t => "Entry" ++ t.capital ++ "Precondition"
  | .exitNormal t => "Exit" ++ t.capital ++ "NormalPostcondition"
  | .exitExceptional t => "Exit" ++ t.capital ++ "ExceptionalPostcondition"
  | .anyEntry => "InternalPrecondition"
  | .anyNormal => "ExitNormalPostcondition"
  | .anyExceptional => "ExitExceptionalPostcondition"
  | .unreachable => "Unreachable"
  | .unknown n => "Kind(" ++ Text.ofInt n ++ ")"

def code : ViolationKind → Int
  | .entry t => t.code
  | .exitNormal t => 4 + t.code
  | .exitExceptional t => 8 + t.code
  | .anyEntry => 13
  | .anyNormal => 14
  | .anyExceptional => 15
  | .unreachable => 16
  | .unknown n => n

/-- all kinds but the unknown ones -/
def all : List ViolationKind :=
  [.entry .pub, .entry .prot, .entry .pkg, .entry .priv,
   .exitNormal .pub, .exitNormal .prot, .exitNormal .pkg, .exitNormal .priv,
   .exitExceptional .pub, .exitExceptional .prot, .exitExceptional .pkg, .exitExceptional .priv,
   .anyEntry, .anyNormal, .anyExceptional, .unreachable]

def ofCode (n : Int) : ViolationKind := (all.find? fun k => k.code = n).getD (.unknown n)

def isValid : ViolationKind → Bool
  | .unknown _ => false
  | _ => true

def isEntry : ViolationKind → Bool
  | .entry _ => true
  | .anyEntry => true
  | _ => false

end ViolationKind

end ContractChecks
