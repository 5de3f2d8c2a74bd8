import ContractChecks.Text.Quoted

/-!
# Visibility and instrumentation mode

A method belongs to one of four visibility tiers.  A mode says where checks are injected, and
whether the violations they raise are told apart by tier.
-/

namespace ContractChecks

/-- the four recognised tiers -/
inductive Tier where
  | pub
  | prot
  | pkg
  | priv
deriving DecidableEq, Repr

namespace Tier

/-- the word for a tier in directives and documentation -/
def text : Tier → Text
  | .pub => "public"
  | .prot => "protected"
  | .pkg => "default"
  | .priv => "private"

/-- from least (private) to most (public) visible -/
def rank : Tier → Nat
  | .priv => 0
  | .pkg => 1
  | .prot => 2
  | .pub => 3

/-- the word after the tier's name in a violation kind -/
def capital : Tier → Text
  | .pub => "Public"
  | .prot => "Protected"
  | .pkg => "Default"
  | .priv => "Private"

def code : Tier → Int
  | .pub => 1
  | .prot => 2
  | .pkg => 3
  | .priv => 4

def parse? (s : Text) : Option Tier :=
  if s = "public" then some .pub
  else if s = "protected" then some .prot
  else if s = "package" || s = "default" then some .pkg
  else if s = "private" then some .priv
  else none

end Tier

/-- a tier, or a number that stands for none -/
inductive Visibility where
  | of (tier : Tier)
  | unknown (code : Int)
deriving DecidableEq, Repr

namespace Visibility

def ofCode (n : Int) : Visibility :=
  if n = 1 then .of .pub
  else if n = 2 then .of .prot
  else if n = 3 then .of .pkg
  else if n = 4 then .of .priv
  else .unknown n

def code : Visibility → Int
  | .of t => t.code
  | .unknown n => n

def tier? : Visibility → Option Tier
  | .of t => some t
  | .unknown _ => none

def isValid (v : Visibility) : Bool := v.tier?.isSome

def text : Visibility → Text
  | .of t => t.text
  | .unknown n => "Visibility(" ++ Text.ofInt n ++ ")"

def rank : Visibility → Int
  | .of t => t.rank
  | .unknown _ => -1

end Visibility

inductive Mode where
  /-- checks wrap the execution of the method body -/
  | direct
  /-- checks wrap each call of the method -/
  | callSite
  /-- checks wrap each call, and violations are told apart by visibility -/
  | clientAware
deriving DecidableEq, Repr

namespace Mode

/-- every word but the names of the two call-site modes means direct checking -/
def parse (s : Text) : Mode :=
  if s = "callSite" then .callSite
  else if s = "clientAwareChecking" then .clientAware
  else .direct

def text : Mode → Text
  | .direct => "direct"
  | .callSite => "callSite"
  | .clientAware => "clientAwareChecking"

def ofCode (n : Int) : Mode :=
  if n = 1 then .callSite else if n = 2 then .clientAware else .direct

def code : Mode → Int
  | .direct => 0
  | .callSite => 1
  | .clientAware => 2

/-- whether checks are woven around calls rather than around the body -/
def wrapsCalls : Mode → Bool
  | .direct => false
  | _ => true

end Mode

end ContractChecks
