import ContractChecks.Text.Blank

/-!
# Predicates

A predicate is the text of a boolean expression.  `assertable p` is false exactly for the
predicates that can never fail: the blank text and the constant true, in any number of
parentheses.
-/

namespace ContractChecks

/-- whether parentheses are balanced in a text that starts at depth `depth` -/
def parensBalancedFrom (depth : Nat) : Text → Bool
  | [] => depth = 0
  | c :: r =>
    if c = '(' then parensBalancedFrom (depth + 1) r
    else if c = ')' then
      match depth with
      | 0 => false
      | d + 1 => parensBalancedFrom d r
    else parensBalancedFrom depth r

def parensBalanced (s : Text) : Bool := parensBalancedFrom 0 s

/-- what stands between the enclosing parentheses of a text, if it has a pair that belongs
together with something in between -/
def insideParens? : Text → Option Text
  | [] => none
  | c :: r =>
    if c = '(' && 2 ≤ r.length && r.getLast? = some ')' && parensBalanced r.dropLast then
      some r.dropLast
    else none

theorem length_insideParens? {s t : Text} (h : insideParens? s = some t) :
    t.length < s.length := by
  cases s with
  | nil => simp [insideParens?] at h
  | cons c r =>
    simp only [insideParens?] at h
    split at h
    · simp only [Option.some.injEq] at h
      subst h
      simp only [List.length_dropLast, List.length_cons]
      omega
    · simp at h

/-- a text without its enclosing parentheses and the blanks inside them -/
def stripParens (s : Text) : Text :=
  match _h : insideParens? s with
  | none => s
  | some t => stripParens t.trim
termination_by s.length
decreasing_by
  have h1 := length_insideParens? _h
  have h2 := Text.length_trim_le t
  omega

/-- whether the predicate can fail -/
def assertable (p : Text) : Bool :=
  let s := stripParens p.trim
  s != [] && s != ("true" : Text)

end ContractChecks
