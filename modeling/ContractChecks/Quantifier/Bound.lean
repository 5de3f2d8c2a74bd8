import ContractChecks.Source.Chain
import ContractChecks.Source.Lexeme

/-!
# Bounds of a quantified variable

A conjunct of a range bounds a variable from below, from above, or on both sides when it is a
chained comparison such as `0 <= i < n`.

* `Bound`: the first value of the variable and the relation it must satisfy, either of which may
  be missing;
* `bound? v conjunct`: the bound that a conjunct puts on `v`; a chain is written out as the two
  comparisons that it stands for, which may be longer but have fewer relations;
* `chainBound?`: the same bound read from the parts of a comparison, where nothing is written out
  (`bound?_eq_chainBound?`).
-/

namespace ContractChecks

structure Bound where
  /-- the first value of the variable -/
  lower : Option Text := none
  /-- the relation to an upper limit that the variable must satisfy -/
  upper : Option (Relation × Text) := none
deriving DecidableEq, Repr

namespace Bound

/-- the texts of the limits, for looking up names in them -/
def text (b : Bound) : Text :=
  b.lower.getD [] ++ " " ++ (b.upper.map Prod.snd).getD []

end Bound

def isNumeral (s : Text) : Bool := s != [] && s.all fun c => '0' ≤ c && c ≤ '9'

def firstValue (limit : Text) (strict : Bool) : Text :=
  if !strict then limit
  else if isName limit || isNumeral limit then limit ++ " + 1"
  else "(" ++ limit ++ ") + 1"

def lowerBound (limit : Text) (strict : Bool) : Bound :=
  let first := firstValue limit strict
  if first = [] then {} else { lower := some first }

def upperBound (rel : Relation) (limit : Text) : Bound :=
  if limit = [] then {} else { upper := some (rel, limit) }

/-- the bound that a single comparison puts on `v` -/
def simpleBound? (v lhs : Text) (rel : Relation) (rhs : Text) : Option Bound :=
  if lhs = v then
    some (if rel.upward then upperBound rel rhs else lowerBound rhs rel.strict)
  else if rhs = v then
    some (if rel.upward then lowerBound lhs rel.strict else upperBound rel.flip lhs)
  else none

/-- the lower limit of one bound with the upper limit of another -/
def Bound.between? : Option Bound → Option Bound → Option Bound
  | some a, some b => some { lower := a.lower, upper := b.upper }
  | _, _ => none

/-- the bound that a conjunct puts on `v` -/
def bound? (v conjunct : Text) : Option Bound :=
  match _h : chain? v conjunct with
  | some (a, b) => Bound.between? (bound? v a.text) (bound? v b.text)
  | none =>
    match comparison? conjunct with
    | some x => simpleBound? v x.lhs x.rel x.rhs
    | none => none
termination_by relationCount conjunct
decreasing_by
  · exact relationCount_first_lt _h
  · exact relationCount_second_lt _h

/-- the bound that a comparison, perhaps a chained one, puts on `v` -/
def chainBound? (v lhs : Text) (rel : Relation) (rhs : Text) : Option Bound :=
  match _h : comparison? rhs with
  | some x =>
    if x.lhs = v then
      match simpleBound? v lhs rel v, chainBound? v v x.rel x.rhs with
      | some a, some b => some { lower := a.lower, upper := b.upper }
      | _, _ => none
    else simpleBound? v lhs rel rhs
  | none => simpleBound? v lhs rel rhs
termination_by rhs.length
decreasing_by exact length_rhs_lt_of_comparison? _h

theorem chainBound?_of_none {rhs : Text} (h : comparison? rhs = none) (v lhs : Text)
    (rel : Relation) : chainBound? v lhs rel rhs = simpleBound? v lhs rel rhs := by
  rw [chainBound?]
  split
  · rename_i x hx
    rw [h] at hx
    cases hx
  · rfl

theorem chainBound?_of_some {rhs : Text} {x : Comparison} (h : comparison? rhs = some x)
    (v lhs : Text) (rel : Relation) : chainBound? v lhs rel rhs
      = if x.lhs = v then
          Bound.between? (simpleBound? v lhs rel v) (chainBound? v v x.rel x.rhs)
        else simpleBound? v lhs rel rhs := by
  rw [chainBound?]
  split
  · rename_i y hy
    rw [h] at hy
    cases hy
    rfl
  · rename_i hnone
    rw [h] at hnone
    cases hnone

/-- comparisons that are written out are read again as they were -/
theorem bound?_eq_chainBound? (v conjunct : Text) :
    bound? v conjunct
      = match comparison? conjunct with
        | some x => chainBound? v x.lhs x.rel x.rhs
        | none => none := by
  fun_induction bound? v conjunct with
  | case1 s a b h iha ihb =>
    obtain ⟨x, hx, hb, hv, ha⟩ := chain?_eq_some h
    rw [iha, ihb, comparison?_first h, comparison?_second h, hx]
    have hfirst := chainBound?_of_none (comparison?_rhs_first h) v a.lhs a.rel
    show Bound.between? (chainBound? v a.lhs a.rel a.rhs) (chainBound? v b.lhs b.rel b.rhs)
      = chainBound? v x.lhs x.rel x.rhs
    rw [hfirst, chainBound?_of_some hb, if_pos hv, hv, ha]
  | case2 s h x hx =>
    rw [hx]
    -- the right side is no comparison with `v` on its left
    cases hy : comparison? x.rhs with
    | none => exact (chainBound?_of_none hy v x.lhs x.rel).symm
    | some y =>
      have hv : y.lhs ≠ v := by
        intro hv
        simp only [chain?, hx, hy, if_pos hv] at h
        cases h
      exact ((chainBound?_of_some hy v x.lhs x.rel).trans (if_neg hv)).symm
  | case3 s h hx => rw [hx]

/-! ### bounds for the variables of a quantifier -/

/-- a conjunct of a range, and whether it has served as a bound -/
structure Conjunct where
  text : Text
  used : Bool := false
deriving DecidableEq, Repr

/-- whether some of the names occur in the text -/
def referencesAny (s : Text) (names : List Text) : Bool := names.any (references s)

/-- the bound found so far together with the one of a conjunct; whatever is already there stays -/
def Bound.orElse (found new : Bound) : Bound where
  lower := found.lower.or new.lower
  upper := found.upper.or new.upper

/-- whether `new` has a limit that is still missing in `found` -/
def Bound.completes (found new : Bound) : Bool :=
  (found.lower.isNone && new.lower.isSome) || (found.upper.isNone && new.upper.isSome)

/-- looks for the bounds of `v` in a list of conjuncts; limits may not refer to the variables
`unbound`.  Returns the bound and the conjuncts with those it took marked as used. -/
def findBound (v : Text) (unbound : List Text) (found : Bound) :
    List Conjunct → Bound × List Conjunct
  | [] => (found, [])
  | c :: cs =>
    match bound? v c.text with
    | none =>
      let p := findBound v unbound found cs
      (p.1, c :: p.2)
    | some b =>
      if referencesAny b.text unbound then
        let p := findBound v unbound found cs
        (p.1, c :: p.2)
      else
        let p := findBound v unbound (found.orElse b) cs
        (p.1, { c with used := c.used || found.completes b } :: p.2)

theorem texts_findBound (v : Text) (unbound : List Text) (found : Bound) (cs : List Conjunct) :
    (findBound v unbound found cs).2.map Conjunct.text = cs.map Conjunct.text := by
  induction cs generalizing found with
  | nil => rfl
  | cons c cs ih =>
    simp only [findBound]
    split
    · simp [ih]
    · split
      · simp [ih]
      · simp [ih]

end ContractChecks
