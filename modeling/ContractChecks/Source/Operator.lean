import ContractChecks.Source.Literal
import ContractChecks.Text.Blank

/-!
# Operators

Relations and assignments are found outside brackets and literals.

* `comparison? s`: `s` cut at its first relation (`<`, `<=`, `>`, `>=`), where shifts and channel
  arrows are passed over; both sides are trimmed;
* `assignment? s`: `s` cut at its first assignment sign, where `==`, `!=`, `<=` and `>=` are
  passed over and the colon of `:=` belongs to the sign; both sides are trimmed.
-/

namespace ContractChecks

inductive Relation where
  | lt
  | le
  | gt
  | ge
deriving DecidableEq, Repr

namespace Relation

def text : Relation → Text
  | .lt => "<"
  | .le => "<="
  | .gt => ">"
  | .ge => ">="

/-- the relation with its sides exchanged -/
def flip : Relation → Relation
  | .lt => .gt
  | .le => .ge
  | .gt => .lt
  | .ge => .le

/-- whether equal values stand outside the relation -/
def strict : Relation → Bool
  | .lt => true
  | .gt => true
  | _ => false

/-- whether the left side is the smaller one -/
def upward : Relation → Bool
  | .lt => true
  | .le => true
  | _ => false

end Relation

/-- a text cut in three at a relation -/
structure Comparison where
  lhs : Text
  rel : Relation
  rhs : Text
deriving DecidableEq, Repr

def cutRelationFrom (st : Quoting) (depth : Int) : Text → Option (Text × Relation × Text)
  | [] => none
  | [c] =>
    if st = .code && depth = 0 then
      if c = '<' then some ([], .lt, []) else if c = '>' then some ([], .gt, []) else none
    else none
  | c :: d :: r =>
    if st = .code && depth = 0 && (c = '<' || c = '>') then
      if d = c || (c = '<' && d = '-') then
        (cutRelationFrom .code 0 r).map fun p => (c :: d :: p.1, p.2)
      else if d = '=' then some ([], if c = '<' then .le else .ge, r)
      else some ([], if c = '<' then .lt else .gt, d :: r)
    else
      (cutRelationFrom (st.next c) (st.depthAfter depth c) (d :: r)).map fun p => (c :: p.1, p.2)

/-- `s` cut at its first relation outside brackets and literals -/
def comparison? (s : Text) : Option Comparison :=
  (cutRelationFrom .code 0 s).map fun p => ⟨p.1.trim, p.2.1, p.2.2.trim⟩

theorem cutRelationFrom_append {st : Quoting} {depth : Int} {s a b : Text} {rel : Relation}
    (h : cutRelationFrom st depth s = some (a, rel, b)) : a ++ rel.text ++ b = s := by
  fun_induction cutRelationFrom st depth s generalizing a rel b with
  | case1 => simp at h
  | case2 =>
    simp at h
    obtain ⟨rfl, rfl, rfl⟩ := h
    simp [Relation.text]
  | case3 =>
    simp at h
    obtain ⟨rfl, rfl, rfl⟩ := h
    simp [Relation.text]
  | case4 => simp at h
  | case5 => simp at h
  | case6 st depth c d r h1 h2 ih =>
    obtain ⟨⟨x, y, z⟩, hp, he⟩ := Option.map_eq_some_iff.1 h
    simp only [Prod.mk.injEq] at he
    obtain ⟨ha, rfl, rfl⟩ := he
    simpa [← ha] using ih hp
  | case7 st depth c r h1 h2 =>
    simp only [Option.some.injEq, Prod.mk.injEq] at h
    obtain ⟨rfl, rfl, rfl⟩ := h
    split <;> simp_all [Relation.text]
  | case8 st depth c d r h1 h2 h3 =>
    simp only [Option.some.injEq, Prod.mk.injEq] at h
    obtain ⟨rfl, rfl, rfl⟩ := h
    split <;> simp_all [Relation.text]
  | case9 st depth c d r h1 ih =>
    obtain ⟨⟨x, y, z⟩, hp, he⟩ := Option.map_eq_some_iff.1 h
    simp only [Prod.mk.injEq] at he
    obtain ⟨ha, rfl, rfl⟩ := he
    simpa [← ha] using ih hp

/-- a character that is no relation sign outside brackets and literals is passed over -/
theorem cutRelationFrom_cons {st : Quoting} {depth : Int} {c : Char}
    (h : (st = .code && depth = 0 && (c = '<' || c = '>')) = false) (r : Text) :
    cutRelationFrom st depth (c :: r)
      = (cutRelationFrom (st.next c) (st.depthAfter depth c) r).map fun p => (c :: p.1, p.2) := by
  cases r with
  | nil =>
    have hnone : cutRelationFrom st depth [c] = none := by
      rw [cutRelationFrom]
      by_cases hcode : (st = .code && depth = 0) = true
      · rw [hcode, Bool.true_and, Bool.or_eq_false_iff, decide_eq_false_iff_not,
          decide_eq_false_iff_not] at h
        rw [if_pos hcode, if_neg h.1, if_neg h.2]
      · rw [if_neg hcode]
    rw [hnone, cutRelationFrom]
    rfl
  | cons d r =>
    rw [cutRelationFrom, h]
    rfl

/-- the right side of a comparison is shorter than the text -/
theorem length_rhs_lt_of_comparison? {s : Text} {x : Comparison} (h : comparison? s = some x) :
    x.rhs.length < s.length := by
  obtain ⟨⟨a, rel, b⟩, hp, rfl⟩ := Option.map_eq_some_iff.1 h
  have h1 := congrArg List.length (cutRelationFrom_append hp)
  have h2 := Text.length_trim_le b
  have h3 : 0 < rel.text.length := by cases rel <;> decide
  simp only [List.length_append] at h1
  show b.trim.length < s.length
  omega

/-- the raw cut at the first assignment sign; `last` is the character before the text -/
def cutAssignFrom (st : Quoting) (depth : Int) (last : Option Char) : Text → Option (Text × Text)
  | [] => none
  | [c] =>
    if st = .code && depth = 0 && c = '='
        && !(last.any fun p => p = '=' || p = '!' || p = '<' || p = '>') then
      some ([], [])
    else none
  | c :: d :: r =>
    if st = .code && depth = 0 && c = '=' then
      if d = '=' then (cutAssignFrom .code 0 (some d) r).map fun p => (c :: d :: p.1, p.2)
      else if last.any fun p => p = '=' || p = '!' || p = '<' || p = '>' then
        (cutAssignFrom .code 0 (some c) (d :: r)).map fun p => (c :: p.1, p.2)
      else some ([], d :: r)
    else
      (cutAssignFrom (st.next c) (st.depthAfter depth c) (some c) (d :: r)).map fun p =>
        (c :: p.1, p.2)

/-- `s` cut at its first assignment sign outside brackets and literals -/
def assignment? (s : Text) : Option (Text × Text) :=
  (cutAssignFrom .code 0 none s).map fun p =>
    ((Text.dropEnd ":" p.1).trim, p.2.trim)

end ContractChecks
