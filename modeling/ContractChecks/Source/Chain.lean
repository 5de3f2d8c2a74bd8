import ContractChecks.Source.Operator

/-!
# Chained comparisons

In `0 <= i < n` the right side of the first relation is a comparison again.  Such a chain around its
middle part stands for two comparisons, which can be written out and read again.

* `Comparison.text x`: the comparison written out, with a space on both sides of its relation;
* `relationCount s`: how often a relation can be cut off, each time from the right side of the last;
* `chain? v s`: the two comparisons that a chain around `v` stands for;
* `comparison?_lhs`, `comparison?_text`: what is read from the left side of a comparison, and from
  a comparison that is written out with this side;
* `relationCount_first`, `relationCount_second`: how many relations the two comparisons have.
-/

namespace ContractChecks

def Comparison.text (x : Comparison) : Text := x.lhs ++ " " ++ x.rel.text ++ " " ++ x.rhs

/-- how often a relation can be cut off, each time from the right side of the last one -/
def relationCount (s : Text) : Nat :=
  match _h : comparison? s with
  | some x => relationCount x.rhs + 1
  | none => 0
termination_by s.length
decreasing_by exact length_rhs_lt_of_comparison? _h

/-- the two comparisons that a chain around `v` stands for -/
def chain? (v s : Text) : Option (Comparison × Comparison) :=
  match comparison? s with
  | some x =>
    match comparison? x.rhs with
    | some y => if y.lhs = v then some (⟨x.lhs, x.rel, v⟩, y) else none
    | none => none
  | none => none

theorem relationCount_of_none {s : Text} (h : comparison? s = none) : relationCount s = 0 := by
  rw [relationCount]
  split
  · rename_i x hx
    rw [h] at hx
    cases hx
  · rfl

theorem relationCount_of_some {s : Text} {x : Comparison} (h : comparison? s = some x) :
    relationCount s = relationCount x.rhs + 1 := by
  rw [relationCount]
  split
  · rename_i y hy
    rw [h] at hy
    cases hy
    rfl
  · rename_i hnone
    rw [h] at hnone
    cases hnone

theorem chain?_eq_some {v s : Text} {a b : Comparison} (h : chain? v s = some (a, b)) :
    ∃ x, comparison? s = some x ∧ comparison? x.rhs = some b ∧ b.lhs = v ∧
      a = ⟨x.lhs, x.rel, v⟩ := by
  unfold chain? at h
  split at h
  case h_2 => cases h
  case h_1 x hx =>
    split at h
    case h_2 => cases h
    case h_1 y hy =>
      split at h
      · rename_i hv
        cases h
        exact ⟨x, hx, hy, hv, rfl⟩
      · cases h

theorem chain?_eq_none {s : Text} {x : Comparison} (hx : comparison? s = some x)
    (hrhs : comparison? x.rhs = none) (v : Text) : chain? v s = none := by
  simp only [chain?, hx, hrhs]

/-! ### the text before a relation -/

theorem not_relationSign_of_isBlank {c : Char} (hc : isBlank c = true) :
    (c = '<' || c = '>') = false := by
  cases hsign : (c = '<' || c = '>' : Bool) with
  | false => rfl
  | true =>
    simp only [Bool.or_eq_true, decide_eq_true_eq] at hsign
    rcases hsign with rfl | rfl <;> revert hc <;> decide

theorem cutRelationFrom_blank {c : Char} (hc : isBlank c = true) (st : Quoting) (depth : Int)
    (r : Text) : cutRelationFrom st depth (c :: r)
      = (cutRelationFrom (st.next c) depth r).map fun p => (c :: p.1, p.2) := by
  have hdepth : st.depthAfter depth c = depth := by
    rw [Quoting.depthAfter, (isInert_spec (isInert_of_isBlank hc)).2, Int.add_zero, ite_self]
  rw [cutRelationFrom_cons, hdepth]
  rw [not_relationSign_of_isBlank hc, Bool.and_false]

theorem cutRelationFrom_blanks {u : Text} (hu : ∀ c ∈ u, isBlank c = true) (r : Text) :
    cutRelationFrom .code 0 (u ++ r)
      = (cutRelationFrom .code 0 r).map fun p => (u ++ p.1, p.2) := by
  induction u with
  | nil => exact Option.map_id'.symm
  | cons c u ih =>
    rw [List.forall_mem_cons] at hu
    rw [List.cons_append, cutRelationFrom_blank hu.1,
      next_code (not_isQuoteMark_of_isBlank hu.1), ih hu.2, Option.map_map]
    rfl

/-- a relation with nothing but blanks before it: the scan stood outside brackets and literals -/
theorem code_of_cutRelationFrom {st : Quoting} (hst : st.Proper) {depth : Int} {s w b : Text}
    {rel : Relation} (hw : ∀ c ∈ w, isBlank c = true)
    (h : cutRelationFrom st depth s = some (w, rel, b)) : st = .code ∧ depth = 0 := by
  induction w generalizing st s with
  | nil =>
    cases s with
    | nil => cases h
    | cons c r =>
      cases hsign : (st = .code && depth = 0 && (c = '<' || c = '>') : Bool) with
      | true =>
        simp only [Bool.and_eq_true, decide_eq_true_eq] at hsign
        exact hsign.1
      | false =>
        rw [cutRelationFrom_cons hsign] at h
        obtain ⟨p, -, he⟩ := Option.map_eq_some_iff.1 h
        cases he
  | cons c w ih =>
    rw [List.forall_mem_cons] at hw
    rw [← cutRelationFrom_append h, List.cons_append, List.cons_append,
      cutRelationFrom_blank hw.1] at h
    obtain ⟨⟨x, q⟩, hp, he⟩ := Option.map_eq_some_iff.1 h
    cases he
    obtain ⟨hnext, hdepth⟩ := ih (hst.next c) hw.2 hp
    exact ⟨eq_code_of_next hst (not_isQuoteMark_of_isBlank hw.1) hnext, hdepth⟩

/-- a sign before a relation belongs to a shift or an arrow -/
theorem cutRelationFrom_pair {c : Char} (hc : (c = '<' || c = '>') = true) {r x b : Text}
    {rel : Relation} (h : cutRelationFrom .code 0 (c :: r) = some (c :: x, rel, b)) :
    ∃ d r' x', r = d :: r' ∧ x = d :: x' ∧ (d = c || (c = '<' && d = '-')) = true ∧
      cutRelationFrom .code 0 r' = some (x', rel, b) := by
  cases r with
  | nil =>
    simp only [Bool.or_eq_true, decide_eq_true_eq] at hc
    rcases hc with rfl | rfl <;> cases h
  | cons d r =>
    rw [cutRelationFrom, if_pos (by simpa using hc)] at h
    split at h
    case isTrue hpass =>
      obtain ⟨⟨x', q⟩, hp, he⟩ := Option.map_eq_some_iff.1 h
      cases he
      exact ⟨d, r, x', rfl, rfl, hpass, hp⟩
    case isFalse => split at h <;> cases h

/-- the text before a relation is passed over whatever follows it, also without the blanks at its
end -/
theorem cutRelationFrom_before {st : Quoting} (hst : st.Proper) {depth : Int} {s a w b : Text}
    {rel : Relation} (hw : ∀ c ∈ w, isBlank c = true)
    (h : cutRelationFrom st depth s = some (a ++ w, rel, b)) (t : Text) :
    cutRelationFrom st depth (a ++ t)
      = (cutRelationFrom .code 0 t).map fun p => (a ++ p.1, p.2) := by
  match a with
  | [] =>
    obtain ⟨rfl, rfl⟩ := code_of_cutRelationFrom hst hw h
    exact Option.map_id'.symm
  | c :: a =>
    have hs := cutRelationFrom_append h
    rw [List.cons_append, List.cons_append, List.cons_append] at hs
    rw [← hs] at h
    cases hsign : (st = .code && depth = 0 && (c = '<' || c = '>') : Bool) with
    | false =>
      rw [cutRelationFrom_cons hsign] at h
      obtain ⟨⟨x, q⟩, hp, he⟩ := Option.map_eq_some_iff.1 h
      rw [List.cons_append, Prod.mk.injEq, List.cons.injEq] at he
      obtain ⟨⟨-, rfl⟩, rfl⟩ := he
      rw [List.cons_append, cutRelationFrom_cons hsign,
        cutRelationFrom_before (hst.next c) hw hp t, Option.map_map]
      rfl
    | true =>
      rw [Bool.and_eq_true, Bool.and_eq_true, decide_eq_true_eq, decide_eq_true_eq] at hsign
      obtain ⟨⟨rfl, rfl⟩, hc⟩ := hsign
      obtain ⟨d, r, x, hr, hx, hpass, hp⟩ := cutRelationFrom_pair hc h
      -- the second sign is no blank, so it does not stand at the end that is left out
      have hd : isBlank d = false := by
        simp only [Bool.or_eq_true, Bool.and_eq_true, decide_eq_true_eq] at hc hpass
        rcases hpass with rfl | ⟨-, rfl⟩
        · rcases hc with rfl | rfl <;> decide
        · decide
      obtain ⟨a', rfl, rfl⟩ : ∃ a', a = d :: a' ∧ x = a' ++ w := by
        cases a with
        | nil =>
          have hwd : w = d :: x := hx
          rw [hw d (by rw [hwd]; exact List.mem_cons_self)] at hd
          cases hd
        | cons e a' =>
          obtain ⟨rfl, htail⟩ : e = d ∧ a' ++ w = x := List.cons.inj hx
          exact ⟨a', rfl, htail.symm⟩
      rw [List.cons_append, List.cons_append, cutRelationFrom, if_pos (by simpa using hc),
        if_pos hpass, cutRelationFrom_before hst hw hp t, Option.map_map]
      rfl
termination_by a.length

/-! ### comparisons written out -/

/-- the left side of a comparison is passed over, whatever follows it -/
theorem cutRelationFrom_lhs {s : Text} {x : Comparison} (h : comparison? s = some x) (t : Text) :
    cutRelationFrom .code 0 (x.lhs ++ t)
      = (cutRelationFrom .code 0 t).map fun p => (x.lhs ++ p.1, p.2) := by
  obtain ⟨⟨a, rel, b⟩, hp, rfl⟩ := Option.map_eq_some_iff.1 h
  obtain ⟨u, w, ha, hblank⟩ := trim_eq_append a
  rw [List.forall_mem_append] at hblank
  have hs := cutRelationFrom_append hp
  rw [ha, List.append_assoc, List.append_assoc] at hs
  rw [← hs, cutRelationFrom_blanks hblank.1] at hp
  obtain ⟨⟨a', q⟩, hp', he⟩ := Option.map_eq_some_iff.1 hp
  obtain ⟨ha', rfl⟩ := Prod.mk.inj he
  obtain rfl : a' = a.trim ++ w := List.append_cancel_left (ha'.trans ha)
  have hcode : Quoting.code.Proper := trivial
  exact cutRelationFrom_before hcode hblank.2 hp' t

/-- no relation is left on the left side of a comparison -/
theorem comparison?_lhs {s : Text} {x : Comparison} (h : comparison? s = some x) :
    comparison? x.lhs = none := by
  have hnone := cutRelationFrom_lhs h []
  rw [List.append_nil] at hnone
  rw [comparison?, hnone]
  rfl

theorem comparison?_trimmed {s : Text} {x : Comparison} (h : comparison? s = some x) :
    x.lhs.trim = x.lhs ∧ x.rhs.trim = x.rhs := by
  obtain ⟨⟨a, rel, b⟩, -, rfl⟩ := Option.map_eq_some_iff.1 h
  exact ⟨trim_trim a, trim_trim b⟩

/-- a comparison that is written out with the left side of another one is read as it is written -/
theorem comparison?_text {s : Text} {x : Comparison} (h : comparison? s = some x) (rhs : Text) :
    comparison? (Comparison.text ⟨x.lhs, x.rel, rhs⟩) = some ⟨x.lhs, x.rel, rhs.trim⟩ := by
  have hspace : isBlank ' ' = true := by decide
  have hsign : cutRelationFrom .code 0 (' ' :: (x.rel.text ++ ' ' :: rhs))
      = some ([' '], x.rel, ' ' :: rhs) := by
    cases x.rel <;> rfl
  have hcut := cutRelationFrom_lhs h (' ' :: (x.rel.text ++ ' ' :: rhs))
  rw [hsign] at hcut
  have htext : Comparison.text ⟨x.lhs, x.rel, rhs⟩ = x.lhs ++ ' ' :: (x.rel.text ++ ' ' :: rhs) := by
    simp [Comparison.text]
  rw [htext, comparison?, hcut]
  show some (Comparison.mk (x.lhs ++ [' ']).trim x.rel (Text.trim (' ' :: rhs))) = _
  rw [trim_append_blank hspace, trim_cons_blank hspace, (comparison?_trimmed h).1]

/-! ### the relations of a chain -/

section chain

variable {v s : Text} {a b : Comparison} (h : chain? v s = some (a, b))
include h

theorem comparison?_first : comparison? a.text = some a := by
  obtain ⟨x, hx, hb, rfl, rfl⟩ := chain?_eq_some h
  rw [comparison?_text hx, (comparison?_trimmed hb).1]

theorem comparison?_second : comparison? b.text = some b := by
  obtain ⟨x, hx, hb, -, -⟩ := chain?_eq_some h
  exact (comparison?_text hb b.rhs).trans (by rw [(comparison?_trimmed hb).2])

/-- the first comparison of a chain has one relation only -/
theorem comparison?_rhs_first : comparison? a.rhs = none := by
  obtain ⟨x, hx, hb, rfl, rfl⟩ := chain?_eq_some h
  exact comparison?_lhs hb

theorem relationCount_first : relationCount a.text = 1 := by
  rw [relationCount_of_some (comparison?_first h), relationCount_of_none (comparison?_rhs_first h)]

theorem relationCount_second : relationCount b.text + 1 = relationCount s := by
  obtain ⟨x, hx, hb, -, -⟩ := chain?_eq_some h
  rw [relationCount_of_some (comparison?_second h), relationCount_of_some hx,
    relationCount_of_some hb]

theorem relationCount_first_lt : relationCount a.text < relationCount s := by
  have hsecond := relationCount_of_some (comparison?_second h)
  rw [relationCount_first h, ← relationCount_second h]
  omega

theorem relationCount_second_lt : relationCount b.text < relationCount s :=
  Nat.lt_of_succ_le (Nat.le_of_eq (relationCount_second h))

end chain

end ContractChecks
