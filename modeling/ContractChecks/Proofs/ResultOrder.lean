import Mathlib.Order.Defs.Unbundled
import ContractChecks.Proofs.PositionOrder
import ContractChecks.Report.Result

/-!
# The order of results

Results are compared by file, by the difference of their offsets, by producer and by reason.

* `Finding.le_total`, `Finding.le_trans`: sorting findings gives a sorted list;
* `Finding.eq_of_le_of_le`: findings that are not told apart agree in all that is compared;
* `Finding.less`: the comparison with machine words in place of integers; `Finding.less_eq`: it is the
  same for offsets that a file can have;
* `isStrictWeakOrder_less`: it is a strict weak order.
-/

namespace ContractChecks

namespace Position

/-- positions are told apart by what they are ordered by -/
theorem eq_of_le_of_le {p q : Position} (hpq : p.le q = true) (hqp : q.le p = true) :
    p.file = q.file ∧ p.offset = q.offset := by
  unfold le at hpq hqp
  by_cases hfile : p.file = q.file
  · rw [if_pos hfile, decide_eq_true_eq] at hpq
    rw [if_pos hfile.symm, decide_eq_true_eq] at hqp
    exact ⟨hfile, Int.le_antisymm hpq hqp⟩
  · rw [if_neg hfile] at hpq
    rw [if_neg (Ne.symm hfile)] at hqp
    exact absurd (Text.le_antisymm hpq hqp) hfile

theorem le_congr {p p' q q' : Position} (hp : p.file = p'.file ∧ p.offset = p'.offset)
    (hq : q.file = q'.file ∧ q.offset = q'.offset) : p.le q = p'.le q' := by
  unfold le
  rw [hp.1, hp.2, hq.1, hq.2]

/-- the offsets that a file can have -/
def InFile (p : Position) : Prop := 0 ≤ p.offset ∧ p.offset < 0x8000000000000000

instance (p : Position) : Decidable p.InFile :=
  inferInstanceAs (Decidable (0 ≤ p.offset ∧ p.offset < 0x8000000000000000))

end Position

namespace Finding

variable {a b c : Finding}

/-- the findings stand at one place -/
def SamePlace (a b : Finding) : Prop := a.pos.file = b.pos.file ∧ a.pos.offset = b.pos.offset

theorem le_of_samePlace (h : a.SamePlace b) : a.le b
    = if a.producer = b.producer then a.reason.le b.reason else a.producer.le b.producer := by
  unfold le
  rw [if_pos]
  rw [Bool.and_eq_true, decide_eq_true_eq, decide_eq_true_eq]
  exact h

theorem le_of_not_samePlace (h : ¬a.SamePlace b) : a.le b = a.pos.le b.pos := by
  unfold le
  rw [if_neg]
  rw [Bool.and_eq_true, decide_eq_true_eq, decide_eq_true_eq]
  exact h

theorem pos_le_of_le (h : a.le b = true) : a.pos.le b.pos = true := by
  by_cases hplace : a.SamePlace b
  · rw [Position.le_congr hplace ⟨rfl, rfl⟩]
    exact Position.le_refl _
  · rwa [le_of_not_samePlace hplace] at h

theorem le_total (a b : Finding) : a.le b = true ∨ b.le a = true := by
  by_cases hplace : a.SamePlace b
  · rw [le_of_samePlace hplace, le_of_samePlace ⟨hplace.1.symm, hplace.2.symm⟩]
    by_cases hproducer : a.producer = b.producer
    · rw [if_pos hproducer, if_pos hproducer.symm]
      exact Text.le_total _ _
    · rw [if_neg hproducer, if_neg (Ne.symm hproducer)]
      exact Text.le_total _ _
  · have hplace' : ¬b.SamePlace a := fun h => hplace ⟨h.1.symm, h.2.symm⟩
    rw [le_of_not_samePlace hplace, le_of_not_samePlace hplace']
    exact Position.le_total _ _

theorem le_trans (hab : a.le b = true) (hbc : b.le c = true) : a.le c = true := by
  by_cases hac : a.SamePlace c
  · -- what stands between two findings at one place stands there too
    have hb : a.SamePlace b := by
      refine Position.eq_of_le_of_le (pos_le_of_le hab) ?_
      rw [Position.le_congr ⟨rfl, rfl⟩ hac]
      exact pos_le_of_le hbc
    have hbc' : b.SamePlace c := ⟨hb.1.symm.trans hac.1, hb.2.symm.trans hac.2⟩
    rw [le_of_samePlace hb] at hab
    rw [le_of_samePlace hbc'] at hbc
    rw [le_of_samePlace hac]
    by_cases h₁ : a.producer = b.producer
    · rw [if_pos h₁] at hab
      by_cases h₂ : b.producer = c.producer
      · rw [if_pos h₂] at hbc
        rw [if_pos (h₁.trans h₂)]
        exact Text.le_trans hab hbc
      · rw [if_neg h₂] at hbc
        rwa [h₁, if_neg h₂]
    · rw [if_neg h₁] at hab
      by_cases h₂ : b.producer = c.producer
      · rwa [← h₂, if_neg h₁]
      · rw [if_neg h₂] at hbc
        have h₃ : a.producer ≠ c.producer := fun h => h₁ (Text.le_antisymm hab (h ▸ hbc))
        rw [if_neg h₃]
        exact Text.le_trans hab hbc
  · rw [le_of_not_samePlace hac]
    exact Position.le_trans (pos_le_of_le hab) (pos_le_of_le hbc)

theorem eq_of_le_of_le (hab : a.le b = true) (hba : b.le a = true) :
    a.SamePlace b ∧ a.producer = b.producer ∧ a.reason = b.reason := by
  have hplace : a.SamePlace b := Position.eq_of_le_of_le (pos_le_of_le hab) (pos_le_of_le hba)
  rw [le_of_samePlace hplace] at hab
  rw [le_of_samePlace ⟨hplace.1.symm, hplace.2.symm⟩] at hba
  by_cases hproducer : a.producer = b.producer
  · rw [if_pos hproducer] at hab
    rw [if_pos hproducer.symm] at hba
    exact ⟨hplace, hproducer, Text.le_antisymm hab hba⟩
  · rw [if_neg hproducer] at hab
    rw [if_neg (Ne.symm hproducer)] at hba
    exact absurd (Text.le_antisymm hab hba) hproducer

/-! ### machine words -/

def offsetDifference (a b : Int) : Int := (a - b).bmod 0x10000000000000000

/-- whether a finding comes before another, decided with machine words -/
def less (a b : Finding) : Bool :=
  if a.pos.file ≠ b.pos.file then !b.pos.file.le a.pos.file
  else if offsetDifference a.pos.offset b.pos.offset ≠ 0 then
    offsetDifference a.pos.offset b.pos.offset < 0
  else if a.producer ≠ b.producer then !b.producer.le a.producer
  else !b.reason.le a.reason

theorem offsetDifference_eq (ha : a.pos.InFile) (hb : b.pos.InFile) :
    offsetDifference a.pos.offset b.pos.offset = a.pos.offset - b.pos.offset := by
  obtain ⟨ha₀, ha₁⟩ := ha
  obtain ⟨hb₀, hb₁⟩ := hb
  refine Int.bmod_eq_of_le_mul_two ?_ ?_
  · omega
  · omega

theorem less_eq (ha : a.pos.InFile) (hb : b.pos.InFile) : a.less b = !b.le a := by
  unfold less
  rw [offsetDifference_eq ha hb]
  by_cases hfile : a.pos.file = b.pos.file
  · rw [if_neg fun h => h hfile]
    by_cases hoffset : a.pos.offset = b.pos.offset
    · rw [if_neg (by omega), le_of_samePlace ⟨hfile.symm, hoffset.symm⟩]
      by_cases hproducer : a.producer = b.producer
      · rw [if_neg fun h => h hproducer, if_pos hproducer.symm]
      · rw [if_pos hproducer, if_neg (Ne.symm hproducer)]
    · rw [if_pos (by omega), le_of_not_samePlace fun h => hoffset h.2.symm, Position.le,
        if_pos hfile.symm, ← decide_not, decide_eq_decide]
      omega
  · rw [if_pos hfile, le_of_not_samePlace fun h => hfile h.1.symm, Position.le,
      if_neg (Ne.symm hfile)]

/-- the order in which results are sorted, on findings with offsets that a file can have -/
theorem isStrictWeakOrder_less :
    IsStrictWeakOrder { f : Finding // f.pos.InFile } fun a b => a.1.less b.1 = true where
  irrefl a h := by
    rw [less_eq a.2 a.2, Bool.not_eq_true', ← Bool.not_eq_true] at h
    exact h ((le_total a.1 a.1).elim id id)
  trans a b c hab hbc := by
    rw [less_eq a.2 b.2, Bool.not_eq_true', ← Bool.not_eq_true] at hab
    rw [less_eq b.2 c.2, Bool.not_eq_true', ← Bool.not_eq_true] at hbc
    rw [less_eq a.2 c.2, Bool.not_eq_true', ← Bool.not_eq_true]
    intro hca
    have hbc' := (le_total b.1 c.1).resolve_right hbc
    exact hab (le_trans hbc' hca)
  incomp_trans a b c hab hbc := by
    simp only [less_eq a.2 b.2, less_eq b.2 a.2, less_eq b.2 c.2, less_eq c.2 b.2, less_eq a.2 c.2,
      less_eq c.2 a.2, Bool.not_eq_true', Bool.not_eq_false] at *
    exact ⟨le_trans hbc.1 hab.1, le_trans hab.2 hbc.2⟩

end Finding

end ContractChecks
