import ContractChecks.Report.Position

/-!
# The order of positions

`Text.le` is a linear order, and `Position.le` is total and transitive: sorting by positions gives a
sorted list.  Two positions with the same file and offset are not told apart.
-/

namespace ContractChecks

namespace Text

theorem le_total (s t : Text) : le s t = true ∨ le t s = true := by
  induction s generalizing t with
  | nil => exact .inl rfl
  | cons c s ih =>
    cases t with
    | nil => exact .inr rfl
    | cons d t =>
      by_cases h : c = d
      · subst h
        rw [le, le, if_pos rfl, if_pos rfl]
        exact ih t
      · have hne : c.toNat ≠ d.toNat := fun heq => h (Char.toNat_inj.1 heq)
        rw [le, le, if_neg h, if_neg (Ne.symm h), decide_eq_true_eq, decide_eq_true_eq]
        omega

theorem le_trans {s t u : Text} (hst : le s t = true) (htu : le t u = true) : le s u = true := by
  induction s generalizing t u with
  | nil => rfl
  | cons c s ih =>
    cases t with
    | nil => cases hst
    | cons d t =>
      cases u with
      | nil => cases htu
      | cons e u =>
        rw [le] at hst htu ⊢
        by_cases hcd : c = d
        · subst hcd
          rw [if_pos rfl] at hst
          by_cases hce : c = e
          · subst hce
            rw [if_pos rfl] at htu ⊢
            exact ih hst htu
          · rwa [if_neg hce] at htu ⊢
        · rw [if_neg hcd, decide_eq_true_eq] at hst
          by_cases hde : d = e
          · subst hde
            rw [if_neg hcd, decide_eq_true_eq]
            exact hst
          · rw [if_neg hde, decide_eq_true_eq] at htu
            have hce : c ≠ e := by
              rintro rfl
              omega
            rw [if_neg hce, decide_eq_true_eq]
            omega

theorem le_antisymm {s t : Text} (hst : le s t = true) (hts : le t s = true) : s = t := by
  induction s generalizing t with
  | nil =>
    cases t with
    | nil => rfl
    | cons d t => cases hts
  | cons c s ih =>
    cases t with
    | nil => cases hst
    | cons d t =>
      rw [le] at hst hts
      by_cases h : c = d
      · subst h
        rw [if_pos rfl] at hst hts
        rw [ih hst hts]
      · rw [if_neg h, decide_eq_true_eq] at hst
        rw [if_neg (Ne.symm h), decide_eq_true_eq] at hts
        omega

end Text

namespace Position

theorem le_refl (p : Position) : p.le p = true := by
  rw [le, if_pos rfl]
  exact decide_eq_true (Int.le_refl _)

theorem le_total (p q : Position) : p.le q = true ∨ q.le p = true := by
  unfold le
  by_cases h : p.file = q.file
  · rw [if_pos h, if_pos h.symm, decide_eq_true_eq, decide_eq_true_eq]
    exact Int.le_total _ _
  · rw [if_neg h, if_neg (Ne.symm h)]
    exact Text.le_total _ _

theorem le_trans {p q r : Position} (hpq : p.le q = true) (hqr : q.le r = true) :
    p.le r = true := by
  unfold le at *
  by_cases hfile : p.file = q.file
  · rw [if_pos hfile, decide_eq_true_eq] at hpq
    rw [hfile]
    split at hqr
    · rename_i hqr'
      rw [if_pos hqr', decide_eq_true_eq]
      exact Int.le_trans hpq (of_decide_eq_true hqr)
    · rename_i hqr'
      rwa [if_neg hqr']
  · rw [if_neg hfile] at hpq
    by_cases hfile' : q.file = r.file
    · rw [← hfile', if_neg hfile]
      exact hpq
    · rw [if_neg hfile'] at hqr
      -- the three files differ: the first and the last cannot be one with the middle between
      have hne : p.file ≠ r.file := fun h => hfile (Text.le_antisymm hpq (h ▸ hqr))
      rw [if_neg hne]
      exact Text.le_trans hpq hqr

end Position

/-- sorting by positions sorts -/
theorem pairwise_mergeSort_pos {α : Type} (pos : α → Position) (l : List α) :
    (l.mergeSort fun a b => (pos a).le (pos b)).Pairwise fun a b => (pos a).le (pos b) = true := by
  apply List.pairwise_mergeSort
  · intro a b c hab hbc
    exact Position.le_trans hab hbc
  · intro a b
    rw [Bool.or_eq_true]
    exact Position.le_total (pos a) (pos b)

end ContractChecks
