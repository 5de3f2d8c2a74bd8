import ContractChecks.Proofs.PaddedWords

/-!
# Predicates that never fail

A predicate is looked at only as a text.  It counts as one that cannot fail if it is blank or the
constant true, possibly in parentheses, and blanks can stand everywhere outside the constant.

* `NeverFails p`: the least set of texts with these members;
* `CanBeLeftOut s`: `s` does not change whether the parentheses around it are balanced;
  `NeverFails.canBeLeftOut`: this is so for predicates that never fail;
* `stripParens_parens`, `stripParens_of_none`: which parentheses are taken off;
* `assertable_parens`: parentheses do not change whether a predicate can fail, not even if it is
  not balanced;
* `assertable_laws`: the predicates without an assertion are those that never fail.
-/

namespace ContractChecks

inductive NeverFails : Text → Prop
  | blank {u : Text} (hu : ∀ c ∈ u, isBlank c = true) : NeverFails u
  | constant {u v : Text} (hu : ∀ c ∈ u, isBlank c = true) (hv : ∀ c ∈ v, isBlank c = true) :
      NeverFails (u ++ (("true" : Text) ++ v))
  | parens {u q v : Text} (hu : ∀ c ∈ u, isBlank c = true) (hv : ∀ c ∈ v, isBlank c = true)
      (hne : q ≠ []) (hq : NeverFails q) : NeverFails (u ++ ('(' :: (q ++ [')']) ++ v))

theorem NeverFails.pad {u q v : Text} (hu : ∀ c ∈ u, isBlank c = true)
    (hv : ∀ c ∈ v, isBlank c = true) (h : NeverFails q) : NeverFails (u ++ (q ++ v)) := by
  have hboth : ∀ {s t : Text}, (∀ c ∈ s, isBlank c = true) → (∀ c ∈ t, isBlank c = true) →
      ∀ c ∈ s ++ t, isBlank c = true := fun hs ht => List.forall_mem_append.2 ⟨hs, ht⟩
  cases h with
  | blank hq => exact .blank (hboth hu (hboth hq hv))
  | @constant x y hx hy =>
    have h := NeverFails.constant (hboth hu hx) (hboth hy hv)
    simpa only [List.append_assoc] using h
  | @parens x q y hx hy hne hq =>
    have h := NeverFails.parens (hboth hu hx) (hboth hy hv) hne hq
    simpa only [List.append_assoc] using h

theorem NeverFails.of_trim {p : Text} (h : NeverFails p.trim) : NeverFails p := by
  obtain ⟨u, v, hp, hblank⟩ := trim_eq_append p
  rw [List.forall_mem_append] at hblank
  rw [hp]
  exact h.pad hblank.1 hblank.2

/-! ### balance -/

/-- the parentheses of the text are balanced by themselves -/
def CanBeLeftOut (s : Text) : Prop :=
  ∀ depth t, parensBalancedFrom depth (s ++ t) = parensBalancedFrom depth t

theorem canBeLeftOut_of_plain {s : Text} (h : ∀ c ∈ s, c ≠ '(' ∧ c ≠ ')') : CanBeLeftOut s := by
  intro depth t
  induction s with
  | nil => rfl
  | cons c s ih =>
    obtain ⟨hopen, hclose⟩ := h c List.mem_cons_self
    rw [List.cons_append, parensBalancedFrom.eq_def]
    simp only [hopen, hclose, if_false]
    exact ih fun d hd => h d (List.mem_cons_of_mem c hd)

theorem canBeLeftOut_of_blank {u : Text} (hu : ∀ c ∈ u, isBlank c = true) : CanBeLeftOut u := by
  refine canBeLeftOut_of_plain fun c hc => ⟨?_, ?_⟩
  all_goals
    rintro rfl
    exact absurd (hu _ hc) (by decide)

theorem CanBeLeftOut.append {s t : Text} (hs : CanBeLeftOut s) (ht : CanBeLeftOut t) :
    CanBeLeftOut (s ++ t) := by
  intro depth r
  rw [List.append_assoc, hs, ht]

theorem CanBeLeftOut.parens {s : Text} (hs : CanBeLeftOut s) :
    CanBeLeftOut ('(' :: (s ++ [')'])) := by
  intro depth t
  show parensBalancedFrom (depth + 1) (s ++ [')'] ++ t) = _
  rw [List.append_assoc, hs]
  rfl

theorem CanBeLeftOut.balanced {s : Text} (hs : CanBeLeftOut s) : parensBalanced s = true := by
  have hnil := hs 0 []
  rw [List.append_nil] at hnil
  exact hnil

theorem NeverFails.canBeLeftOut {p : Text} (h : NeverFails p) : CanBeLeftOut p := by
  induction h with
  | blank hu => exact canBeLeftOut_of_blank hu
  | constant hu hv =>
    have htrue : CanBeLeftOut "true" := canBeLeftOut_of_plain (by simp)
    exact (canBeLeftOut_of_blank hu).append (htrue.append (canBeLeftOut_of_blank hv))
  | parens hu hv _ _ ih =>
    exact (canBeLeftOut_of_blank hu).append (ih.parens.append (canBeLeftOut_of_blank hv))

/-! ### parentheses that are taken off -/

theorem insideParens?_parens (t : Text) :
    insideParens? ('(' :: (t ++ [')']))
      = if t ≠ [] ∧ parensBalanced t = true then some t else none := by
  have hlen : 1 ≤ t.length ↔ ¬t = [] := List.length_pos_iff
  rw [insideParens?, List.getLast?_concat, List.dropLast_concat]
  simp [hlen]

theorem stripParens_of_none {s : Text} (h : insideParens? s = none) : stripParens s = s := by
  rw [stripParens]
  split
  case h_1 => rfl
  case h_2 t hin =>
    rw [h] at hin
    cases hin

theorem stripParens_parens {t : Text} (hne : t ≠ []) (ht : parensBalanced t = true) :
    stripParens ('(' :: (t ++ [')'])) = stripParens t.trim := by
  have hin : insideParens? ('(' :: (t ++ [')'])) = some t := by
    rw [insideParens?_parens, if_pos ⟨hne, ht⟩]
  rw [stripParens]
  split
  case h_1 hnone =>
    rw [hin] at hnone
    cases hnone
  case h_2 t' hsome =>
    rw [hin] at hsome
    cases hsome
    rfl

theorem trim_parens (t : Text) : Text.trim ('(' :: (t ++ [')'])) = '(' :: (t ++ [')']) := by
  have hfirst : Text.trimStart ('(' :: (t ++ [')'])) = '(' :: (t ++ [')']) := rfl
  have hlast : ('(' :: (t ++ [')'])).reverse = ')' :: ('(' :: t).reverse := by simp
  rw [Text.trim, hfirst, Text.trimEnd, hlast, List.dropWhile_cons, if_neg (by decide), ← hlast,
    List.reverse_reverse]

/-! ### which predicates can fail -/

theorem assertable_eq_false {p : Text} :
    assertable p = false ↔ stripParens p.trim = [] ∨ stripParens p.trim = ("true" : Text) := by
  rw [← Bool.not_eq_true, assertable_iff, not_and_or, not_not, not_not]

theorem assertable_congr {p p' : Text} (h : p.trim = p'.trim) : assertable p = assertable p' := by
  unfold assertable
  rw [h]

theorem neverFails_of_stripParens {s : Text}
    (h : stripParens s = [] ∨ stripParens s = ("true" : Text)) : NeverFails s := by
  fun_induction stripParens s with
  | case1 s hs =>
    rcases h with rfl | rfl
    · exact .blank (by simp)
    · exact .constant (u := []) (v := []) (by simp) (by simp)
  | case2 s t hs ih =>
    have hne : t ≠ [] := by
      rintro rfl
      rw [eq_of_insideParens? hs] at hs
      cases hs
    have hparens := NeverFails.parens (u := []) (v := []) (by simp) (by simp) hne (ih h).of_trim
    rw [eq_of_insideParens? hs]
    simpa using hparens

theorem neverFails_of_assertable {p : Text} (h : assertable p = false) : NeverFails p :=
  (neverFails_of_stripParens (assertable_eq_false.1 h)).of_trim

/-- A text that is not balanced keeps the parentheses around it, and it can fail with and without
them. -/
theorem assertable_parens {p : Text} (hne : p ≠ []) :
    assertable ('(' :: (p ++ [')'])) = assertable p := by
  cases hbalanced : parensBalanced p with
  | true =>
    unfold assertable
    rw [trim_parens, stripParens_parens hne hbalanced]
  | false =>
    have hinner : assertable p = true := by
      cases hfail : assertable p with
      | true => rfl
      | false =>
        rw [(neverFails_of_assertable hfail).canBeLeftOut.balanced] at hbalanced
        cases hbalanced
    have hnone : insideParens? ('(' :: (p ++ [')'])) = none := by
      rw [insideParens?_parens, hbalanced]
      exact if_neg fun hboth => by cases hboth.2
    rw [hinner, assertable_iff, trim_parens, stripParens_of_none hnone]
    exact ⟨by simp, by simp⟩

theorem NeverFails.assertable {p : Text} (h : NeverFails p) :
    ContractChecks.assertable p = false := by
  induction h with
  | @blank u hu =>
    have htrim : Text.trim u = Text.trim [] := by
      have hpad := trim_pad (v := []) hu (by simp) []
      rwa [List.append_nil, List.append_nil] at hpad
    rw [assertable_congr htrim]
    decide +kernel
  | constant hu hv =>
    rw [assertable_congr (trim_pad hu hv _)]
    decide +kernel
  | parens hu hv hne hq ih =>
    rw [assertable_congr (trim_pad hu hv _), assertable_parens hne, ih]

/-- **Which predicates can fail.**  A predicate has no assertion exactly if it is in the least set
that holds the blank texts and the constant true and is closed under parentheses around a text that
is not empty.  Parentheses around any such text, balanced or not, change nothing. -/
theorem assertable_laws (p : Text) :
    (assertable p = false ↔ NeverFails p) ∧
      (p ≠ [] → assertable ("(" ++ p ++ ")") = assertable p) := by
  refine ⟨⟨neverFails_of_assertable, NeverFails.assertable⟩, fun hne => ?_⟩
  rw [← assertable_parens hne]
  exact congrArg assertable (by simp)

/-- Two comparisons in parentheses of their own, and two parentheses that belong to nothing. -/
theorem assertable_laws_loose :
    (assertable ("(" ++ "(a) || (b)" ++ ")") = assertable "(a) || (b)" ∧
      assertable "(a) || (b)" = true) ∧
    (assertable ("(" ++ ")(" ++ ")") = assertable ")(" ∧ assertable ")(" = true) ∧
    NeverFails "\t( ( true) )\n" := by
  refine ⟨⟨(assertable_laws _).2 (by simp), by decide +kernel⟩,
    ⟨(assertable_laws _).2 (by simp), by decide +kernel⟩,
    (assertable_laws _).1.1 (by decide +kernel)⟩

/-- An empty pair of parentheses is no predicate that never fails. -/
example : assertable "()" = true ∧ assertable "( )" = false := by decide +kernel

end ContractChecks
