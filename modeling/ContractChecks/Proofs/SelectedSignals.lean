import ContractChecks.Violation.Signal

/-!
# Selecting a signal through its layers

An error that is not of the wanted type is passed over for the error under it: the one that a layer
of context was put on, or the cause of a violation.  So the outermost error of the type is selected.
Other values have nothing under them, and errors are not looked into for a type that no error has.

* `ErrorSignal.under n e`: the error under `n` layers of `e`;
* `SignalType.Outermost t e n x`: `x` is the first error of type `t`, under `n` layers;
* `select_step`: what happens to one layer; `select_outermost`, `exists_outermost`: what happens
  to all of them; `select_eq_some_iff`: what is selected from any signal;
* `matchesError_wrapped_iff`: which types a layer of context has itself.
-/

namespace ContractChecks

/-! ### layers -/

/-- the error under `n` layers -/
def ErrorSignal.under : Nat → ErrorSignal → Option ErrorSignal
  | 0, e => some e
  | n + 1, e => e.inner?.bind (under n)

theorem ErrorSignal.under_succ {e i : ErrorSignal} (h : e.inner? = some i) (n : Nat) :
    e.under (n + 1) = i.under n := by
  rw [under, h]
  rfl

theorem ErrorSignal.chain_of_some {e i : ErrorSignal} (h : e.inner? = some i) :
    e.chain = e :: i.chain := by
  cases e with
  | declared name others text inner =>
    cases h
    rw [chain]
  | wrapped context inner =>
    cases h
    rw [chain]
  | violation kind message cause =>
    cases h
    rw [chain]
  | _ => cases h

theorem ErrorSignal.chain_of_none {e : ErrorSignal} (h : e.inner? = none) : e.chain = [e] := by
  cases e with
  | declared name others text inner =>
    cases h
    rfl
  | wrapped context inner => cases h
  | violation kind message cause =>
    cases h
    rfl
  | _ => rfl

/-! ### types -/

/-- a layer of context is an error and nothing more -/
theorem SignalType.matchesError_wrapped_iff {t : SignalType} {context : Text} {e : ErrorSignal} :
    t.matchesError (.wrapped context e) = true ↔ t = .error ∨ t = .any := by
  cases t with
  | concrete name methods =>
    constructor
    · intro h
      cases h
    · rintro (h | h) <;> cases h
  | interface methods =>
    obtain ⟨error, others⟩ := methods
    cases others with
    | nil => cases error <;> simp [matchesError, ErrorSignal.type, admits, MethodSet.covers,
        SignalType.error, SignalType.any]
    | cons m ms =>
      constructor
      · intro h
        simp [matchesError, ErrorSignal.type, admits, MethodSet.covers] at h
      · rintro (h | h) <;> cases h

theorem ErrorSignal.isError_type (e : ErrorSignal) : e.type.methods.error = true := by
  cases e <;> rfl

/-- no error has a type of values that are no errors -/
theorem SignalType.matchesError_of_not_isErrorType (t : SignalType) (h : t.isErrorType = false)
    (e : ErrorSignal) : t.matchesError e = false := by
  cases t with
  | interface methods => cases h
  | concrete name methods =>
    cases hmatch : (concrete name methods).matchesError e with
    | false => rfl
    | true =>
      simp only [matchesError, admits, Bool.and_eq_true, decide_eq_true_eq] at hmatch
      rw [isErrorType, ← hmatch.2, e.isError_type] at h
      cases h

/-- everything that was raised is a signal of some sort -/
theorem SignalType.matchesSignal_any_iff {s : Signal} :
    SignalType.any.matchesSignal s = true ↔ s ≠ .none := by
  cases s with
  | none => simp [matchesSignal, Signal.type?]
  | error e => simp [matchesSignal, Signal.type?, any, admits, MethodSet.covers]
  | _ => simp [matchesSignal, Signal.type?, any, admits, MethodSet.covers]

/-! ### selection from errors -/

/-- `x` is the first error of type `t` in `e`, under `n` layers -/
structure SignalType.Outermost (t : SignalType) (e : ErrorSignal) (n : Nat) (x : ErrorSignal) :
    Prop where
  under : e.under n = some x
  has : t.matchesError x = true
  first : ∀ m y, m < n → e.under m = some y → t.matchesError y = false

theorem select_of_matches {t : SignalType} {e : ErrorSignal} (h : t.matchesError e = true) :
    (Signal.error e).select t = some (.error e) := if_pos h

section errors

variable {t : SignalType} (ht : t.isErrorType = true)
include ht

theorem select_error (e : ErrorSignal) :
    (Signal.error e).select t = (e.chain.find? t.matchesError).map .error := by
  cases h : t.matchesError e with
  | true =>
    have hhead : e.chain.find? t.matchesError = some e := by
      cases hinner : e.inner? with
      | none => rw [ErrorSignal.chain_of_none hinner, List.find?_cons, h]
      | some i => rw [ErrorSignal.chain_of_some hinner, List.find?_cons, h]
    rw [select_of_matches h, hhead]
    rfl
  | false =>
    have hnot : ¬t.matchesSignal (.error e) = true := by
      show ¬t.matchesError e = true
      rw [h]
      decide
    rw [Signal.select, if_neg hnot]
    exact if_pos ht

/-- an error that is not of the type is passed over for the one under it -/
theorem select_step {e : ErrorSignal} (h : t.matchesError e = false) :
    (Signal.error e).select t = e.inner?.bind fun i => (Signal.error i).select t := by
  rw [select_error ht]
  cases hinner : e.inner? with
  | none =>
    rw [ErrorSignal.chain_of_none hinner, List.find?_cons, h]
    rfl
  | some i =>
    rw [ErrorSignal.chain_of_some hinner, List.find?_cons, h]
    exact (select_error ht i).symm

theorem select_outermost {e x : ErrorSignal} {n : Nat} (h : t.Outermost e n x) :
    (Signal.error e).select t = some (.error x) := by
  induction n generalizing e with
  | zero =>
    obtain ⟨rfl⟩ : some e = some x := h.under
    exact select_of_matches h.has
  | succ n ih =>
    have hnot := h.first 0 e (Nat.succ_pos n) rfl
    obtain ⟨i, hinner, hunder⟩ := Option.bind_eq_some_iff.1 h.under
    rw [select_step ht hnot, hinner]
    refine ih ⟨hunder, h.has, fun m y hm hy => ?_⟩
    exact h.first (m + 1) y (Nat.succ_lt_succ hm) ((ErrorSignal.under_succ hinner m).trans hy)

theorem exists_outermost {e : ErrorSignal} {r : Signal} (h : (Signal.error e).select t = some r) :
    ∃ n x, t.Outermost e n x ∧ r = .error x := by
  cases hmatch : t.matchesError e with
  | true =>
    rw [select_of_matches hmatch] at h
    cases h
    exact ⟨0, e, ⟨rfl, hmatch, fun m y hm _ => absurd hm (Nat.not_lt_zero m)⟩, rfl⟩
  | false =>
    rw [select_step ht hmatch] at h
    obtain ⟨i, hinner, hi⟩ := Option.bind_eq_some_iff.1 h
    have hless : i.chain.length < e.chain.length := by
      rw [ErrorSignal.chain_of_some hinner]
      exact Nat.lt_succ_self _
    obtain ⟨n, x, hx, rfl⟩ := exists_outermost hi
    refine ⟨n + 1, x, ⟨(ErrorSignal.under_succ hinner n).trans hx.under, hx.has, ?_⟩, rfl⟩
    intro m y hm hy
    cases m with
    | zero =>
      cases hy
      exact hmatch
    | succ m =>
      rw [ErrorSignal.under_succ hinner] at hy
      exact hx.first m y (Nat.lt_of_succ_lt_succ hm) hy
termination_by e.chain.length

/-- an error of the type is found under any number of layers -/
theorem isSome_select {e x : ErrorSignal} {n : Nat} (hunder : e.under n = some x)
    (hx : t.matchesError x = true) : ((Signal.error e).select t).isSome = true := by
  induction n generalizing e with
  | zero =>
    cases hunder
    rw [select_of_matches hx]
    rfl
  | succ n ih =>
    cases hmatch : t.matchesError e with
    | true =>
      rw [select_of_matches hmatch]
      rfl
    | false =>
      obtain ⟨i, hinner, hi⟩ := Option.bind_eq_some_iff.1 hunder
      rw [select_step ht hmatch, hinner]
      exact ih hi

end errors

/-! ### selection from all signals -/

/-- a signal is selected itself, or it is an error and the type is one of errors -/
theorem select_cases {t : SignalType} {s r : Signal} (h : s.select t = some r) :
    (t.matchesSignal s = true ∧ r = s) ∨ ∃ e, s = .error e ∧ t.isErrorType = true := by
  unfold Signal.select at h
  split at h
  case isTrue hmatch =>
    cases h
    exact .inl ⟨hmatch, rfl⟩
  case isFalse =>
    split at h
    case h_2 => cases h
    case h_1 e hnot =>
      split at h
      case isFalse => cases h
      case isTrue ht => exact .inr ⟨e, rfl, ht⟩

theorem select_eq_some_iff {t : SignalType} {s r : Signal} :
    s.select t = some r ↔ (t.matchesSignal s = true ∧ r = s) ∨
      ∃ e n x, s = .error e ∧ t.isErrorType = true ∧ t.Outermost e n x ∧ r = .error x := by
  constructor
  · intro h
    rcases select_cases h with hself | ⟨e, rfl, ht⟩
    · exact .inl hself
    · obtain ⟨n, x, hx, hr⟩ := exists_outermost ht h
      exact .inr ⟨e, n, x, rfl, ht, hx, hr⟩
  · rintro (⟨hmatch, rfl⟩ | ⟨e, n, x, rfl, ht, hx, rfl⟩)
    · exact if_pos hmatch
    · exact select_outermost ht hx

theorem isSome_select_iff {t : SignalType} {s : Signal} :
    (s.select t).isSome = true ↔ t.matchesSignal s = true ∨
      ∃ e n x, s = .error e ∧ t.isErrorType = true ∧ e.under n = some x ∧
        t.matchesError x = true := by
  constructor
  · intro h
    obtain ⟨r, hr⟩ := Option.isSome_iff_exists.1 h
    rcases select_eq_some_iff.1 hr with ⟨hmatch, -⟩ | ⟨e, n, x, hs, ht, hx, -⟩
    · exact .inl hmatch
    · exact .inr ⟨e, n, x, hs, ht, hx.under, hx.has⟩
  · rintro (hmatch | ⟨e, n, x, rfl, ht, hunder, hx⟩)
    · have hself : s.select t = some s := if_pos hmatch
      rw [hself]
      rfl
    · exact isSome_select ht hunder hx

/-- A signal is selected if it has the type itself, or if it is an error, errors are unwrapped for
the type and some error under its layers has it; then the outermost one is selected.  Nothing else
is looked into.  Layers of context, violations that record a signal and declared errors that have
another one under them are what can be unwrapped. -/
theorem select_exact (t : SignalType) (s : Signal) :
    ((s.select t).isSome = true ↔ t.matchesSignal s = true ∨
        ∃ e n x, s = .error e ∧ t.isErrorType = true ∧ e.under n = some x ∧
          t.matchesError x = true) ∧
      (∀ r, s.select t = some r ↔ (t.matchesSignal s = true ∧ r = s) ∨
        ∃ e n x, s = .error e ∧ t.isErrorType = true ∧ t.Outermost e n x ∧ r = .error x) ∧
      ((∀ e, s ≠ .error e) ∨ t.isErrorType = false →
        ∀ r, s.select t = some r → r = s ∧ ∀ e, s ≠ .error e) ∧
      (SignalType.any.matchesSignal s = true ↔ s ≠ .none) ∧
      (∀ context e, (ErrorSignal.wrapped context e).inner? = some e ∧
        (t.matchesError (.wrapped context e) = true ↔ t = .error ∨ t = .any)) ∧
      ∀ kind message, ∃ v, checkCause false kind s message = .error (.error v) ∧
        v.inner? = s.toError? := by
  refine ⟨isSome_select_iff, fun r => select_eq_some_iff, ?_, SignalType.matchesSignal_any_iff,
    fun context e => ⟨rfl, SignalType.matchesError_wrapped_iff⟩, fun kind message => ⟨_, rfl, rfl⟩⟩
  intro hclosed r h
  have hvalue : ∀ e, s ≠ .error e := by
    rcases hclosed with hvalue | hplain
    · exact hvalue
    · rintro e rfl
      rcases select_cases h with ⟨hmatch, -⟩ | ⟨-, -, ht⟩
      · exact Bool.false_ne_true ((t.matchesError_of_not_isErrorType hplain e).symm.trans hmatch)
      · exact Bool.false_ne_true (hplain.symm.trans ht)
  rcases select_cases h with ⟨-, hself⟩ | ⟨e, he, -⟩
  · exact ⟨hself, hvalue⟩
  · exact absurd he (hvalue e)

/-- an error of a declared type, and a report of it through an error of another declared type, a
violation and a layer of context -/
def parseFailure : ErrorSignal := .declared "*ParseError" ["Line"] "unexpected end" none

def reportedFailure : ErrorSignal :=
  .wrapped "load" (.violation .anyExceptional "size()"
    (some (.declared "*SectionError" ["Unwrap"] "section 2" (some parseFailure))))

/-- whatever knows the line it stands in -/
def located : SignalType := .interface { others := ["Line"] }

theorem select_exact_reportedFailure :
    reportedFailure.under 3 = some parseFailure ∧ located.matchesError parseFailure = true ∧
      ((Signal.error reportedFailure).select located).isSome = true ∧
      (Signal.error reportedFailure).select located = some (.error parseFailure) :=
  ⟨rfl, by decide, (select_exact located (.error reportedFailure)).1.2
    (.inr ⟨reportedFailure, 3, parseFailure, rfl, rfl, rfl, by decide⟩), rfl⟩

end ContractChecks
