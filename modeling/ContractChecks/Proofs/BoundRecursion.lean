import ContractChecks.Quantifier.Bound

/-!
# Recursion on comparisons that are written out

To find the bound that a chained comparison puts on a variable, the two comparisons it stands for
are written out and read again.  What is written out can be longer than the chain, but it has fewer
relations.

* `boundCalls v s`: the texts that are written out for `s`;
* `relationCount_lt_of_mem`: they have fewer relations than `s`, so writing out comes to an end
  (`wellFounded_boundCalls`);
* `boundCalls_first`: for the first of them nothing is written out again;
* `bound?_eq_calls`: the bound of `s` depends on the bounds of these texts only.
-/

namespace ContractChecks

/-- the texts that are written out and read again for the bound of `v` -/
def boundCalls (v s : Text) : List Text :=
  match chain? v s with
  | some (a, b) => [a.text, b.text]
  | none => []

theorem boundCalls_of_some {v s : Text} {a b : Comparison} (h : chain? v s = some (a, b)) :
    boundCalls v s = [a.text, b.text] := by
  rw [boundCalls, h]

theorem boundCalls_of_none {v s : Text} (h : chain? v s = none) : boundCalls v s = [] := by
  rw [boundCalls, h]

theorem relationCount_lt_of_mem {v s t : Text} (h : t ∈ boundCalls v s) :
    relationCount t < relationCount s := by
  cases hchain : chain? v s with
  | none =>
    rw [boundCalls_of_none hchain] at h
    cases h
  | some p =>
    rw [boundCalls_of_some hchain, List.mem_cons, List.mem_singleton] at h
    rcases h with rfl | rfl
    · exact relationCount_first_lt hchain
    · exact relationCount_second_lt hchain

theorem wellFounded_boundCalls (v : Text) : WellFounded fun t s => t ∈ boundCalls v s :=
  Subrelation.wf relationCount_lt_of_mem (measure relationCount).wf

/-- the first comparison of a chain is no chain itself -/
theorem boundCalls_first {v s t : Text} (h : (boundCalls v s).head? = some t) :
    boundCalls v t = [] := by
  cases hchain : chain? v s with
  | none =>
    rw [boundCalls_of_none hchain] at h
    cases h
  | some p =>
    rw [boundCalls_of_some hchain] at h
    cases h
    exact boundCalls_of_none
      (chain?_eq_none (comparison?_first hchain) (comparison?_rhs_first hchain) v)

theorem bound?_eq_calls (v s : Text) :
    bound? v s = match boundCalls v s with
      | [t, u] => Bound.between? (bound? v t) (bound? v u)
      | _ => (comparison? s).bind fun x => simpleBound? v x.lhs x.rel x.rhs := by
  rw [bound?]
  split
  case h_1 a b hchain => rw [boundCalls_of_some hchain]
  case h_2 hchain =>
    rw [boundCalls_of_none hchain]
    cases comparison? s <;> rfl

/-- The recursion that finds a bound ends: every call is made for a text with fewer relations, the
first of two calls makes no further one, and this although a call may be made for a longer text. -/
theorem bound?_recursion (v : Text) :
    (∀ s, ∀ t ∈ boundCalls v s, relationCount t < relationCount s) ∧
      (∀ s, ∀ t ∈ (boundCalls v s).head?, boundCalls v t = []) ∧
      WellFounded (fun t s => t ∈ boundCalls v s) ∧
      (∀ s, bound? v s = match boundCalls v s with
        | [t, u] => Bound.between? (bound? v t) (bound? v u)
        | _ => (comparison? s).bind fun x => simpleBound? v x.lhs x.rel x.rhs) ∧
      ∃ w s, ∃ t ∈ boundCalls w s, s.bytes < t.bytes := by
  refine ⟨fun s t => relationCount_lt_of_mem, fun s t => boundCalls_first, wellFounded_boundCalls v,
    bound?_eq_calls v, "i", "0<i<", "0 < i", ?_⟩
  decide +kernel

/-- an arrow, a shift, relations in brackets and a chain of three relations -/
def arrowChain : Text := "<-c << 2 <= i < i < f(x < y)"

theorem bound?_recursion_arrowChain :
    boundCalls "i" arrowChain = [("<-c << 2 <= i" : Text), ("i < i < f(x < y)" : Text)] ∧
      (∀ t ∈ boundCalls "i" arrowChain, relationCount t < relationCount arrowChain) ∧
      boundCalls "i" "<-c << 2 <= i" = [] :=
  ⟨by decide +kernel, (bound?_recursion "i").1 arrowChain,
    (bound?_recursion "i").2.1 arrowChain _ (by decide +kernel)⟩

end ContractChecks
