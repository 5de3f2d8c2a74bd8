import Mathlib.Data.List.Forall2
import ContractChecks.Quantifier.Expansion

/-!
# Runs of an expansion

An expansion that succeeds replaces the quantifiers of a text one after the other, and those inside
the closures it declares in the same way.

* `Expanded stem s x`: the expansion of `s` succeeds with `x`, from some number on;
* `Quantified.closureOf`: the closure of a quantifier whose parts have been expanded;
* `QuantifierSpan.replaced`: the text with its first quantifier replaced by the call of a closure;
* `expandFrom_run`: what an expansion that succeeds has done;
* `Expanded.induction`: what holds of texts without quantifiers, and of a text if it holds of the
  filters, the body and the text after its first quantifier, holds of every expansion.
-/

namespace ContractChecks

namespace ExpandM

variable {α β : Type}

theorem run_bind {x : ExpandM α} {n m : Nat} {r : Except QuantifierFault α} (hx : x.run n = (r, m))
    (k : α → ExpandM β) : (x >>= k).run n = (ExceptT.bindCont k r : StateM Nat _) m := by
  show (ExceptT.bindCont k (x.run n).1 : StateM Nat _) (x.run n).2 = _
  rw [hx]

theorem bind_eq_ok {x : ExpandM α} {k : α → ExpandM β} {n n' : Nat} {b : β}
    (h : (x >>= k).run n = (.ok b, n')) :
    ∃ a m, x.run n = (.ok a, m) ∧ (k a).run m = (.ok b, n') := by
  cases hx : x.run n with
  | mk r m =>
    rw [run_bind hx] at h
    cases r with
    | error f => cases h
    | ok a => exact ⟨a, m, rfl, h⟩

theorem forall₂_of_mapM {g : α → ExpandM β} {R : α → β → Prop}
    (hg : ∀ x n y m, (g x).run n = (.ok y, m) → R x y) (l : List α) :
    ∀ {n m : Nat} {ys : List β}, (l.mapM g).run n = (.ok ys, m) → List.Forall₂ R l ys := by
  induction l with
  | nil =>
    intro n m ys h
    cases h
    exact .nil
  | cons x l ih =>
    intro n m ys h
    rw [List.mapM_cons] at h
    obtain ⟨y, n₁, hy, h⟩ := bind_eq_ok h
    obtain ⟨zs, n₂, hz, h⟩ := bind_eq_ok h
    cases h
    exact .cons (hg x n y n₁ hy) (ih hz)

end ExpandM

theorem exists_mem_of_forall₂ {α β : Type} {R : α → β → Prop} {l : List α} {u : List β}
    (h : List.Forall₂ R l u) : ∀ b ∈ u, ∃ a ∈ l, R a b := by
  induction h with
  | nil => simp
  | cons hab _ ih =>
    refine List.forall_mem_cons.2 ⟨⟨_, List.mem_cons_self, hab⟩, fun b hb => ?_⟩
    obtain ⟨a, ha, hr⟩ := ih b hb
    exact ⟨a, List.mem_cons_of_mem _ ha, hr⟩

def Expanded (stem s : Text) (x : Expansion) : Prop :=
  ∃ n m, (expandFrom stem s).run n = (.ok x, m)

/-- the closure of a quantifier whose filters and body have been expanded -/
def Quantified.closureOf (q : Quantified) (name : Text) (filters : List Expansion)
    (body : Expansion) : Text :=
  q.closure name (filters.map fun e => (e.decls, e.text)) (body.decls, body.text)

/-- the text with its first quantifier replaced by the call of a closure, given the expansions of
the filters, the body and the text after the quantifier -/
def QuantifierSpan.replaced (p : QuantifierSpan) (q : Quantified) (name : Text)
    (filters : List Expansion) (body rest : Expansion) : Expansion where
  decls := q.closureOf name filters body :: rest.decls
  text := p.head ++ name ++ "()" ++ rest.text

/-- what an expansion that succeeds has done, with the numbers handed out on the way -/
theorem expandFrom_run {stem s : Text} {x : Expansion} {n m : Nat}
    (h : (expandFrom stem s).run n = (.ok x, m)) :
    (firstSpan? s = .ok none ∧ x = ⟨[], s⟩ ∧ m = n) ∨
      ∃ p q filters body rest m₁ m₂, firstSpan? s = .ok (some p) ∧
        Quantified.parse p.kind p.inner = .ok q ∧
        (q.filters.mapM (expandFrom stem)).run (n + 1) = (.ok filters, m₁) ∧
        (expandFrom stem q.body).run m₁ = (.ok body, m₂) ∧
        (expandFrom stem p.rest).run m₂ = (.ok rest, m) ∧
        x = p.replaced q (stem ++ Text.ofNat n) filters body rest := by
  rw [expandFrom] at h
  split at h
  · cases h
  · rename_i hspan
    cases h
    exact .inl ⟨hspan, rfl, rfl⟩
  · rename_i p hspan
    right
    obtain ⟨k, m₁, hk, h⟩ := ExpandM.bind_eq_ok h
    cases hk
    split at h
    · cases h
    · rename_i q hq
      obtain ⟨filters, m₂, hfilters, h⟩ := ExpandM.bind_eq_ok h
      obtain ⟨body, m₃, hbody, h⟩ := ExpandM.bind_eq_ok h
      obtain ⟨rest, m₄, hrest, h⟩ := ExpandM.bind_eq_ok h
      cases h
      refine ⟨p, q, filters, body, rest, m₂, m₃, hspan, hq, ?_, hbody, hrest, rfl⟩
      rw [← hfilters, List.mapM_subtype fun _ _ => rfl, List.unattach_attach]

theorem expandFrom_eq_ok {stem s : Text} {x : Expansion} (h : Expanded stem s x) :
    (firstSpan? s = .ok none ∧ x = ⟨[], s⟩) ∨
      ∃ p q n filters body rest, firstSpan? s = .ok (some p) ∧
        Quantified.parse p.kind p.inner = .ok q ∧
        List.Forall₂ (Expanded stem) q.filters filters ∧ Expanded stem q.body body ∧
        Expanded stem p.rest rest ∧
        x = p.replaced q (stem ++ Text.ofNat n) filters body rest := by
  obtain ⟨n, m, h⟩ := h
  rcases expandFrom_run h with ⟨hspan, hx, -⟩ | ⟨p, q, filters, body, rest, m₁, m₂, hspan, hq,
    hfilters, hbody, hrest, hx⟩
  · exact .inl ⟨hspan, hx⟩
  · have hforall := ExpandM.forall₂_of_mapM (R := Expanded stem) (fun g n e m he => ⟨n, m, he⟩) _
      hfilters
    exact .inr ⟨p, q, n, filters, body, rest, hspan, hq, hforall, ⟨_, _, hbody⟩, ⟨_, _, hrest⟩, hx⟩

theorem Expanded.induction {stem : Text} {motive : Text → Expansion → Prop}
    (plain : ∀ s, firstSpan? s = .ok none → motive s ⟨[], s⟩)
    (quantifier : ∀ s p q n filters body rest, firstSpan? s = .ok (some p) →
      Quantified.parse p.kind p.inner = .ok q → List.Forall₂ motive q.filters filters →
      motive q.body body → motive p.rest rest →
      motive s (p.replaced q (stem ++ Text.ofNat n) filters body rest))
    {s : Text} {x : Expansion} (h : Expanded stem s x) : motive s x := by
  -- filters, body and rest are shorter than the text
  induction hlen : s.length using Nat.strongRecOn generalizing s x with
  | _ len ih =>
    subst hlen
    rcases expandFrom_eq_ok h with ⟨hspan, rfl⟩ | ⟨p, q, n, filters, body, rest, hspan, hq, hfilters,
      hbody, hrest, rfl⟩
    · exact plain s hspan
    · obtain ⟨hinner, hshort⟩ := length_firstSpan? hspan
      obtain ⟨hbodyLen, hfilterLen⟩ := Quantified.length_parse hq
      refine quantifier s p q n filters body rest hspan hq ?_ ?_ ?_
      · refine ((List.forall₂_and_left _ _).2 ⟨hfilterLen, hfilters⟩).imp ?_
        rintro g e ⟨hlen, he⟩
        exact ih _ (by omega) he rfl
      · exact ih _ (by omega) hbody rfl
      · exact ih _ hshort hrest rfl

end ContractChecks
