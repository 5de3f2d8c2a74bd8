import ContractChecks.Proofs.StandaloneCalls

/-!
# Numbers of closures

Closures are numbered in the order in which their quantifiers are met: an outer one before those
inside of it, those of the filters before those of the body, and all of these before the closures of
the text after the quantifier.

* `Closure`: a quantifier with the number of its closure; `Closure.filters`, `Closure.body`: its
  parts with the numbers at which their expansions start;
* `outerClosures n s`, `allClosures n s`: the closures of the outermost quantifiers, and all of them;
* `ExpandsAt stem n s`, `expansionAt stem n s`: the expansion of `s` from number `n` on succeeds, and
  what it gives; `ExpandsAt.span`, `ExpandsAt.induction`: quantifier by quantifier;
* `ExpandsAt.numbers`: the closures have the numbers from `n` on, in order;
* `climbs_expandFrom`: an expansion gives no number back, even if it fails.
-/

namespace ContractChecks

/-! ### closures -/

structure Closure where
  number : Nat
  quantified : Quantified
deriving DecidableEq, Repr

/-- texts with the numbers at which their expansions start, one after the other -/
def numbered (n : Nat) : List Text → List (Nat × Text)
  | [] => []
  | g :: gs => (n, g) :: numbered (n + closureCount g) gs

theorem mem_numbered {n : Nat} {gs : List Text} {g : Nat × Text} (h : g ∈ numbered n gs) :
    g.2 ∈ gs := by
  induction gs generalizing n with
  | nil => cases h
  | cons t gs ih =>
    rcases List.mem_cons.1 h with rfl | h
    · exact List.mem_cons_self
    · exact List.mem_cons_of_mem t (ih h)

namespace Closure

def filters (c : Closure) : List (Nat × Text) := numbered (c.number + 1) c.quantified.filters

def body (c : Closure) : Nat × Text :=
  (c.number + 1 + (c.quantified.filters.map closureCount).foldr Nat.add 0, c.quantified.body)

def parts (c : Closure) : List (Nat × Text) := c.filters ++ [c.body]

theorem forall_mem_parts {P : Nat × Text → Prop} {c : Closure} :
    (∀ g ∈ c.parts, P g) ↔ (∀ g ∈ c.filters, P g) ∧ P c.body := by
  rw [parts, List.forall_mem_append, List.forall_mem_singleton]

theorem mem_parts {c : Closure} {g : Nat × Text} (h : g ∈ c.parts) :
    g.2 ∈ c.quantified.filters ∨ g.2 = c.quantified.body := by
  rcases List.mem_append.1 h with h | h
  · exact .inl (mem_numbered h)
  · rw [List.mem_singleton.1 h]
    exact .inr rfl

end Closure

theorem length_part {kind : QuantifierKind} {inner : Text} {q : Quantified} {n : Nat}
    (h : Quantified.parse kind inner = .ok q) {g : Nat × Text} (hg : g ∈ (Closure.mk n q).parts) :
    g.2.length ≤ inner.length := by
  obtain ⟨hbody, hfilters⟩ := Quantified.length_parse h
  rcases Closure.mem_parts hg with hmem | heq
  · exact hfilters _ hmem
  · rw [heq]
    exact hbody

def QuantifierSpan.closure? (p : QuantifierSpan × Nat) : Option Closure :=
  match Quantified.parse p.1.kind p.1.inner with
  | .ok q => some ⟨p.2, q⟩
  | .error _ => none

/-- the closures of the outermost quantifiers, where the first one has number `n` -/
def outerClosures (n : Nat) (s : Text) : List Closure :=
  (outermost n s).filterMap QuantifierSpan.closure?

/-- the closures of all quantifiers, outer before inner ones -/
def allClosures (n : Nat) (s : Text) : List Closure :=
  match _h : firstSpan? s with
  | .ok (some p) =>
    match _hq : Quantified.parse p.kind p.inner with
    | .ok q =>
      ⟨n, q⟩ :: ((Closure.mk n q).parts.attach.flatMap fun g => allClosures g.1.1 g.1.2)
        ++ allClosures (n + q.closureCount) p.rest
    | .error _ => []
  | _ => []
termination_by s.length
decreasing_by
  · exact Nat.lt_of_le_of_lt (length_part _hq g.2) (length_firstSpan? _h).1
  · exact (length_firstSpan? _h).2

theorem closures_plain {s : Text} (h : firstSpan? s = .ok none) (n : Nat) :
    outerClosures n s = [] ∧ allClosures n s = [] := by
  rw [outerClosures, (outermost_plain h n).1, allClosures]
  refine ⟨rfl, ?_⟩
  split
  · rename_i hspan
    cases h.symm.trans hspan
  · rfl

theorem outerClosures_span {s : Text} {p : QuantifierSpan} {q : Quantified}
    (hspan : firstSpan? s = .ok (some p)) (hread : Quantified.parse p.kind p.inner = .ok q)
    (n : Nat) : outerClosures n s = ⟨n, q⟩ :: outerClosures (n + q.closureCount) p.rest := by
  have hclosure : QuantifierSpan.closure? (p, n) = some ⟨n, q⟩ := by
    rw [QuantifierSpan.closure?, hread]
  rw [outerClosures, (outermost_span hspan n).1, QuantifierSpan.closureCount_eq hread,
    List.filterMap_cons_some hclosure]
  rfl

theorem allClosures_span {s : Text} {p : QuantifierSpan} {q : Quantified}
    (hspan : firstSpan? s = .ok (some p)) (hread : Quantified.parse p.kind p.inner = .ok q)
    (n : Nat) : allClosures n s
      = ⟨n, q⟩ :: ((Closure.mk n q).parts.flatMap fun g => allClosures g.1 g.2)
        ++ allClosures (n + q.closureCount) p.rest := by
  rw [allClosures]
  split
  · rename_i p' hspan'
    cases hspan.symm.trans hspan'
    split
    · rename_i q' hread'
      cases hread.symm.trans hread'
      rw [List.flatMap_subtype (g := fun g => allClosures g.1 g.2) fun _ _ => rfl,
        List.unattach_attach]
    · rename_i hread'
      cases hread.symm.trans hread'
  · rename_i hnone
    exact absurd hspan (hnone p)

/-! ### numbered expansions -/

/-- expanding `s` from number `n` on succeeds -/
def ExpandsAt (stem : Text) (n : Nat) (s : Text) : Prop :=
  ∃ x m, (expandFrom stem s).run n = (.ok x, m)

/-- the expansion of `s` from number `n` on, or nothing if it fails -/
def expansionAt (stem : Text) (n : Nat) (s : Text) : Expansion :=
  match ((expandFrom stem s).run n).1 with
  | .ok x => x
  | .error _ => {}

theorem expansionAt_eq {stem s : Text} {n m : Nat} {x : Expansion}
    (h : (expandFrom stem s).run n = (.ok x, m)) : expansionAt stem n s = x := by
  rw [expansionAt, h]

theorem mapM_expandFrom {stem : Text} (gs : List Text) :
    ∀ {n m : Nat} {es : List Expansion}, (gs.mapM (expandFrom stem)).run n = (.ok es, m) →
      es = (numbered n gs).map (fun g => expansionAt stem g.1 g.2) ∧
        ∀ g ∈ numbered n gs, ExpandsAt stem g.1 g.2 := by
  induction gs with
  | nil =>
    intro n m es h
    cases h
    exact ⟨rfl, by simp [numbered]⟩
  | cons g gs ih =>
    intro n m es h
    rw [List.mapM_cons] at h
    obtain ⟨e, n₁, he, h⟩ := ExpandM.bind_eq_ok h
    obtain ⟨fs, n₂, hf, h⟩ := ExpandM.bind_eq_ok h
    cases h
    obtain ⟨hfs, hexpands⟩ := ih hf
    rw [expandFrom_closureCount he] at hfs hexpands
    rw [numbered, List.map_cons, expansionAt_eq he, ← hfs]
    exact ⟨rfl, List.forall_mem_cons.2 ⟨⟨e, n₁, he⟩, hexpands⟩⟩

namespace Closure

def name (stem : Text) (c : Closure) : Text := stem ++ Text.ofNat c.number

/-- the declaration of a closure, with those inside of it -/
def decl (stem : Text) (c : Closure) : Text :=
  c.quantified.closureOf (c.name stem) (c.filters.map fun g => expansionAt stem g.1 g.2)
    (expansionAt stem c.body.1 c.body.2)

end Closure

/-- what a numbered expansion has done: the expansions of the parts start where those before them
have stopped -/
theorem ExpandsAt.span {stem s : Text} {n : Nat} (h : ExpandsAt stem n s) :
    (firstSpan? s = .ok none ∧ expansionAt stem n s = ⟨[], s⟩) ∨
      ∃ p q, firstSpan? s = .ok (some p) ∧ Quantified.parse p.kind p.inner = .ok q ∧
        (∀ g ∈ (Closure.mk n q).parts, ExpandsAt stem g.1 g.2) ∧
        ExpandsAt stem (n + q.closureCount) p.rest ∧
        expansionAt stem n s
          = ⟨(Closure.mk n q).decl stem :: (expansionAt stem (n + q.closureCount) p.rest).decls,
            p.head ++ (Closure.mk n q).name stem ++ "()"
              ++ (expansionAt stem (n + q.closureCount) p.rest).text⟩ := by
  obtain ⟨x, m, h⟩ := h
  rcases expandFrom_run h with ⟨hspan, hx, -⟩ | ⟨p, q, filters, body, rest, m₁, m₂, hspan, hq,
    hfilters, hbody, hrest, hx⟩
  · rw [expansionAt_eq h]
    exact .inl ⟨hspan, hx⟩
  · have h₁ := ExpandM.mapM_number closureCount q.filters (fun _ _ _ _ _ he =>
      expandFrom_closureCount he) hfilters
    have h₂ := expandFrom_closureCount hbody
    have hnext : n + q.closureCount = m₂ := by
      rw [Quantified.closureCount]
      omega
    have hstart : (Closure.mk n q).body = (m₁, q.body) := by rw [Closure.body, ← h₁]
    obtain ⟨hfiltersEq, hexpands⟩ := mapM_expandFrom q.filters hfilters
    refine .inr ⟨p, q, hspan, hq, ?_, ?_, ?_⟩
    · rw [Closure.forall_mem_parts, hstart]
      exact ⟨hexpands, body, m₂, hbody⟩
    · rw [hnext]
      exact ⟨rest, m, hrest⟩
    · rw [expansionAt_eq h, hnext, expansionAt_eq hrest, hx, hfiltersEq, Closure.decl, hstart,
        expansionAt_eq hbody]
      rfl

/-- what holds of texts without quantifiers, and of a text if it holds of the parts of its first
quantifier and of the text after it, holds of every text that is expanded -/
theorem ExpandsAt.induction {stem : Text} {motive : Nat → Text → Prop}
    (plain : ∀ n s, firstSpan? s = .ok none → expansionAt stem n s = ⟨[], s⟩ → motive n s)
    (quantifier : ∀ n s p q, firstSpan? s = .ok (some p) →
      Quantified.parse p.kind p.inner = .ok q →
      (∀ g ∈ (Closure.mk n q).parts, ExpandsAt stem g.1 g.2 ∧ motive g.1 g.2) →
      expansionAt stem n s
        = ⟨(Closure.mk n q).decl stem :: (expansionAt stem (n + q.closureCount) p.rest).decls,
          p.head ++ (Closure.mk n q).name stem ++ "()"
            ++ (expansionAt stem (n + q.closureCount) p.rest).text⟩ →
      motive (n + q.closureCount) p.rest → motive n s)
    {n : Nat} {s : Text} (h : ExpandsAt stem n s) : motive n s := by
  -- filters, body and rest are shorter than the text
  induction hlen : s.length using Nat.strongRecOn generalizing n s with
  | _ len ih =>
    subst hlen
    rcases h.span with ⟨hspan, hx⟩ | ⟨p, q, hspan, hq, hparts, hrest, hx⟩
    · exact plain n s hspan hx
    · obtain ⟨hinner, hshort⟩ := length_firstSpan? hspan
      refine quantifier n s p q hspan hq (fun g hg => ⟨hparts g hg, ?_⟩) hx
        (ih _ hshort hrest rfl)
      have hlength := length_part hq hg
      exact ih _ (by omega) (hparts g hg) rfl

/-! ### numbers -/

theorem numbers_numbered {n : Nat} {gs : List Text}
    (h : ∀ g ∈ numbered n gs,
      (allClosures g.1 g.2).map Closure.number = List.range' g.1 (closureCount g.2)) :
    ((numbered n gs).flatMap fun g => allClosures g.1 g.2).map Closure.number
      = List.range' n ((gs.map closureCount).foldr Nat.add 0) := by
  induction gs generalizing n with
  | nil => rfl
  | cons g gs ih =>
    rw [numbered, List.forall_mem_cons] at h
    rw [numbered, List.flatMap_cons, List.map_append, h.1, ih h.2]
    exact List.range'_append_1

/-- the closures of an expansion have the numbers from its first one on, in order -/
theorem ExpandsAt.numbers {stem : Text} {n : Nat} {s : Text} (h : ExpandsAt stem n s) :
    (allClosures n s).map Closure.number = List.range' n (closureCount s) := by
  refine ExpandsAt.induction (motive := fun n s =>
    (allClosures n s).map Closure.number = List.range' n (closureCount s)) ?_ ?_ h
  · intro n s hspan _
    rw [(closures_plain hspan n).2, closureCount_plain hspan]
    rfl
  · intro n s p q hspan hread hparts _ hrest
    rw [Closure.forall_mem_parts] at hparts
    have hfilters := numbers_numbered fun g hg => (hparts.1 g hg).2
    rw [allClosures_span hspan hread, closureCount_span hspan hread, Closure.parts,
      List.flatMap_append, List.flatMap_singleton, List.cons_append, List.map_cons, List.map_append,
      List.map_append, Closure.filters, hfilters, hparts.2.2, hrest]
    have hcount : q.closureCount
        = (q.filters.map closureCount).foldr Nat.add 0 + closureCount q.body + 1 := by
      rw [Quantified.closureCount]
      omega
    have hown : n :: (List.range' (n + 1) ((q.filters.map closureCount).foldr Nat.add 0)
        ++ List.range' (Closure.mk n q).body.1 (closureCount q.body))
          = List.range' n q.closureCount := by
      rw [Closure.body, List.range'_append_1, hcount, List.range'_succ]
    rw [← List.range'_append_1, ← hown, List.cons_append]
    rfl

/-! ### numbers that are used up -/

/-- no number is given back, whether the computation succeeds or fails -/
def ExpandM.Climbs {α : Type} (x : ExpandM α) : Prop := ∀ n, n ≤ (x.run n).2

namespace ExpandM

variable {α β : Type}

theorem climbs_pure (a : α) : Climbs (pure a) := fun n => Nat.le_refl n

theorem climbs_throw (f : QuantifierFault) : Climbs (throw f : ExpandM α) := fun n => Nat.le_refl n

theorem climbs_freshNumber : Climbs freshNumber := fun n => Nat.le_succ n

theorem Climbs.bind {x : ExpandM α} {k : α → ExpandM β} (hx : Climbs x)
    (hk : ∀ a, Climbs (k a)) : Climbs (x >>= k) := by
  intro n
  have hfirst := hx n
  cases hr : x.run n with
  | mk r m =>
    rw [hr] at hfirst
    rw [run_bind hr]
    cases r with
    | error f => exact hfirst
    | ok a => exact Nat.le_trans hfirst (hk a m)

theorem climbs_mapM {g : α → ExpandM β} (l : List α) (hg : ∀ x ∈ l, Climbs (g x)) :
    Climbs (l.mapM g) := by
  induction l with
  | nil => exact climbs_pure []
  | cons x l ih =>
    rw [List.forall_mem_cons] at hg
    rw [List.mapM_cons]
    exact hg.1.bind fun y => (ih hg.2).bind fun ys => climbs_pure (y :: ys)

end ExpandM

theorem climbs_expandFrom (stem s : Text) : ExpandM.Climbs (expandFrom stem s) := by
  fun_induction expandFrom stem s with
  | case1 s f hspan => exact ExpandM.climbs_throw f
  | case2 s hspan => exact ExpandM.climbs_pure _
  | case3 s p hspan ihFilters ihBody ihRest =>
    refine ExpandM.climbs_freshNumber.bind fun n => ?_
    split
    · exact ExpandM.climbs_throw _
    · rename_i q hread
      refine (ExpandM.climbs_mapM _ fun g _ => ihFilters q hread g).bind fun filters => ?_
      refine (ihBody q hread).bind fun body => ?_
      exact ihRest.bind fun rest => ExpandM.climbs_pure _

end ContractChecks
