import ContractChecks.Proofs.QuantifierPieces

/-!
# Where the limits of a loop come from

Each loop of a typed quantifier takes its first value from one conjunct of the range and its limit
from the same or another one.  A conjunct that was taken is no filter any more.

* `BoundsFrom v vs c b`: the conjunct `c` is accepted as the bound `b` of the variable `v`, while
  the variables `v` and `vs` have no values yet;
* `findBound_origin`: each limit that is found belongs to an accepted conjunct;
* `BoundedLoops type cs vs ls`: the loops `ls` for the variables `vs`, with limits accepted among
  `cs`; `boundedLoops_countingLoops`: the loops of a quantifier are such;
* `limit_of_not_filter`: a conjunct that is no filter has given a limit to a loop;
* `referencesAny_limits`: an accepted limit does not refer to variables without a value.
-/

namespace ContractChecks

/-! ### accepted conjuncts -/

/-- the conjunct is accepted as a bound of `v`: its limits refer neither to `v` nor to `vs` -/
def BoundsFrom (v : Text) (vs : List Text) (c : Text) (b : Bound) : Prop :=
  bound? v c = some b ∧ referencesAny b.text (v :: vs) = false

/-- the first conjunct is accepted, and marked as used if it has a limit that is still missing, or
it is passed over -/
theorem findBound_cons (v : Text) (vs : List Text) (found : Bound) (c : Conjunct)
    (cs : List Conjunct) :
    (∃ b, BoundsFrom v vs c.text b ∧ findBound v (v :: vs) found (c :: cs)
        = ((findBound v (v :: vs) (found.orElse b) cs).1,
          { c with used := c.used || found.completes b }
            :: (findBound v (v :: vs) (found.orElse b) cs).2)) ∨
      findBound v (v :: vs) found (c :: cs)
        = ((findBound v (v :: vs) found cs).1, c :: (findBound v (v :: vs) found cs).2) := by
  rw [findBound]
  split
  · exact .inr rfl
  rename_i b hb
  split
  · exact .inr rfl
  · rename_i hrefs
    exact .inl ⟨b, ⟨hb, Bool.not_eq_true _ ▸ hrefs⟩, rfl⟩

/-- one side of the bound that is found was there before, or belongs to an accepted conjunct -/
theorem findBound_origin {α : Type} {side : Bound → Option α}
    (hside : ∀ a b : Bound, side (a.orElse b) = (side a).or (side b)) {v : Text} {vs : List Text}
    {found : Bound} {cs : List Conjunct} {t : α}
    (h : side (findBound v (v :: vs) found cs).1 = some t) :
    side found = some t ∨ ∃ c ∈ cs, ∃ b, BoundsFrom v vs c.text b ∧ side b = some t := by
  induction cs generalizing found with
  | nil => exact .inl h
  | cons c cs ih =>
    have hlater : ∀ {found : Bound}, side (findBound v (v :: vs) found cs).1 = some t →
        side found = some t ∨ ∃ d ∈ c :: cs, ∃ b, BoundsFrom v vs d.text b ∧ side b = some t := by
      intro found h
      rcases ih h with h | ⟨d, hd, hb⟩
      · exact .inl h
      · exact .inr ⟨d, List.mem_cons_of_mem c hd, hb⟩
    rcases findBound_cons v vs found c cs with ⟨b, hb, heq⟩ | heq
    · rw [heq] at h
      rcases hlater h with h | h
      · rw [hside] at h
        rcases Option.or_eq_some_iff.1 h with h | ⟨-, h⟩
        · exact .inl h
        · exact .inr ⟨c, List.mem_cons_self, b, hb, h⟩
      · exact .inr h
    · rw [heq] at h
      exact hlater h

/-- a side that is found stays -/
theorem findBound_keeps {α : Type} {side : Bound → Option α}
    (hside : ∀ a b : Bound, side (a.orElse b) = (side a).or (side b)) {v : Text} {vs : List Text}
    {found : Bound} (cs : List Conjunct) {t : α} (h : side found = some t) :
    side (findBound v (v :: vs) found cs).1 = some t := by
  induction cs generalizing found with
  | nil => exact h
  | cons c cs ih =>
    rcases findBound_cons v vs found c cs with ⟨b, -, heq⟩ | heq
    · rw [heq]
      refine ih ?_
      rw [hside, h]
      rfl
    · rw [heq]
      exact ih h

def Bound.SharesSide (b found : Bound) : Prop :=
  (∃ lo, b.lower = some lo ∧ found.lower = some lo) ∨ ∃ u, b.upper = some u ∧ found.upper = some u

theorem sharesSide_findBound {v : Text} {vs : List Text} {found b : Bound}
    (h : found.completes b = true) (cs : List Conjunct) :
    b.SharesSide (findBound v (v :: vs) (found.orElse b) cs).1 := by
  simp only [Bound.completes, Bool.or_eq_true, Bool.and_eq_true, Option.isNone_iff_eq_none] at h
  rcases h with ⟨hnone, hsome⟩ | ⟨hnone, hsome⟩
  · obtain ⟨lo, hlo⟩ := Option.isSome_iff_exists.1 hsome
    refine .inl ⟨lo, hlo, findBound_keeps (fun _ _ => rfl) cs ?_⟩
    rw [Bound.orElse, hnone, hlo]
    rfl
  · obtain ⟨u, hu⟩ := Option.isSome_iff_exists.1 hsome
    refine .inr ⟨u, hu, findBound_keeps (fun _ _ => rfl) cs ?_⟩
    rw [Bound.orElse, hnone, hu]
    rfl

/-- a conjunct is marked as used when one of its limits is taken, and stays so -/
theorem used_findBound {v : Text} {vs : List Text} {found : Bound} {cs : List Conjunct}
    {c : Conjunct} (hc : c ∈ (findBound v (v :: vs) found cs).2) (hused : c.used = true) :
    (∃ d ∈ cs, d.used = true ∧ d.text = c.text) ∨
      ∃ b, BoundsFrom v vs c.text b ∧ b.SharesSide (findBound v (v :: vs) found cs).1 := by
  induction cs generalizing found with
  | nil => cases hc
  | cons d cs ih =>
    have hlater : ∀ {found : Bound}, c ∈ (findBound v (v :: vs) found cs).2 →
        (∃ e ∈ d :: cs, e.used = true ∧ e.text = c.text) ∨
          ∃ b, BoundsFrom v vs c.text b ∧ b.SharesSide (findBound v (v :: vs) found cs).1 := by
      intro found hc
      rcases ih hc with ⟨e, he, heq⟩ | hb
      · exact .inl ⟨e, List.mem_cons_of_mem d he, heq⟩
      · exact .inr hb
    rcases findBound_cons v vs found d cs with ⟨b, hb, heq⟩ | heq
    · rw [heq] at hc ⊢
      rcases List.mem_cons.1 hc with rfl | hc
      · rcases Bool.or_eq_true_iff.1 hused with hd | hcompletes
        · exact .inl ⟨d, List.mem_cons_self, hd, rfl⟩
        · exact .inr ⟨b, hb, sharesSide_findBound hcompletes cs⟩
      · exact hlater hc
    · rw [heq] at hc ⊢
      rcases List.mem_cons.1 hc with rfl | hc
      · exact .inl ⟨c, List.mem_cons_self, hused, rfl⟩
      · exact hlater hc

/-! ### loops -/
/-- loops for the variables `vs`, each with limits accepted among the conjuncts -/
inductive BoundedLoops (type : Text) (cs : List Text) : List Text → List Loop → Prop
  | nil : BoundedLoops type cs [] []
  | cons {v lo limit : Text} {rel : Relation} {vs : List Text} {ls : List Loop}
      (lower : ∃ c ∈ cs, ∃ b, BoundsFrom v vs c b ∧ b.lower = some lo)
      (upper : ∃ c ∈ cs, ∃ b, BoundsFrom v vs c b ∧ b.upper = some (rel, limit))
      (inner : BoundedLoops type cs vs ls) :
      BoundedLoops type cs (v :: vs) (.counting v (startText type lo) rel limit :: ls)

theorem boundedLoops_texts {type : Text} {vs : List Text} {cs : List Conjunct}
    {p : List Loop × List Conjunct} (h : countingLoops type vs cs = .ok p) :
    BoundedLoops type (cs.map Conjunct.text) vs p.1 := by
  induction vs generalizing cs p with
  | nil =>
    cases h
    exact .nil
  | cons v vs ih =>
    simp only [countingLoops] at h
    split at h
    · cases h
    · cases h
    · rename_i lo hi hlo hhi
      split at h
      · cases h
      · rename_i q hq
        cases h
        have hinner := ih hq
        rw [texts_findBound] at hinner
        have htext : ∀ {P : Text → Prop}, (∃ c ∈ cs, P c.text) →
            ∃ c ∈ cs.map Conjunct.text, P c := by
          rintro P ⟨c, hc, h⟩
          exact ⟨c.text, List.mem_map_of_mem hc, h⟩
        have hlower := (findBound_origin (fun _ _ => rfl) hlo).resolve_left (by simp)
        have hupper := (findBound_origin (fun _ _ => rfl) hhi).resolve_left (by simp)
        exact .cons (htext hlower) (htext hupper) hinner

theorem boundedLoops_countingLoops {type : Text} {vs cs : List Text}
    {p : List Loop × List Conjunct}
    (h : countingLoops type vs (cs.map fun t => { text := t }) = .ok p) :
    BoundedLoops type cs vs p.1 := by
  have hbounded := boundedLoops_texts h
  rw [List.map_map] at hbounded
  have hsame : cs.map (Conjunct.text ∘ fun t => { text := t }) = cs := List.map_id cs
  rw [hsame] at hbounded
  exact hbounded

/-- a conjunct that is used gives a loop one of its limits -/
theorem used_countingLoops {type : Text} {vs : List Text} {cs : List Conjunct}
    {p : List Loop × List Conjunct} (h : countingLoops type vs cs = .ok p) {c : Conjunct}
    (hc : c ∈ p.2) (hused : c.used = true) :
    (∃ d ∈ cs, d.used = true ∧ d.text = c.text) ∨
      ∃ us v ws b lo u, us ++ v :: ws = vs ∧ BoundsFrom v ws c.text b ∧
        .counting v (startText type lo) u.1 u.2 ∈ p.1 ∧ (b.lower = some lo ∨ b.upper = some u) := by
  induction vs generalizing cs p with
  | nil =>
    cases h
    exact .inl ⟨c, hc, hused, rfl⟩
  | cons v vs ih =>
    simp only [countingLoops] at h
    split at h
    · cases h
    · cases h
    · rename_i lo hi hlo hhi
      split at h
      · cases h
      · rename_i q hq
        cases h
        rcases ih hq hc with ⟨d, hd, hdused, hdc⟩ | ⟨us, w, ws, b, lo', u, hvs, hb, hl, hside⟩
        · rcases used_findBound hd hdused with ⟨e, he, heused, hed⟩ | ⟨b, hb, hshares⟩
          · exact .inl ⟨e, he, heused, hed.trans hdc⟩
          · refine .inr ⟨[], v, vs, b, lo, hi, rfl, hdc ▸ hb, List.mem_cons_self, ?_⟩
            rcases hshares with ⟨t, hbt, ht⟩ | ⟨t, hbt, ht⟩
            · exact .inl (hbt.trans (ht.symm.trans hlo))
            · exact .inr (hbt.trans (ht.symm.trans hhi))
        · exact .inr ⟨v :: us, w, ws, b, lo', u, congrArg (v :: ·) hvs, hb,
            List.mem_cons_of_mem _ hl, hside⟩

theorem upper_lowerBound (limit : Text) (strict : Bool) :
    (lowerBound limit strict).upper = none := by
  show Bound.upper (if firstValue limit strict = [] then {} else { lower := some _ }) = none
  split <;> rfl

theorem upper_upperBound {rel : Relation} {limit : Text} {u : Relation × Text}
    (h : (upperBound rel limit).upper = some u) : u = (rel, limit) := by
  unfold upperBound at h
  split at h
  · cases h
  · cases h
    rfl

theorem upward_simpleBound? {v lhs rhs : Text} {rel : Relation} {b : Bound} {u : Relation × Text}
    (h : simpleBound? v lhs rel rhs = some b) (hu : b.upper = some u) : u.1.upward = true := by
  unfold simpleBound? at h
  split at h
  · cases h
    split at hu
    · rename_i hup
      rw [upper_upperBound hu, hup]
    · cases (upper_lowerBound _ _).symm.trans hu
  split at h
  · cases h
    split at hu
    · cases (upper_lowerBound _ _).symm.trans hu
    · rename_i hup
      rw [upper_upperBound hu]
      cases rel with
      | lt => exact absurd rfl hup
      | le => exact absurd rfl hup
      | gt => rfl
      | ge => rfl
  · cases h

theorem upward_chainBound? {v lhs rhs : Text} {rel : Relation} {b : Bound} {u : Relation × Text}
    (h : chainBound? v lhs rel rhs = some b) (hu : b.upper = some u) : u.1.upward = true := by
  fun_induction chainBound? v lhs rel rhs generalizing b with
  | case1 lhs rel rhs x hx hxv a c hc ha ih =>
    cases h
    exact ih hc hu
  | case2 => cases h
  | case3 => exact upward_simpleBound? h hu
  | case4 => exact upward_simpleBound? h hu

/-- the limit of a loop is an upper one -/
theorem upward_bound? {v c : Text} {b : Bound} {u : Relation × Text} (h : bound? v c = some b)
    (hu : b.upper = some u) : u.1.upward = true := by
  rw [bound?_eq_chainBound?] at h
  split at h
  · exact upward_chainBound? h hu
  · cases h

/-! ### the parts of a typed quantifier -/

theorem parse_typed {kind : QuantifierKind} {inner decl range body type : Text}
    {names : List Text} {q : Quantified} (hparts : splitTop ";" inner = [decl, range, body])
    (htyped : Text.cut? ":=" decl = none) (hdecl : parseDecl decl = .ok (names, type))
    (h : Quantified.parse kind inner = .ok q) :
    ∃ p, countingLoops type names ((splitTop "&&" range).map fun t => { text := t }) = .ok p ∧
      q.loops = p.1 ∧ q.filters = remainingFilters p.2 := by
  obtain ⟨r, hr, h⟩ := except_bind_eq_ok h
  split at h
  · cases h
  cases h
  simp only [hparts, Quantified.parseForm, htyped, Quantified.parseTyped] at hr
  obtain ⟨d, hd, hr⟩ := except_bind_eq_ok hr
  cases hdecl.symm.trans hd
  obtain ⟨p, hp, hr⟩ := except_bind_eq_ok hr
  cases hr
  exact ⟨p, hp, rfl, rfl⟩

/-- a conjunct of the range that is no filter, unless it is empty, gives a loop one of its limits -/
theorem limit_of_not_filter {type : Text} {names cs : List Text} {p : List Loop × List Conjunct}
    (h : countingLoops type names (cs.map fun t => { text := t }) = .ok p) {c : Text} (hc : c ∈ cs)
    (hne : c ≠ []) (hused : c ∉ remainingFilters p.2) :
    ∃ us v ws b lo u, us ++ v :: ws = names ∧ BoundsFrom v ws c b ∧
      .counting v (startText type lo) u.1 u.2 ∈ p.1 ∧ (b.lower = some lo ∨ b.upper = some u) := by
  have htexts := texts_countingLoops h
  rw [List.map_map] at htexts
  have hmem : c ∈ p.2.map Conjunct.text := by
    rw [htexts]
    exact List.mem_map.2 ⟨c, hc, rfl⟩
  obtain ⟨d, hd, rfl⟩ := List.mem_map.1 hmem
  have hdused : d.used = true := by
    cases hdused : d.used with
    | true => rfl
    | false =>
      refine absurd (List.mem_map.2 ⟨d, List.mem_filter.2 ⟨hd, ?_⟩, rfl⟩) hused
      rw [hdused]
      simpa using hne
  refine (used_countingLoops h hd hdused).resolve_left ?_
  rintro ⟨e, he, heused, -⟩
  obtain ⟨t, -, rfl⟩ := List.mem_map.1 he
  cases heused

theorem remainingFilters_subset {type : Text} {names cs : List Text}
    {p : List Loop × List Conjunct}
    (h : countingLoops type names (cs.map fun t => { text := t }) = .ok p) :
    ∀ g ∈ remainingFilters p.2, g ∈ cs := by
  intro g hg
  obtain ⟨c, hc, rfl⟩ := List.mem_map.1 hg
  have hmem : c.text ∈ p.2.map Conjunct.text := List.mem_map_of_mem (List.mem_filter.1 hc).1
  rw [texts_countingLoops h, List.map_map] at hmem
  obtain ⟨t, ht, he⟩ := List.mem_map.1 hmem
  exact he ▸ ht

/-! ### references -/

theorem referencesAny_iff {s : Text} {names : List Text} :
    referencesAny s names = false ↔ ∀ n ∈ names, n ∉ words s := by
  rw [referencesAny, List.any_eq_false]
  exact forall₂_congr fun n _ => not_congr references_iff

/-- neither limit of a bound refers to names to which the bound does not refer -/
theorem referencesAny_limits {b : Bound} (hb : b.Parts LiteralsClosed) {names : List Text}
    (h : referencesAny b.text names = false) :
    (∀ lo ∈ b.lower, referencesAny lo names = false) ∧
      ∀ u ∈ b.upper, referencesAny u.2 names = false := by
  have hclosed : LiteralsClosed (b.lower.getD []) := by
    cases hlower : b.lower with
    | none => exact literalsClosed_nil
    | some lo => exact hb.lower lo hlower
  have hblank : isMark ' ' = true := by decide
  have hwords : words b.text
      = words (b.lower.getD []) ++ words ((b.upper.map Prod.snd).getD []) := by
    rw [Bound.text, List.append_assoc]
    refine (words_append hclosed (startsFresh_cons hblank _)).trans ?_
    exact congrArg (words (b.lower.getD []) ++ ·)
      (words_marks_append (m := [' ']) (by simp [hblank]) _)
  rw [referencesAny_iff] at h
  constructor
  · intro lo hlo
    rw [referencesAny_iff]
    intro n hn hmem
    refine h n hn ?_
    rw [hwords, Option.mem_def.1 hlo]
    exact List.mem_append_left _ hmem
  · intro u hu
    rw [referencesAny_iff]
    intro n hn hmem
    refine h n hn ?_
    rw [hwords, Option.mem_def.1 hu]
    exact List.mem_append_right _ hmem

end ContractChecks
