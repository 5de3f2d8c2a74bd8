import Mathlib.Data.List.Flatten
import Mathlib.Data.List.Perm.Lattice
import ContractChecks.Proofs.Declarations

/-!
# Temporaries of a composed contract

The temporaries of a composed contract are those of the override, the renamed ones of every
inherited contract, and the variables that guard the spec cases.  A temporary whose name is taken
gets a fresh name, but while the temporaries of one contract are visited, those after the current
one are not yet taken.

* `Contract.temporaries_perm`: the temporaries of a valid contract, case by case;
* `Composed.temporaries_perm`: those of a composition, source by source;
* `nodup_newNames_iff`: when the new names of one contract stay apart;
* `levels_spec`: what holds of the new names along a chain of inherited contracts;
* `nodup_temporaries_compose_iff`: when the temporaries of a composition are distinct.
-/

namespace ContractChecks

/-! ### temporaries case by case -/

def SpecCase.temporaries (k : SpecCase) : List Text :=
  (k.oldVars.getD []).map OldVar.name ++ (k.oldExprDecls.getD []).map declaredName

namespace Contract

theorem flatMap_entries_perm {c : Contract} {β : Type} {t : CaseTable (List β)}
    (ht : ∀ i ∈ t.indices, i ∈ c.pre.indices) (g : β → Text) :
    (t.entries.flatMap fun e => e.2.map g).Perm
      (c.pre.entries.flatMap fun e => ((t.get? e.1).getD []).map g) := by
  have hperm := t.flatMap_perm c.pre.nodup_indices ht fun vs => vs.map g
  have hindices : (c.pre.indices.flatMap fun i => ((t.get? i).map fun vs => vs.map g).getD [])
      = c.pre.entries.flatMap fun e => ((t.get? e.1).getD []).map g := by
    show ((c.pre.entries.map Prod.fst).flatMap _) = _
    rw [List.flatMap_map]
    refine List.flatMap_congr fun e _ => ?_
    cases t.get? e.1 <;> rfl
  rw [hindices] at hperm
  exact hperm

theorem temporaries_perm {c : Contract} (hc : c.Closed) :
    c.temporaries.Perm (c.cases.flatMap SpecCase.temporaries ++ c.preExprDecls.map declaredName) := by
  have hvars := flatMap_entries_perm hc.oldVars OldVar.name
  have hexprs := flatMap_entries_perm hc.oldExprDecls declaredName
  refine List.Perm.append_right _ ((hvars.append hexprs).trans ?_)
  rw [cases, List.flatMap_map]
  exact List.flatMap_append_perm _ _ _

theorem closed_renamed {c : Contract} (hc : c.Closed) (f : Renaming) : (c.renamed f).Closed := by
  constructor
  all_goals rw [renamed, CaseTable.indices_mapValues, CaseTable.indices_mapValues]
  exacts [hc.post, hc.xpost, hc.oldVars, hc.oldExprDecls, hc.oldExprs]

end Contract

/-! ### temporaries source by source -/

theorem temporaries_guarded (k : SpecCase) (i : Nat) :
    (k.guarded i).temporaries.Perm
      (k.temporaries ++ caseNamesFrom i [k]) := by
  rw [caseNamesFrom_singleton]
  unfold SpecCase.guarded
  by_cases hg : k.isGuarded = true
  · rw [if_pos hg, if_pos hg]
    show ((k.oldVars.getD [] ++ [caseFlag i k.pre]).map OldVar.name
      ++ (k.oldExprDecls.getD []).map declaredName).Perm _
    rw [List.map_append, List.map_singleton, name_caseFlag, SpecCase.temporaries,
      List.append_assoc, List.append_assoc]
    exact List.Perm.append_left _ List.perm_append_comm
  · rw [if_neg hg, if_neg hg, List.append_nil]

theorem temporaries_guardedFrom (i : Nat) (ks : List SpecCase) :
    ((guardedFrom i ks).flatMap SpecCase.temporaries).Perm
      (ks.flatMap SpecCase.temporaries ++ caseNamesFrom i ks) := by
  induction ks generalizing i with
  | nil => exact List.Perm.refl _
  | cons k ks ih =>
    rw [guardedFrom_cons, caseNamesFrom_cons, List.flatMap_cons, List.flatMap_cons]
    refine ((temporaries_guarded k i).append (ih (i + 1))).trans ?_
    rw [List.append_assoc, List.append_assoc]
    refine List.Perm.append_left _ ?_
    rw [← List.append_assoc, ← List.append_assoc]
    exact List.Perm.append_right _ List.perm_append_comm

theorem temporaries_guardedCases (ks : List SpecCase) :
    ((guardedCases ks).flatMap SpecCase.temporaries).Perm
      (ks.flatMap SpecCase.temporaries ++ guardNames ks) := by
  unfold guardedCases guardNames
  split
  · exact temporaries_guardedFrom 0 ks
  · rw [List.append_nil]

theorem mem_levels {own : Method} {taken : List Text} {ps : List (Contract × Nat)}
    {l : Contract × Renaming} (h : l ∈ inheritedLevels own taken ps) :
    ∃ p ∈ ps, l.1 = p.1 ∧ ∃ taken', l.2 = (inheritedRenaming taken' own p.1 p.2).1 := by
  induction ps generalizing taken with
  | nil => cases h
  | cons p ps ih =>
    rw [inheritedLevels] at h
    rcases List.mem_cons.1 h with rfl | h
    · exact ⟨p, List.mem_cons_self, rfl, taken, rfl⟩
    · obtain ⟨q, hq, hl⟩ := ih h
      exact ⟨q, List.mem_cons_of_mem _ hq, hl⟩

theorem mem_levelsOf {own : Contract} {inherited : List Contract} {l : Contract × Renaming}
    (h : l ∈ levelsOf own inherited) : l.1 ∈ inherited := by
  obtain ⟨p, hp, hl, -⟩ := mem_levels h
  rw [hl]
  exact List.fst_mem_of_mem_zipIdx hp

namespace Composed

variable {own : Contract} {inherited : List Contract} {r : Contract}

theorem closed_source (h : Composed own inherited r) :
    ∀ c ∈ composedSources own inherited, c.Closed := by
  intro c hc
  rcases List.mem_cons.1 hc with rfl | hc
  · exact Contract.validate_eq_ok.1 h.own_valid
  · obtain ⟨l, hl, rfl⟩ := List.mem_map.1 hc
    have hvalid := (h.inherited_valid l.1 (mem_levelsOf hl)).2
    exact Contract.closed_renamed (Contract.validate_eq_ok.1 hvalid) l.2

theorem temporaries_perm (h : Composed own inherited r) :
    r.temporaries.Perm ((composedSources own inherited).flatMap Contract.temporaries
      ++ guardNames (composedCases own inherited)) := by
  have hsources : ((composedSources own inherited).flatMap Contract.temporaries).Perm
      ((composedCases own inherited).flatMap SpecCase.temporaries
        ++ r.preExprDecls.map declaredName) := by
    rw [composedCases, List.flatMap_assoc, h.preExprDecls, List.map_flatMap]
    refine List.Perm.trans ?_ (List.flatMap_append_perm _ _ _).symm
    exact List.Perm.flatMap_left _ fun c hc => Contract.temporaries_perm (h.closed_source c hc)
  refine (Contract.temporaries_perm h.cases.closed).trans ?_
  rw [h.cases.cases_eq]
  refine ((temporaries_guardedCases _).append_right _).trans ?_
  refine List.Perm.trans ?_ (hsources.symm.append_right _)
  rw [List.append_assoc, List.append_assoc]
  exact List.Perm.append_left _ List.perm_append_comm

end Composed

/-! ### the new names of one contract -/

def newName (level : Nat) (taken ts : List Text) (t : Text) : Text :=
  (freshName? level taken ts t).getD t

theorem newName_not_mem (level : Nat) {taken ts : List Text} {t : Text} (ht : t ∈ ts)
    (hne : t ≠ []) : newName level taken ts t ∉ taken := by
  unfold newName
  cases hfresh : freshName? level taken ts t with
  | none =>
    intro hmem
    obtain ⟨x, hx⟩ := exists_freshName? level ht ⟨hne, hmem⟩
    rw [hfresh] at hx
    cases hx
  | some x => exact (freshName?_eq_some hfresh).2.1

theorem newName_mem (level : Nat) {taken ts : List Text} {t : Text} (ht : t ∈ ts) :
    newName level taken ts t ∈ (taken ++ freshNames level taken ts) ++ ts := by
  unfold newName
  cases hfresh : freshName? level taken ts t with
  | none => exact List.mem_append_right _ ht
  | some x =>
    exact List.mem_append_left _ (List.mem_append_right _ (freshName?_eq_some hfresh).2.2.1)

theorem freshName?_eq_none (level : Nat) {taken ts : List Text} {t : Text} (ht : t ∉ ts) :
    freshName? level taken ts t = none := by
  cases hfresh : freshName? level taken ts t with
  | none => rfl
  | some x => exact absurd (freshName?_eq_some hfresh).1 ht

theorem newName_self {level : Nat} {taken ts : List Text} {t : Text} (ht : t ∉ ts) :
    newName level taken ts t = t := by
  unfold newName
  rw [freshName?_eq_none level ht]
  rfl

theorem newName_cons_of_not_mustRename {level : Nat} {taken : List Text} {t : Text}
    (h : ¬mustRename taken t) (ts : List Text) :
    newName level taken (t :: ts) = newName level taken ts := by
  funext u
  unfold newName
  rw [freshName?, if_neg h]

theorem newName_cons_self {level : Nat} {taken ts : List Text} {t : Text}
    (h : mustRename taken t) (ht : t ∉ ts) :
    newName level taken (t :: ts) t = freshTemp taken t level := by
  unfold newName
  rw [freshName?, if_pos h, freshName?_eq_none level ht, if_pos rfl]
  rfl

theorem newName_cons_of_ne {level : Nat} {taken : List Text} {t u : Text}
    (h : mustRename taken t) (hut : u ≠ t) (ts : List Text) :
    newName level taken (t :: ts) u = newName level (taken ++ [freshTemp taken t level]) ts u := by
  unfold newName
  rw [freshName?, if_pos h, if_neg hut, Option.or_none]

/-- the new names of a contract are distinct unless a temporary gets the name of one that is
declared before it -/
theorem nodup_newNames_iff (level : Nat) {ts : List Text} (hnd : ts.Nodup) (hne : [] ∉ ts)
    (taken : List Text) :
    (ts.map (newName level taken ts)).Nodup ↔
      ts.Pairwise fun t u => newName level taken ts u ≠ t := by
  induction ts generalizing taken with
  | nil => simp
  | cons t ts ih =>
    obtain ⟨ht, hnd⟩ := List.nodup_cons.1 hnd
    have ht0 : t ≠ [] := fun h => hne (h ▸ List.mem_cons_self)
    have hne' : [] ∉ ts := fun h => hne (List.mem_cons_of_mem _ h)
    have hu0 : ∀ u ∈ ts, u ≠ [] := fun u hu h => hne' (h ▸ hu)
    rw [List.map_cons, List.nodup_cons, List.pairwise_cons]
    by_cases hmust : mustRename taken t
    · -- every later name avoids both `t` and the fresh name, so the head adds no condition
      let fresh := freshTemp taken t level
      have hlater : ∀ u ∈ ts, newName level taken (t :: ts) u
          = newName level (taken ++ [fresh]) ts u := by
        intro u hu
        exact newName_cons_of_ne hmust (fun h => ht (h ▸ hu)) ts
      have havoid : ∀ u ∈ ts, newName level taken (t :: ts) u ∉ taken ++ [fresh] := by
        intro u hu
        rw [hlater u hu]
        exact newName_not_mem level hu (hu0 u hu)
      have hmap : ts.map (newName level taken (t :: ts))
          = ts.map (newName level (taken ++ [fresh]) ts) := List.map_congr_left hlater
      have hpair : ts.Pairwise (fun t' u => newName level taken (t :: ts) u ≠ t') ↔
          ts.Pairwise fun t' u => newName level (taken ++ [fresh]) ts u ≠ t' := by
        refine List.Pairwise.iff_of_mem ?_
        intro a b _ hb
        rw [hlater b hb]
      rw [newName_cons_self hmust ht, hmap, ih hnd hne' (taken ++ [fresh]), ← hpair]
      constructor
      · rintro ⟨-, h⟩
        refine ⟨fun u hu heq => havoid u hu ?_, h⟩
        rw [heq]
        exact List.mem_append_left _ hmust.2
      · rintro ⟨-, h⟩
        refine ⟨fun hmem => ?_, h⟩
        rw [← hmap] at hmem
        obtain ⟨u, hu, heq⟩ := List.mem_map.1 hmem
        exact havoid u hu (List.mem_append_right _ (List.mem_singleton.2 heq))
    · -- `t` keeps its name
      rw [newName_cons_of_not_mustRename hmust, newName_self ht, ih hnd hne' taken]
      refine and_congr_left fun _ => ?_
      constructor
      · intro hmem u hu heq
        exact hmem (List.mem_map.2 ⟨u, hu, heq⟩)
      · intro hall hmem
        obtain ⟨u, hu, heq⟩ := List.mem_map.1 hmem
        exact hall u hu heq

/-! ### one level -/

/-- an inherited contract with plain and distinct names, none of its temporaries bearing the name
of a parameter or receiver that the override calls differently -/
structure Apart (own : Method) (c : Contract) : Prop where
  plain : c.PlainNames
  nodup : c.temporaries.Nodup
  signature : ∀ t ∈ c.temporaries, (signatureRenaming own c.method).get? t = none

namespace Apart

variable {own : Method} {c : Contract}

theorem image_eq (h : Apart own c) (taken : List Text) (level : Nat) {t : Text}
    (ht : t ∈ c.temporaries) :
    (inheritedRenaming taken own c level).1.image t = newName level taken c.temporaries t := by
  rw [Renaming.image, (inheritedRenaming_spec taken own c level).1, h.signature t ht,
    Option.or_none]
  rfl

theorem plainName_of_get? (h : Apart own c) {taken : List Text} {level : Nat} {a x : Text}
    (ha : (inheritedRenaming taken own c level).1.get? a = some x) : PlainName a := by
  rw [(inheritedRenaming_spec taken own c level).1] at ha
  rcases Option.or_eq_some_iff.1 ha with ha | ⟨-, ha⟩
  · exact h.plain.plainName_of_mem (freshName?_eq_some ha).1
  · rcases signatureRenaming_eq_some ha with ⟨rfl, -⟩ | ⟨hmem, hne, -, -⟩
    · unfold Method.receiverName
      split
      · exact plainName_of_decide (by decide)
      case isFalse hreceiver =>
        exact (h.plain.signature _ List.mem_cons_self).resolve_left hreceiver
    · exact (h.plain.signature a (List.mem_cons_of_mem _ hmem)).resolve_left hne

theorem keepsWords (h : Apart own c) (taken : List Text) (level : Nat) :
    (inheritedRenaming taken own c level).1.KeepsWords :=
  Renaming.keepsWords_of_plain fun _ _ hget => h.plainName_of_get? hget

theorem plainName_newName (h : Apart own c) (taken : List Text) (level : Nat) {t : Text}
    (ht : t ∈ c.temporaries) : PlainName (newName level taken c.temporaries t) := by
  have hplain := h.plain.plainName_of_mem ht
  unfold newName
  cases hfresh : freshName? level taken c.temporaries t with
  | none => exact hplain
  | some x =>
    obtain ⟨-, -, -, n, rfl⟩ := freshName?_eq_some hfresh
    exact hplain.tempCandidate level n

theorem temporaries_renamed (h : Apart own c) (taken : List Text) (level : Nat) :
    (c.renamed (inheritedRenaming taken own c level).1).temporaries
      = c.temporaries.map (newName level taken c.temporaries) := by
  have himage : ∀ t ∈ c.temporaries, (inheritedRenaming taken own c level).1.image t
      = newName level taken c.temporaries t := fun t ht => h.image_eq taken level ht
  have hplain : ∀ t ∈ c.temporaries,
      PlainName ((inheritedRenaming taken own c level).1.image t) := by
    intro t ht
    rw [himage t ht]
    exact h.plainName_newName taken level ht
  rw [h.plain.temporaries_renamed (h.keepsWords taken level) hplain]
  exact List.map_congr_left himage

theorem ne_nil (h : Apart own c) {t : Text} (ht : t ∈ c.temporaries) : t ≠ [] :=
  (h.plain.plainName_of_mem ht).ne_nil

theorem mem_newNames (h : Apart own c) {taken : List Text} {level : Nat} {x : Text}
    (hx : x ∈ c.temporaries.map (newName level taken c.temporaries)) :
    x ∉ taken ∧ x ∈ (inheritedRenaming taken own c level).2 ++ c.temporaries := by
  obtain ⟨t, ht, rfl⟩ := List.mem_map.1 hx
  rw [(inheritedRenaming_spec taken own c level).2]
  exact ⟨newName_not_mem level ht (h.ne_nil ht), newName_mem level ht⟩

theorem nodup_newNames_iff (h : Apart own c) (taken : List Text) (level : Nat) :
    (c.temporaries.map (newName level taken c.temporaries)).Nodup ↔
      c.temporaries.Pairwise fun t u =>
        (inheritedRenaming taken own c level).1.image u ≠ t := by
  rw [ContractChecks.nodup_newNames_iff level h.nodup (fun hmem => h.ne_nil hmem rfl) taken]
  refine List.Pairwise.iff_of_mem ?_
  intro t u _ hu
  rw [h.image_eq taken level hu]

end Apart

/-! ### all levels -/

theorem subset_takenAfter (own : Method) (ps : List (Contract × Nat)) (taken : List Text) :
    taken ⊆ takenAfter own taken ps := by
  induction ps generalizing taken with
  | nil => exact List.Subset.refl taken
  | cons p ps ih =>
    intro x hx
    rw [takenAfter]
    refine ih _ (List.mem_append_left _ ?_)
    rw [(inheritedRenaming_spec taken own p.1 p.2).2]
    exact List.mem_append_left _ hx

def levelNames (ls : List (Contract × Renaming)) : List Text :=
  ls.flatMap fun l => (l.1.renamed l.2).temporaries

/-- no temporary of a level gets the name of one that is declared before it in the same
contract -/
def NoneOvertaken (ls : List (Contract × Renaming)) : Prop :=
  ∀ l ∈ ls, l.1.temporaries.Pairwise fun t u => l.2.image u ≠ t

instance (ls : List (Contract × Renaming)) : Decidable (NoneOvertaken ls) :=
  inferInstanceAs (Decidable (∀ l ∈ ls, l.1.temporaries.Pairwise fun t u => l.2.image u ≠ t))

/-- along the levels, new names are neither taken before nor free afterwards -/
theorem levels_spec {own : Method} {ps : List (Contract × Nat)} (h : ∀ p ∈ ps, Apart own p.1)
    (taken : List Text) :
    (∀ x ∈ levelNames (inheritedLevels own taken ps), x ∉ taken ∧ x ∈ takenAfter own taken ps) ∧
      ((levelNames (inheritedLevels own taken ps)).Nodup ↔
        NoneOvertaken (inheritedLevels own taken ps)) := by
  -- the names of a level are taken when the next one is visited, which keeps the levels apart
  induction ps generalizing taken with
  | nil =>
    constructor
    · intro x hx
      cases hx
    · constructor
      · intro _ l hl
        cases hl
      · exact fun _ => List.nodup_nil
  | cons p ps ih =>
    have hp := h p List.mem_cons_self
    obtain ⟨htaken, hnodup⟩ := ih (fun q hq => h q (List.mem_cons_of_mem _ hq))
      ((inheritedRenaming taken own p.1 p.2).2 ++ p.1.temporaries)
    have hnames : levelNames (inheritedLevels own taken (p :: ps))
        = p.1.temporaries.map (newName p.2 taken p.1.temporaries)
          ++ levelNames (inheritedLevels own
            ((inheritedRenaming taken own p.1 p.2).2 ++ p.1.temporaries) ps) := by
      rw [inheritedLevels, levelNames, List.flatMap_cons, hp.temporaries_renamed]
      rfl
    have hold : ∀ {x}, x ∈ taken →
        x ∈ (inheritedRenaming taken own p.1 p.2).2 ++ p.1.temporaries := by
      intro x hx
      rw [(inheritedRenaming_spec taken own p.1 p.2).2]
      exact List.mem_append_left _ (List.mem_append_left _ hx)
    constructor
    · intro x hx
      rw [hnames] at hx
      rcases List.mem_append.1 hx with hx | hx
      · obtain ⟨hfree, hreserved⟩ := hp.mem_newNames hx
        exact ⟨hfree, subset_takenAfter own ps _ hreserved⟩
      · exact ⟨fun hmem => (htaken x hx).1 (hold hmem), (htaken x hx).2⟩
    · have hforall : NoneOvertaken (inheritedLevels own taken (p :: ps)) ↔
          (p.1.temporaries.Pairwise fun t u =>
            (inheritedRenaming taken own p.1 p.2).1.image u ≠ t) ∧
          NoneOvertaken (inheritedLevels own
            ((inheritedRenaming taken own p.1 p.2).2 ++ p.1.temporaries) ps) := by
        unfold NoneOvertaken
        rw [inheritedLevels, List.forall_mem_cons]
      rw [hforall, hnames, List.nodup_append, hp.nodup_newNames_iff, hnodup]
      constructor
      · rintro ⟨h₁, h₂, -⟩
        exact ⟨h₁, h₂⟩
      · rintro ⟨h₁, h₂⟩
        refine ⟨h₁, h₂, fun x hx y hy hxy => ?_⟩
        exact (htaken y hy).1 (hxy ▸ (hp.mem_newNames hx).2)

/-- **When a composition keeps temporaries apart.**  If the temporaries of the override are
distinct, and every inherited contract has plain names that are apart, then the temporaries of
the composition are distinct exactly if no inherited temporary gets the name of a temporary that
its own contract declares before it. -/
theorem nodup_temporaries_compose_iff {own : Contract} {inherited : List Contract} {r : Contract}
    (h : compose own inherited = .ok r) (hown : own.temporaries.Nodup)
    (hinherited : ∀ c ∈ inherited, Apart own.method c) :
    r.temporaries.Nodup ↔ NoneOvertaken (levelsOf own inherited) := by
  have hc := compose_eq_ok h
  have hlevels : ∀ p ∈ inherited.zipIdx 1, Apart own.method p.1 := fun p hp =>
    hinherited p.1 (List.fst_mem_of_mem_zipIdx hp)
  obtain ⟨htaken, hnodup⟩ := levels_spec hlevels own.temporaries
  have hsources : (composedSources own inherited).flatMap Contract.temporaries
      = own.temporaries ++ levelNames (levelsOf own inherited) := by
    rw [composedSources, List.flatMap_cons, List.flatMap_map]
    rfl
  have hafter : ∀ x ∈ own.temporaries ++ levelNames (levelsOf own inherited),
      x ∈ takenAfter own.method own.temporaries (inherited.zipIdx 1) := by
    intro x hx
    rcases List.mem_append.1 hx with hx | hx
    · exact subset_takenAfter own.method _ _ hx
    · exact (htaken x hx).2
  rw [hc.temporaries_perm.nodup_iff, hsources, List.nodup_append, List.nodup_append]
  constructor
  · rintro ⟨⟨-, hlevel, -⟩, -, -⟩
    exact hnodup.1 hlevel
  · intro hnone
    refine ⟨⟨hown, hnodup.2 hnone, ?_⟩, hc.guards_nodup, ?_⟩
    · intro x hx y hy hxy
      exact (htaken y hy).1 (hxy ▸ hx)
    · intro x hx y hy hxy
      exact hc.guards_free y hy (hxy ▸ hafter x hx)

/-! ### a chain that keeps its temporaries apart, and one that does not -/

/-- a method without parameters that records old values -/
def sizeContract (owner : Text) (vars : List OldVar) : Contract where
  method := { name := "Size", owner := owner, receiver := "s", visibility := .of .pub }
  pre := .set .empty 0 "s.open()"
  post := .set .empty 0 "s.size >= n"
  oldVars := .set .empty 0 vars

theorem apart_sizeContract (own : Method) (owner : Text) {vars : List OldVar}
    (hvars : ∀ v ∈ vars, ∃ n, Declares v.text n) (hnd : (vars.map OldVar.name).Nodup)
    (hsig : ∀ v ∈ vars, (signatureRenaming own (sizeContract owner vars).method).get? v.name
      = none) : Apart own (sizeContract owner vars) := by
  have htemps : (sizeContract owner vars).temporaries = vars.map OldVar.name := by
    show [(0, vars)].flatMap (fun e => e.2.map OldVar.name) ++ [] ++ [] = _
    simp
  constructor
  · constructor
    · intro a ha
      have hs : PlainName ("s" : Text) := plainName_of_decide (by decide)
      rw [List.mem_singleton.1 ha]
      exact .inr hs
    · intro s hs
      obtain ⟨e, he, hs⟩ := List.mem_flatMap.1 hs
      rw [List.mem_singleton.1 he] at hs
      obtain ⟨v, hv, rfl⟩ := List.mem_map.1 hs
      exact hvars v hv
    · intro s hs
      cases hs
  · rw [htemps]
    exact hnd
  · intro t ht
    rw [htemps] at ht
    obtain ⟨v, hv, rfl⟩ := List.mem_map.1 ht
    exact hsig v hv

def ownSize : Contract := sizeContract "Queue" [⟨"n int/n = s.size"⟩]

def inOrderSize : Contract := sizeContract "List" [⟨"n int/n = s.size"⟩, ⟨"var n_1 int/n_1 = 1"⟩]

/-- the temporary that must be renamed comes last -/
def overtakenSize : Contract := sizeContract "List" [⟨"n_1 int/n_1 = 1"⟩, ⟨"n int/n = s.size"⟩]

theorem declares_size : ∀ v ∈ inOrderSize.oldVars.list 0, ∃ n, Declares v.text n := by
  have hrest : ∀ t : Text, EndsName (' ' :: t) := by
    intro t c hc
    cases hc
    decide
  intro v hv
  rcases List.mem_cons.1 hv with rfl | hv
  · exact ⟨"n", declares_append (plainName_of_decide (by decide)) (hrest "int/n = s.size")⟩
  · rw [List.mem_singleton.1 hv]
    exact ⟨"n_1", plainName_of_decide (by decide), [], "var ", " int/n_1 = 1", rfl, by simp,
      hrest "int/n_1 = 1", .inr ⟨[], rfl, by simp⟩⟩

theorem nodup_temporaries_compose_iff_size :
    ∃ r, compose ownSize [inOrderSize, ownSize] = .ok r ∧ ownSize.temporaries.Nodup ∧
      (∀ c ∈ [inOrderSize, ownSize], Apart ownSize.method c) ∧
      NoneOvertaken (levelsOf ownSize [inOrderSize, ownSize]) ∧ r.temporaries.Nodup := by
  have hown : ownSize.temporaries.Nodup := by decide +kernel
  have hapart : ∀ c ∈ [inOrderSize, ownSize], Apart ownSize.method c := by
    intro c hc
    rcases List.mem_cons.1 hc with rfl | hc
    · exact apart_sizeContract _ _ declares_size (by decide +kernel) (by decide +kernel)
    · rw [List.mem_singleton.1 hc]
      refine apart_sizeContract _ _ (fun v hv => ?_) (by decide +kernel) (by decide +kernel)
      exact declares_size v (List.mem_cons.2 (.inl (List.mem_singleton.1 hv)))
  have hnone : NoneOvertaken (levelsOf ownSize [inOrderSize, ownSize]) := by decide +kernel
  have hok : (compose ownSize [inOrderSize, ownSize]).isOk = true := by decide +kernel
  cases h : compose ownSize [inOrderSize, ownSize] with
  | error e =>
    rw [h] at hok
    cases hok
  | ok r =>
    have hnodup := (nodup_temporaries_compose_iff h hown hapart).2 hnone
    exact ⟨r, rfl, hown, hapart, hnone, hnodup⟩

theorem temporaries_overtaken :
    ∃ r, compose ownSize [overtakenSize] = .ok r ∧ ownSize.temporaries.Nodup ∧
      overtakenSize.temporaries.Nodup ∧ ¬ r.temporaries.Nodup := by
  have hval : ((compose ownSize [overtakenSize]).toOption.map fun r => decide r.temporaries.Nodup)
      = some false := by decide +kernel
  cases h : compose ownSize [overtakenSize] with
  | error e =>
    rw [h] at hval
    cases hval
  | ok r =>
    rw [h] at hval
    refine ⟨r, rfl, by decide +kernel, by decide +kernel, ?_⟩
    exact of_decide_eq_false (Option.some.inj hval)

end ContractChecks
