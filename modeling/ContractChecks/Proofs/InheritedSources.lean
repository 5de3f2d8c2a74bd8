import ContractChecks.Proofs.DeclarationOutcomes
import ContractChecks.Proofs.Except
import ContractChecks.Proofs.PositionOrder

/-!
# What a method inherits, and how often

A method inherits from an interface method once for each time that the method's type is counted among
the types that implement the interface.

* `Job.timesInherited`, `Job.InSourceOrder`: how often a job has a source, and the order of its sources;
* `inherited_job`: a source is inherited as often as the implementors of the source name the heir;
* `count_implementingMethods`: that is how often the type of the heir is counted;
* `inherits_once_iff`: every source is inherited once, in the order of the sources, unless only
  asserted types count and a type that has the method is asserted more than once.
-/

namespace ContractChecks

namespace Job

/-- how often a job inherits from the interface method of a source -/
def timesInherited (j : Job) (s : Source) : Nat :=
  j.inherited.countP fun t => t.found.pos = s.found.pos

/-- the inherited contracts come in the order of the interface methods -/
def InSourceOrder (j : Job) : Prop :=
  j.inherited.Pairwise fun a b => a.found.pos.le b.found.pos = true

end Job

/-! ### sources -/

namespace Planning

variable {x : Planning} {found : List Found} {f : Found} {s : Source}

/-- the sources stand to each other as the declarations do -/
theorem pairwise_sources (r : Position → Position → Prop)
    (h : found.Pairwise fun a b => r a.pos b.pos) :
    (sources found).Pairwise fun a b => r a.found.pos b.found.pos := by
  refine List.Pairwise.filterMap _ ?_ (h.filter _)
  intro a b hab s hs t ht
  obtain ⟨c, -, rfl⟩ := Option.map_eq_some_iff.1 hs
  obtain ⟨d, -, rfl⟩ := Option.map_eq_some_iff.1 ht
  exact hab

/-- a source that is taken several times counts as often -/
theorem countP_flatMap_replicate {ss : List Source} (n : Source → Nat)
    (hdistinct : ss.Pairwise fun a b => a.found.pos ≠ b.found.pos) (hs : s ∈ ss) :
    (ss.flatMap fun t => List.replicate (n t) t).countP (fun t => t.found.pos = s.found.pos) = n s := by
  induction ss with
  | nil => cases hs
  | cons a ss ih =>
    obtain ⟨hne, hdistinct⟩ := List.pairwise_cons.1 hdistinct
    rw [List.flatMap_cons, List.countP_append, List.countP_replicate]
    rcases List.mem_cons.1 hs with rfl | hs
    · have hnone : (ss.flatMap fun t => List.replicate (n t) t).countP
          (fun t => t.found.pos = s.found.pos) = 0 := by
        rw [List.countP_eq_zero]
        intro t ht hat
        obtain ⟨b, hb, ht⟩ := List.mem_flatMap.1 ht
        rw [List.eq_of_mem_replicate ht, decide_eq_true_eq] at hat
        exact hne b hb hat.symm
      rw [hnone, if_pos (by simp), Nat.add_zero]
    · rw [if_neg (by simpa using hne s hs), Nat.zero_add]
      exact ih hdistinct hs

theorem pairwise_flatMap_replicate {ss : List Source} (n : Source → Nat)
    (hsorted : ss.Pairwise fun a b => a.found.pos.le b.found.pos = true) :
    (ss.flatMap fun t => List.replicate (n t) t).Pairwise
      fun a b => a.found.pos.le b.found.pos = true := by
  rw [List.pairwise_flatMap]
  constructor
  · intro t _
    exact List.pairwise_replicate.2 (.inr (Position.le_refl _))
  · refine hsorted.imp fun hle b hb d hd => ?_
    rw [List.eq_of_mem_replicate hb, List.eq_of_mem_replicate hd]
    exact hle

/-! ### jobs -/

theorem mem_jobs {j : Job} : j ∈ (x.plan found).jobs ↔
    j.found ∈ found ∧ x.isJob (x.bequests found) j.found = true ∧
      job? (x.bequests found) j.found = some j := by
  show j ∈ (found.filter _).filterMap _ ↔ _
  rw [List.mem_filterMap]
  constructor
  · rintro ⟨g, hg, hjob⟩
    obtain ⟨hg, hchosen⟩ := List.mem_filter.1 hg
    obtain ⟨c, -, rfl⟩ := job?_eq_some.1 hjob
    exact ⟨hg, hchosen, hjob⟩
  · rintro ⟨hg, hchosen, hjob⟩
    exact ⟨_, List.mem_filter.2 ⟨hg, hchosen⟩, hjob⟩

/-- the job of a declaration has each source as often as the implementors of the source name it -/
theorem inherited_job (hpos : (found.map Found.pos).Nodup)
    (hsorted : found.Pairwise fun a b => a.pos.le b.pos = true) {j : Job}
    (hj : j ∈ (x.plan found).jobs) (hconcrete : j.found.decl.isInterface = false) :
    j.InSourceOrder ∧ ∀ s ∈ sources found,
      j.timesInherited s = (x.implementors s.found).count j.found.pos := by
  obtain ⟨hf, -, hj⟩ := mem_jobs.1 hj
  have hinherited : j.inherited = inherited (x.bequests found) j.found := by
    obtain ⟨c, -, hj⟩ := job?_eq_some.1 hj
    rw [hj]
  rw [inherited_eq hf hconcrete] at hinherited
  have hdistinct := pairwise_sources (· ≠ ·) (List.pairwise_map.1 hpos)
  constructor
  · unfold Job.InSourceOrder
    rw [hinherited]
    exact pairwise_flatMap_replicate _ (pairwise_sources (fun p q => p.le q = true) hsorted)
  · intro s hs
    rw [Job.timesInherited, hinherited]
    exact countP_flatMap_replicate _ hdistinct hs

/-- an heir whose own directives are not faulty has a job -/
theorem exists_job_of_heir (hpos : (found.map Found.pos).Nodup) (hf : f ∈ found)
    (hheir : x.IsHeir found f) {c : DeclaredContract} (hc : f.decl.contract = .ok c) :
    ∃ j ∈ (x.plan found).jobs, j.found = f := by
  refine ⟨{ found := f, own := c.contract, inherited := inherited (x.bequests found) f }, ?_, rfl⟩
  exact mem_jobs.2 ⟨hf, (isJob_iff hpos hf).2 (.inr hheir), job?_eq_some.2 ⟨c, hc, rfl⟩⟩

end Planning

/-! ### implementing types -/

namespace Found

theorem isMethodOf_iff {f : Found} {k : TypeKey} {name : Text} : f.isMethodOf k name = true ↔
    ∃ r a, f.decl.holder = .receiver r a ∧ f.receiverKey? = some k ∧ r.typeArgs = [] ∧
      f.decl.name = name := by
  unfold isMethodOf
  cases f.decl.holder with
  | receiver r a => simp [and_assoc]
  | interface i => simp
  | package => simp

theorem key_of_isMethodOf {f : Found} {k l : TypeKey} {name name' : Text}
    (hk : f.isMethodOf k name = true) (hl : f.isMethodOf l name' = true) : k = l := by
  obtain ⟨-, -, -, hk, -⟩ := isMethodOf_iff.1 hk
  obtain ⟨-, -, -, hl, -⟩ := isMethodOf_iff.1 hl
  exact Option.some.inj (hk.symm.trans hl)

theorem concrete_of_isMethodOf {f : Found} {k : TypeKey} {name : Text}
    (h : f.isMethodOf k name = true) : f.decl.isInterface = false := by
  obtain ⟨r, a, hholder, -⟩ := isMethodOf_iff.1 h
  rw [Declaration.isInterface, hholder]

end Found

section
variable {found : List Found} {types : TypeKey → List TypeKey} {f g : Found} {k : TypeKey}

theorem of_find?_isMethodOf {name : Text} (h : (found.find? fun g => g.isMethodOf k name) = some f) :
    f ∈ found ∧ f.isMethodOf k name = true :=
  ⟨List.mem_of_find?_eq_some h, List.find?_some (p := fun g : Found => g.isMethodOf k name) h⟩

/-- a method is found once for each time that its type is given -/
theorem count_methods (hpos : (found.map Found.pos).Nodup) {name : Text}
    (hfind : (found.find? fun g => g.isMethodOf k name) = some f) (ks : List TypeKey) :
    (ks.filterMap fun l => (found.find? fun g => g.isMethodOf l name).map Found.pos).count f.pos
      = ks.count k := by
  induction ks with
  | nil => rfl
  | cons l ks ih =>
    rw [List.filterMap_cons, List.count_cons]
    by_cases hl : l = k
    · subst hl
      rw [hfind, if_pos (by simp)]
      show (f.pos :: _).count f.pos = _
      rw [List.count_cons_self, ih]
    · rw [if_neg (by simpa using hl), Nat.add_zero, ← ih]
      cases hother : found.find? fun g => g.isMethodOf l name with
      | none => rfl
      | some g =>
        -- methods at one position are the same, and so have the same type
        have hne : g.pos ≠ f.pos := by
          intro hsame
          obtain ⟨hg, hgl⟩ := of_find?_isMethodOf hother
          obtain ⟨hf, hfk⟩ := of_find?_isMethodOf hfind
          obtain rfl := List.inj_on_of_nodup_map hpos hg hf hsame
          exact hl (Found.key_of_isMethodOf hgl hfk)
        exact List.count_cons_of_ne hne

theorem count_implementingMethods (hpos : (found.map Found.pos).Nodup) {i : TypeKey}
    (hi : g.interfaceKey? = some i)
    (hfind : (found.find? fun h => h.isMethodOf k g.decl.name) = some f) :
    (implementingMethods found types g).count f.pos = (types i).count k := by
  unfold implementingMethods
  rw [hi]
  exact count_methods hpos hfind (types i)

theorem find?_of_mem_implementingMethods (hpos : (found.map Found.pos).Nodup) (hf : f ∈ found)
    (h : f.pos ∈ implementingMethods found types g) : ∃ i k, g.interfaceKey? = some i ∧
      (found.find? fun h => h.isMethodOf k g.decl.name) = some f := by
  unfold implementingMethods at h
  cases hi : g.interfaceKey? with
  | none =>
    rw [hi] at h
    cases h
  | some i =>
    rw [hi] at h
    obtain ⟨k, -, hk⟩ := List.mem_filterMap.1 h
    obtain ⟨e, hfind, he⟩ := Option.map_eq_some_iff.1 hk
    obtain rfl := List.inj_on_of_nodup_map hpos (List.mem_of_find?_eq_some hfind) hf he
    exact ⟨i, k, rfl, hfind⟩

end

theorem nodup_implementors (u : Universe) (ts : List TypeExpr) (i : TypeKey) :
    (u.implementors ts i).Nodup :=
  nodup_eraseDups _

theorem length_assertedTypes_le (u : Universe) (r : TypeReport)
    (assertions : List (TypeKey × TypeKey)) (i : TypeKey) :
    (assertedTypes u r assertions i).length ≤ assertions.length := by
  unfold assertedTypes
  split
  · rw [List.length_map]
    exact List.length_filter_le _ _
  · exact Nat.zero_le _

/-- Where every heir has a job, the job has each interface contract that the method is reported to
implement exactly once, and the contracts in the order of the interface methods, precisely if no type
with such a method is asserted to implement the interface more than once.  Where all types count,
that is so without a condition. -/
theorem inherits_once_iff (o : LoadOptions) (u : Universe) (r : TypeReport) {items : List Item}
    (hpos : ((foundIn items).map Found.pos).Nodup)
    (hok : ∀ f ∈ foundIn items, (planningFor o u r items).IsHeir (foundIn items) f →
      ∃ c, f.decl.contract = .ok c) :
    (∀ s ∈ Planning.sources (foundIn items), ∀ f ∈ foundIn items, f.decl.isInterface = false →
      f.pos ∈ (planningFor o u r items).implementors s.found →
      ∃ j ∈ ((planningFor o u r items).plan (foundIn items)).jobs,
        j.found = f ∧ j.timesInherited s = 1 ∧ j.InSourceOrder) ↔
    (o.assertedOnly = true → ∀ s ∈ Planning.sources (foundIn items), ∀ i k,
      s.found.interfaceKey? = some i →
      (∃ f ∈ foundIn items, f.isMethodOf k s.found.decl.name = true) →
      (assertedTypes u r (items.filterMap Item.assertion?) i).count k ≤ 1) := by
  have hsorted : (foundIn items).Pairwise fun a b => a.pos.le b.pos = true :=
    pairwise_mergeSort_pos Found.pos _
  constructor
  · intro honce hasserted s hs i k hi ⟨e, he, hmethod⟩
    obtain ⟨f, hfind⟩ := Option.isSome_iff_exists.1
      (List.find?_isSome (p := fun h => h.isMethodOf k s.found.decl.name) |>.2 ⟨e, he, hmethod⟩)
    have hcount : ((planningFor o u r items).implementors s.found).count f.pos
        = (assertedTypes u r (items.filterMap Item.assertion?) i).count k := by
      show (implementingMethods (foundIn items) _ s.found).count f.pos = _
      rw [count_implementingMethods hpos hi hfind, implementingTypes, if_pos hasserted]
    rw [← hcount]
    by_cases hzero : ((planningFor o u r items).implementors s.found).count f.pos = 0
    · omega
    · obtain ⟨hf, hfk⟩ := of_find?_isMethodOf hfind
      have hconcrete := Found.concrete_of_isMethodOf hfk
      obtain ⟨j, hj, rfl, htimes, -⟩ := honce s hs f hf hconcrete
        (List.count_pos_iff.1 (Nat.pos_of_ne_zero hzero))
      have hsame := (Planning.inherited_job hpos hsorted hj hconcrete).2 s hs
      omega
  · intro hlimit s hs f hf hconcrete hmem
    have hheir : (planningFor o u r items).IsHeir (foundIn items) f := ⟨hconcrete, s, hs, hmem⟩
    obtain ⟨c, hc⟩ := hok f hf hheir
    obtain ⟨j, hj, rfl⟩ := Planning.exists_job_of_heir hpos hf hheir hc
    obtain ⟨horder, htimes⟩ := Planning.inherited_job hpos hsorted hj hconcrete
    refine ⟨j, hj, rfl, ?_, horder⟩
    obtain ⟨i, k, hi, hfind⟩ := find?_of_mem_implementingMethods hpos hf hmem
    have hcount : ((planningFor o u r items).implementors s.found).count j.found.pos
        = (implementingTypes u r (items.filterMap Item.assertion?) o.assertedOnly i).count k :=
      count_implementingMethods hpos hi hfind
    have hle :
        (implementingTypes u r (items.filterMap Item.assertion?) o.assertedOnly i).count k ≤ 1 := by
      unfold implementingTypes
      split
      case isTrue hasserted =>
        exact hlimit hasserted s hs i k hi ⟨j.found, of_find?_isMethodOf hfind⟩
      case isFalse => exact List.nodup_iff_count_le_one.1 (nodup_implementors u _ i) k
    have hone := List.count_pos_iff.2 hmem
    rw [htimes s hs]
    omega

/-- a type asserted once inherits once -/
theorem inherits_once_put :
    ∃ s f, s ∈ Planning.sources (foundIn (loadedItems bagOptions checkedBag)) ∧ f.pos = putPos ∧
    ∃ j ∈ ((loadPlanning bagOptions checkedBag .complete).plan
        (foundIn (loadedItems bagOptions checkedBag))).jobs,
      j.found = f ∧ j.timesInherited s = 1 ∧ j.InSourceOrder := by
  obtain ⟨f, hf, hp, -, hconcrete, s, hs, hmem⟩ := exists_heir bagOptions
    (Universe.of checkedBag false) .complete (loadedItems bagOptions checkedBag) putPos (fun _ => true)
    (by decide +kernel) (by decide +kernel)
  have hok : ∀ f ∈ (loadedItems bagOptions checkedBag).filterMap Item.found?,
      (f.decl.contract.toOption.any fun _ => true) = true := by decide +kernel
  have hassertions : ((loadedItems bagOptions checkedBag).filterMap Item.assertion?).length = 1 := by
    decide +kernel
  refine ⟨s, f, hs, hp,
    (inherits_once_iff bagOptions _ _ ?_ ?_).2 ?_ s hs f (mem_foundIn.2 hf) hconcrete hmem⟩
  · exact nodup_pos_foundIn (by decide +kernel)
  · intro g hg _
    obtain ⟨c, hc, -⟩ := exists_eq_ok (hok g ((foundIn_perm _).mem_iff.1 hg))
    exact ⟨c, hc⟩
  · intro _ _ _ i k _ _
    calc _ ≤ (assertedTypes _ _ _ i).length := List.count_le_length
      _ ≤ _ := length_assertedTypes_le _ _ _ i
      _ = 1 := hassertions

def repeatedBag : SourceModule := bagModule "//rac:requires x > 1" 2

/-- a type asserted twice inherits twice -/
theorem inherits_twice_put :
    ∃ s ∈ Planning.sources (foundIn (loadedItems bagOptions repeatedBag)),
      ∃ j ∈ ((loadPlanning bagOptions repeatedBag .complete).plan
        (foundIn (loadedItems bagOptions repeatedBag))).jobs,
        j.found.pos = putPos ∧ j.timesInherited s = 2 := by
  have hsorted : foundIn (loadedItems bagOptions repeatedBag)
      = (loadedItems bagOptions repeatedBag).filterMap Item.found? :=
    foundIn_of_sorted (by decide +kernel)
  unfold loadPlanning planningFor
  rw [hsorted]
  decide +kernel

end ContractChecks
