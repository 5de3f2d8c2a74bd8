import ContractChecks.Module.Load
import ContractChecks.Proofs.Lists

/-!
# Planned jobs

What planning makes of each declaration, said for one declaration at a time.

* `inherited_eq`: a concrete declaration inherits from a source as often as the implementors of the
  source name it, in the order of the sources;
* `Planning.IsHeir`: the declaration inherits from some source;
* `isJob_iff`, `job?_eq_some`: the declarations that are jobs, and their jobs;
* `Planning.outcome?`, `outcomes_eq`: what becomes of the job of a declaration;
* `methods_collect_perm`: collecting by package keeps every checked method;
* `loadedItems`, `load_eq_ok`: loading a module is planning with the items of its packages.
-/

namespace ContractChecks

/-! ### inheritance -/

namespace Planning

variable {x : Planning} {found : List Found} {f : Found}

/-- a concrete declaration that implements an interface method with a contract -/
def IsHeir (x : Planning) (found : List Found) (f : Found) : Prop :=
  f.decl.isInterface = false ∧ ∃ s ∈ sources found, f.pos ∈ x.implementors s.found

/-- the heirs of a source among the declarations, one for each position -/
def heirs (found : List Found) (ps : List Position) (s : Source) : List (Found × Source) :=
  ps.filterMap fun pos =>
    (found.find? fun f => !f.decl.isInterface && f.pos = pos).map fun f => (f, s)

theorem bequests_eq (x : Planning) (found : List Found) :
    x.bequests found = (sources found).flatMap fun s => heirs found (x.implementors s.found) s := rfl

theorem inherited_flatMap {α : Type} (l : List α) (g : α → List (Found × Source)) (f : Found) :
    inherited (l.flatMap g) f = l.flatMap fun a => inherited (g a) f := by
  unfold inherited
  rw [List.filter_flatMap, List.map_flatMap]

theorem inherited_cons (b : Found × Source) (bs : List (Found × Source)) (f : Found) :
    inherited (b :: bs) f = if b.1.pos = f.pos then b.2 :: inherited bs f else inherited bs f := by
  unfold inherited
  by_cases h : b.1.pos = f.pos
  · rw [if_pos h, List.filter_cons_of_pos (by simpa using h), List.map_cons]
  · rw [if_neg h, List.filter_cons_of_neg (by simpa using h)]

theorem heirs_cons (found : List Found) (pos : Position) (ps : List Position) (s : Source) :
    heirs found (pos :: ps) s =
      ((found.find? fun f => !f.decl.isInterface && f.pos = pos).map fun f => (f, s)).toList
        ++ heirs found ps s := by
  unfold heirs
  rw [List.filterMap_cons]
  cases found.find? fun f => !f.decl.isInterface && f.pos = pos <;> rfl

theorem of_find? {pos : Position} {g : Found}
    (h : (found.find? fun f => !f.decl.isInterface && f.pos = pos) = some g) :
    g ∈ found ∧ g.decl.isInterface = false ∧ g.pos = pos := by
  have hg := List.find?_some h
  rw [Bool.and_eq_true, Bool.not_eq_true', decide_eq_true_eq] at hg
  exact ⟨List.mem_of_find?_eq_some h, hg⟩

/-- the source comes once for each time that the position is named -/
theorem inherited_heirs (hf : f ∈ found) (hconcrete : f.decl.isInterface = false)
    (ps : List Position) (s : Source) :
    inherited (heirs found ps s) f = List.replicate (ps.count f.pos) s := by
  induction ps with
  | nil => rfl
  | cons pos ps ih =>
    rw [heirs_cons, List.count_cons]
    cases hfind : found.find? fun f => !f.decl.isInterface && f.pos = pos with
    | none =>
      have hne : pos ≠ f.pos := by
        rintro rfl
        have hnot := List.find?_eq_none.1 hfind f hf
        simp [hconcrete] at hnot
      rw [if_neg (by simpa using hne)]
      exact ih
    | some g =>
      obtain ⟨-, -, rfl⟩ := of_find? hfind
      show inherited ((g, s) :: heirs found ps s) f = _
      rw [inherited_cons, ih]
      by_cases hpos : g.pos = f.pos
      · rw [if_pos hpos, if_pos (by simpa using hpos), List.replicate_succ]
      · rw [if_neg hpos, if_neg (by simpa using hpos)]
        rfl

theorem inherited_eq (hf : f ∈ found) (hconcrete : f.decl.isInterface = false) :
    inherited (x.bequests found) f = (sources found).flatMap fun s =>
      List.replicate ((x.implementors s.found).count f.pos) s := by
  rw [bequests_eq, inherited_flatMap]
  simp only [inherited_heirs hf hconcrete]

/-- only concrete declarations inherit -/
theorem inherited_interface (hpos : (found.map Found.pos).Nodup) (hf : f ∈ found)
    (hinterface : f.decl.isInterface = true) : inherited (x.bequests found) f = [] := by
  have hnone : (x.bequests found).filter (fun b => b.1.pos = f.pos) = [] := by
    rw [List.filter_eq_nil_iff]
    intro b hb hsame
    obtain ⟨s, -, hb⟩ := List.mem_flatMap.1 hb
    obtain ⟨pos, -, hb⟩ := List.mem_filterMap.1 hb
    obtain ⟨g, hfind, rfl⟩ := Option.map_eq_some_iff.1 hb
    obtain ⟨hg, hconcrete, -⟩ := of_find? hfind
    obtain rfl := List.inj_on_of_nodup_map hpos hg hf (of_decide_eq_true hsame)
    rw [hinterface] at hconcrete
    cases hconcrete
  unfold inherited
  rw [hnone, List.map_nil]

theorem inherited_ne_nil_iff (hpos : (found.map Found.pos).Nodup) (hf : f ∈ found) :
    inherited (x.bequests found) f ≠ [] ↔ x.IsHeir found f := by
  cases hinterface : f.decl.isInterface with
  | true =>
    rw [inherited_interface hpos hf hinterface]
    constructor
    · intro h
      exact absurd rfl h
    · rintro ⟨hconcrete, -⟩
      rw [hinterface] at hconcrete
      cases hconcrete
  | false =>
    rw [inherited_eq hf hinterface, ne_eq, List.flatMap_eq_nil_iff]
    constructor
    · intro h
      push Not at h
      obtain ⟨s, hs, hne⟩ := h
      refine ⟨hinterface, s, hs, List.count_pos_iff.1 (Nat.pos_of_ne_zero ?_)⟩
      intro hzero
      rw [hzero] at hne
      exact hne rfl
    · rintro ⟨-, s, hs, hmem⟩ h
      have hzero := (List.replicate_eq_nil_iff s).1 (h s hs)
      exact absurd hmem (List.count_eq_zero.1 hzero)

/-! ### jobs -/

theorem isJob_iff (hpos : (found.map Found.pos).Nodup) (hf : f ∈ found) :
    x.isJob (x.bequests found) f = true ↔
      ((own? f).isSome = true ∧ (f.decl.isInterface = false ∨ x.mode.wrapsCalls = true)) ∨
        x.IsHeir found f := by
  have hheir := inherited_ne_nil_iff (x := x) hpos hf
  rw [← List.isEmpty_eq_false_iff] at hheir
  rw [isJob, Bool.and_eq_true, Bool.or_eq_true, Bool.or_eq_true, Bool.not_eq_true',
    Bool.not_eq_true', hheir]
  constructor
  · rintro ⟨hown | hh, hmode⟩
    · exact .inl ⟨hown, hmode⟩
    · exact .inr hh
  · rintro (⟨hown, hmode⟩ | hh)
    · exact ⟨.inl hown, hmode⟩
    · exact ⟨.inr hh, .inl hh.1⟩

theorem job?_eq_some {bequests : List (Found × Source)} {j : Job} : job? bequests f = some j ↔
    ∃ c, f.decl.contract = .ok c ∧
      j = { found := f, own := c.contract, inherited := inherited bequests f } := by
  unfold job?
  cases f.decl.contract with
  | ok c =>
    constructor
    · intro h
      exact ⟨c, rfl, (Option.some.inj h).symm⟩
    · rintro ⟨d, hd, rfl⟩
      cases hd
      rfl
  | error e =>
    constructor
    · intro h
      cases h
    · rintro ⟨d, hd, -⟩
      cases hd

/-- what becomes of the job of a declaration, if it is one -/
def outcome? (x : Planning) (found : List Found) (f : Found) : Option Outcome :=
  if x.isJob (x.bequests found) f then
    (job? (x.bequests found) f).map fun j => j.run x.mode (.scanning (x.plan found).crosscut)
  else none

theorem outcomes_eq (x : Planning) (found : List Found) :
    (runJobs (x.plan found) x.mode).map Prod.snd = found.filterMap (x.outcome? found) := by
  rw [runJobs, List.map_map]
  show (((found.filter _).filterMap _).map _) = _
  rw [List.filterMap_filter, List.map_filterMap]
  congr 1
  funext f
  unfold outcome?
  split
  · rfl
  · rfl

end Planning

/-! ### outcomes -/

theorem Job.run_cases (j : Job) (mode : Mode) (oracle : Oracle) :
    (∃ r, j.run mode oracle = .failed r ∧ r.finding.pos = j.found.pos) ∨
      ∃ c, j.run mode oracle = .checked j.found.package c ∧ c.pos = j.found.pos ∧
        j.composed = .ok c.contract ∧ synthesize c.contract mode oracle = .ok c.wrapper := by
  unfold Job.run
  cases hcomposed : j.composed with
  | error e => exact .inl ⟨_, rfl, rfl⟩
  | ok c =>
    cases hwrapper : synthesize c mode oracle with
    | error e =>
      left
      simp only [hwrapper]
      exact ⟨_, rfl, rfl⟩
    | ok w =>
      right
      simp only [hwrapper]
      exact ⟨_, rfl, rfl, rfl, hwrapper⟩

namespace Outcome

theorem methods_collect_perm (os : List Outcome) :
    ((collect os).flatMap CheckedPackage.methods).Perm ((os.filterMap checked?).map Prod.snd) := by
  unfold collect
  rw [List.flatMap_map]
  have hsorted := List.mergeSort_perm ((os.filterMap checked?).map Prod.fst).eraseDups
    fun a b => a.path.le b.path
  refine (hsorted.flatMap_right _).trans ?_
  have hgroup := flatMap_filter_perm (nodup_eraseDups ((os.filterMap checked?).map Prod.fst))
    (os.filterMap checked?) fun e he => List.mem_eraseDups.2 (List.mem_map_of_mem he)
  refine .trans ?_ (hgroup.map Prod.snd)
  rw [List.map_flatMap]
  exact .flatMap_left _ fun p _ => List.mergeSort_perm _ _

end Outcome

/-! ### loading -/

def loadedItems (o : LoadOptions) (m : SourceModule) : List Item :=
  packageItems m (Universe.of m o.tests) (m.matched o.tests o.dir o.patterns)

/-- what the items of the selected packages are planned with -/
def loadPlanning (o : LoadOptions) (m : SourceModule) (r : TypeReport) : Planning :=
  planningFor o (Universe.of m o.tests) r (loadedItems o m)

theorem load_eq_ok {o : LoadOptions} {m : SourceModule} {r : TypeReport} {typeError : Option Text}
    {l : Loaded} (h : load o m r typeError = .ok l) :
    l = (loadPlanning o m r).execute (loadedItems o m) := by
  unfold load at h
  split at h
  · cases h
  · cases typeError with
    | some why => cases h
    | none =>
      cases h
      rfl

theorem foundIn_perm (items : List Item) : (foundIn items).Perm (items.filterMap Item.found?) :=
  List.mergeSort_perm _ _

/-- what is made of each declaration, in the order of the items -/
theorem filterMap_foundIn_perm {β : Type} (g : Found → Option β) (items : List Item) :
    ((foundIn items).filterMap g).Perm (items.filterMap fun it => it.found?.bind g) := by
  rw [← List.filterMap_filterMap]
  exact (foundIn_perm items).filterMap g

theorem mem_foundIn {items : List Item} {f : Found} : f ∈ foundIn items ↔ .declaration f ∈ items := by
  rw [(foundIn_perm items).mem_iff, List.mem_filterMap]
  constructor
  · rintro ⟨it, hit, hf⟩
    cases it with
    | declaration g =>
      cases hf
      exact hit
    | rejected r => cases hf
    | assertion i t => cases hf
  · intro h
    exact ⟨_, h, rfl⟩

theorem foundIn_of_sorted {items : List Item}
    (h : (items.filterMap Item.found?).Pairwise fun a b => a.pos.le b.pos = true) :
    foundIn items = items.filterMap Item.found? := List.mergeSort_of_pairwise h

end ContractChecks
