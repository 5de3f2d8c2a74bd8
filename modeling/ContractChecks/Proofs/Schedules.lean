import Mathlib.Data.List.Pairwise
import ContractChecks.Proofs.DeclarationOutcomes
import ContractChecks.Proofs.ResultOrder
import ContractChecks.Proofs.WorkerPool

/-!
# Schedules

When the workers have ended all jobs, the wrappers of each package, the packages and the results are
sorted.  The packages come out of a table in any order, and a sort may exchange what it does not tell
apart.  Nothing of this can be seen in what is loaded, since declarations stand at different places.

* `Listing wrappers ps`: the packages `ps` as they may come out of the table, sorted;
* `Listing.unique`: there is one way only, if paths and places tell packages and wrappers apart;
* `Planning.reports`: what is reported about one item; `Planning.reports_unique`: the reports about one
  item are all the same;
* `Planning.Schedules`: the packages and results that a load may give;
* `Planning.schedules_iff`: there is just one possibility, whatever the workers do.
-/

namespace ContractChecks

/-! ### packages out of a table -/

structure Listing (wrappers : PackageInfo → List CheckedMethod) (ps : List CheckedPackage) : Prop where
  nodup : (ps.map CheckedPackage.info).Nodup
  mem_iff : ∀ p, p ∈ ps.map CheckedPackage.info ↔ wrappers p ≠ []
  methods : ∀ P ∈ ps, P.methods.Perm (wrappers P.info)
  byPosition : ∀ P ∈ ps, P.methods.Pairwise fun a b => a.pos.le b.pos = true
  byPath : (ps.map CheckedPackage.info).Pairwise fun p q => p.path.le q.path = true

/-- places tell wrappers apart, and paths the packages they belong to -/
structure ToldApart (wrappers : PackageInfo → List CheckedMethod) : Prop where
  places : ∀ p, ∀ a ∈ wrappers p, ∀ b ∈ wrappers p, a.pos.le b.pos = true → b.pos.le a.pos = true → a = b
  paths : ∀ p q, wrappers p ≠ [] → wrappers q ≠ [] → p.path = q.path → p = q

namespace Listing

variable {w w' : PackageInfo → List CheckedMethod} {ps qs : List CheckedPackage}

/-- only what is in the table counts, not its order -/
theorem of_perm (hp : Listing w ps) (hw : ∀ p, (w p).Perm (w' p)) : Listing w' ps where
  nodup := hp.nodup
  mem_iff p := by
    rw [hp.mem_iff, ne_eq, ne_eq, ← List.length_eq_zero_iff, ← List.length_eq_zero_iff, (hw p).length_eq]
  methods P hP := (hp.methods P hP).trans (hw P.info)
  byPosition := hp.byPosition
  byPath := hp.byPath

theorem infos_eq (hp : Listing w ps) (hq : Listing w qs) (hw : ToldApart w) :
    ps.map CheckedPackage.info = qs.map CheckedPackage.info := by
  refine List.Perm.eq_of_pairwise ?_ hp.byPath hq.byPath ?_
  · intro p q hmem hmem' hpq hqp
    exact hw.paths p q ((hp.mem_iff p).1 hmem) ((hq.mem_iff q).1 hmem') (Text.le_antisymm hpq hqp)
  · rw [List.perm_ext_iff_of_nodup hp.nodup hq.nodup]
    intro p
    rw [hp.mem_iff, hq.mem_iff]

theorem methods_eq (hp : Listing w ps) (hw : ToldApart w) {P : CheckedPackage} (hP : P ∈ ps) :
    P.methods = (w P.info).mergeSort fun a b => a.pos.le b.pos := by
  have hsort := List.mergeSort_perm (w P.info) fun a b => a.pos.le b.pos
  refine List.Perm.eq_of_pairwise ?_ (hp.byPosition P hP) (pairwise_mergeSort_pos CheckedMethod.pos _)
    ((hp.methods P hP).trans hsort.symm)
  intro a b ha hb
  exact hw.places P.info a ((hp.methods P hP).mem_iff.1 ha) b (hsort.mem_iff.1 hb)

theorem eq_map (hp : Listing w ps) (hw : ToldApart w) :
    ps = (ps.map CheckedPackage.info).map fun p => ⟨p, (w p).mergeSort fun a b => a.pos.le b.pos⟩ := by
  rw [List.map_map]
  refine (List.map_id ps).symm.trans (List.map_congr_left fun P hP => ?_)
  show P = ⟨P.info, _⟩
  rw [← hp.methods_eq hw hP]

theorem unique (hp : Listing w ps) (hq : Listing w qs) (hw : ToldApart w) : ps = qs := by
  rw [hp.eq_map hw, hq.eq_map hw, hp.infos_eq hq hw]

end Listing

namespace Outcome

theorem mem_infos {os : List Outcome} {p : PackageInfo} :
    p ∈ (os.filterMap checked?).map Prod.fst ↔ methodsAt os p ≠ [] := by
  unfold methodsAt
  rw [ne_eq, List.map_eq_nil_iff, List.filter_eq_nil_iff, List.mem_map]
  push Not
  simp only [decide_eq_true_eq]

/-- sorting the outcomes by package is one way to list them -/
theorem listing_collect (os : List Outcome) : Listing (methodsAt os) (collect os) := by
  have hinfos : (collect os).map CheckedPackage.info
      = ((os.filterMap checked?).map Prod.fst).eraseDups.mergeSort fun a b => a.path.le b.path := by
    unfold collect
    rw [List.map_map]
    exact List.map_id _
  have hsort := List.mergeSort_perm ((os.filterMap checked?).map Prod.fst).eraseDups
    fun a b => a.path.le b.path
  refine ⟨?_, fun p => ?_, fun P hP => ?_, fun P hP => ?_, ?_⟩
  · rw [hinfos, hsort.nodup_iff]
    exact nodup_eraseDups _
  · rw [hinfos, hsort.mem_iff, List.mem_eraseDups, mem_infos]
  · obtain ⟨p, -, rfl⟩ := List.mem_map.1 hP
    exact List.mergeSort_perm _ _
  · obtain ⟨p, -, rfl⟩ := List.mem_map.1 hP
    exact pairwise_mergeSort_pos CheckedMethod.pos _
  · rw [hinfos]
    apply List.pairwise_mergeSort
    · intro a b c
      exact Text.le_trans
    · intro a b
      rw [Bool.or_eq_true]
      exact Text.le_total _ _

theorem methodsAt_perm {os os' : List Outcome} (h : os.Perm os') (p : PackageInfo) :
    (methodsAt os p).Perm (methodsAt os' p) :=
  ((h.filterMap _).filter _).map _

end Outcome

/-! ### items at different places -/

/-- the declarations of the items stand at different places, and their packages have different paths -/
structure DistinctItems (items : List Item) : Prop where
  places : (items.filterMap Item.pos?).Pairwise fun p q => ¬(p.file = q.file ∧ p.offset = q.offset)
  offsets : ∀ p ∈ items.filterMap Item.pos?, p.InFile
  paths : ∀ f ∈ items.filterMap Item.found?, ∀ g ∈ items.filterMap Item.found?,
    f.package.path = g.package.path → f.package = g.package

/-- the items stand at different places, if they stand anywhere -/
def Item.Apart (a b : Item) : Prop :=
  ∀ p, a.pos? = some p → ∀ q, b.pos? = some q → ¬(p.file = q.file ∧ p.offset = q.offset)

instance : Std.Symm Item.Apart where
  symm _ _ h p hp q hq hplace := h q hq p hp ⟨hplace.1.symm, hplace.2.symm⟩

theorem DistinctItems.eq_of_place {items : List Item} (h : DistinctItems items) {it it' : Item}
    {p q : Position} (hit : it ∈ items) (hit' : it' ∈ items) (hp : it.pos? = some p)
    (hq : it'.pos? = some q) (hplace : p.file = q.file ∧ p.offset = q.offset) : it = it' := by
  have hapart : items.Pairwise Item.Apart := List.pairwise_filterMap.1 h.places
  by_contra hne
  exact hapart.forall hit hit' hne p hp q hq hplace

/-! ### reports -/

namespace Planning

variable {x : Planning} {items : List Item} {found : List Found} {it : Item} {r r' : Result}

def reports (x : Planning) (found : List Found) (it : Item) : List Result :=
  it.result?.toList ++ ((it.found?.bind early?).toList ++ (it.found?.bind (x.late? found)).toList)
    ++ (it.found?.bind (x.failed? found)).toList

theorem mem_reports_declaration {f : Found} : r ∈ x.reports found (.declaration f) ↔
    early? f = some r ∨ x.late? found f = some r ∨ x.failed? found f = some r := by
  simp [reports, Item.result?, Item.found?]

theorem reports_rejected (f : Finding) : x.reports found (.rejected f) = [.leaf f] := rfl

theorem pos_of_mem_reports (h : r ∈ x.reports found it) : it.pos? = some r.finding.pos := by
  cases it with
  | assertion i t => cases h
  | rejected f =>
    rw [reports_rejected, List.mem_singleton] at h
    rw [h]
    rfl
  | declaration f =>
    rcases mem_reports_declaration.1 h with h | h | h
    · rw [pos_of_early? h]
      rfl
    · rw [pos_of_late? h]
      rfl
    · rw [pos_of_failed? h]
      rfl

/-- a declaration may be reported twice, but always with the same reason -/
theorem reports_unique (h : r ∈ x.reports found it) (h' : r' ∈ x.reports found it) : r = r' := by
  cases it with
  | assertion i t => cases h
  | rejected f =>
    rw [reports_rejected, List.mem_singleton] at h h'
    rw [h, h']
  | declaration f =>
    rw [mem_reports_declaration] at h h'
    cases hc : f.decl.contract with
    | ok c =>
      obtain ⟨hearly, hlate, -⟩ := outcomes_of_ok x found hc
      rw [hearly, hlate] at h h'
      have hr : x.failed? found f = some r := by simpa using h
      have hr' : x.failed? found f = some r' := by simpa using h'
      exact Option.some.inj (hr.symm.trans hr')
    | error e =>
      obtain ⟨-, hfailed, hearly, hlate⟩ := outcomes_of_error x found hc
      have hsame : ∀ s, early? f = some s ∨ x.late? found f = some s ∨ x.failed? found f = some s →
          s = f.result e.message [] := by
        rw [hearly, hlate, hfailed]
        intro s hs
        split at hs <;> split at hs <;> simp_all
      rw [hsame r h, hsame r' h']

/-- what is reported before the jobs are run -/
def reported (x : Planning) (items : List Item) : List Result :=
  items.filterMap Item.result? ++ (x.plan (foundIn items)).results

theorem results_execute (x : Planning) (items : List Item) : (x.execute items).results
    = sortResults (x.reported items ++ (runJobs (x.plan (foundIn items)) x.mode).filterMap
      fun e => e.2.result?) := rfl

theorem mem_results (h : r ∈ x.reported items
      ++ (runJobs (x.plan (foundIn items)) x.mode).filterMap fun e => e.2.result?) :
    ∃ it ∈ items, r ∈ x.reports (foundIn items) it := by
  rw [reported, results_plan, results_runJobs] at h
  have hfound : ∀ {g : Found → Option Result}, r ∈ (foundIn items).filterMap g →
      ∃ f, .declaration f ∈ items ∧ g f = some r := by
    intro g hr
    obtain ⟨f, hf, hg⟩ := List.mem_filterMap.1 hr
    exact ⟨f, mem_foundIn.1 hf, hg⟩
  rcases List.mem_append.1 h with h | h
  · rcases List.mem_append.1 h with h | h
    · obtain ⟨it, hit, hr⟩ := List.mem_filterMap.1 h
      exact ⟨it, hit, List.mem_append_left _ (List.mem_append_left _ (Option.mem_toList.2 hr))⟩
    · rcases List.mem_append.1 h with h | h
      · obtain ⟨f, hf, hr⟩ := hfound h
        exact ⟨_, hf, mem_reports_declaration.2 (.inl hr)⟩
      · obtain ⟨f, hf, hr⟩ := hfound h
        exact ⟨_, hf, mem_reports_declaration.2 (.inr (.inl hr))⟩
  · obtain ⟨f, hf, hr⟩ := hfound h
    exact ⟨_, hf, mem_reports_declaration.2 (.inr (.inr hr))⟩

/-! ### one possibility -/

def work (x : Planning) (items : List Item) (j : Job) : Outcome :=
  j.run x.mode (.scanning (x.plan (foundIn items)).crosscut)

/-- The packages `ps` and the results `rs` that a load may give.  The files are read by workers too, so
what is reported before the jobs are run may be in any order. -/
def Schedules (x : Planning) (workers : Nat) (items : List Item) (ps : List CheckedPackage)
    (rs : List Result) : Prop :=
  ∃ early t, early.Perm (x.reported items) ∧
    Pool.Run workers (x.work items)
      { waiting := (x.plan (foundIn items)).jobs, results := early } t ∧
    t.Finished ∧ Listing t.wrappers ps ∧
    rs.Perm t.results ∧ rs.Pairwise fun a b => b.finding.less a.finding = false

theorem outcomes_work (x : Planning) (items : List Item) :
    (x.plan (foundIn items)).jobs.map (x.work items)
      = (foundIn items).filterMap (x.outcome? (foundIn items)) := by
  rw [← outcomes_eq, runJobs, List.map_map]
  rfl

theorem packages_execute (x : Planning) (items : List Item) : (x.execute items).packages
    = Outcome.collect ((x.plan (foundIn items)).jobs.map (x.work items)) := by
  show Outcome.collect ((runJobs (x.plan (foundIn items)) x.mode).map Prod.snd) = _
  rw [outcomes_work, outcomes_eq]

/-- the wrappers of a package come from its declarations -/
theorem exists_of_mem_methodsAt {p : PackageInfo} {c : CheckedMethod}
    (h : c ∈ Outcome.methodsAt ((x.plan (foundIn items)).jobs.map (x.work items)) p) :
    ∃ f ∈ foundIn items, f.package = p ∧ f.pos = c.pos ∧
      x.checked? (foundIn items) f = some (p, c) := by
  rw [outcomes_work] at h
  obtain ⟨⟨q, d⟩, he, rfl⟩ := List.mem_map.1 h
  obtain ⟨hmem, hp⟩ := List.mem_filter.1 he
  obtain rfl : q = p := of_decide_eq_true hp
  rw [List.filterMap_filterMap] at hmem
  obtain ⟨f, hf, hc⟩ := List.mem_filterMap.1 hmem
  refine ⟨f, hf, ?_, (pos_of_checked? hc).symm, hc⟩
  obtain ⟨o, ho, hchecked⟩ := Option.bind_eq_some_iff.1 hc
  obtain ⟨-, -, j, -, rfl, -, rfl⟩ := exists_job ho
  rcases j.run_cases x.mode (.scanning (x.plan (foundIn items)).crosscut) with
    ⟨s, hs, -⟩ | ⟨c', hrun, -⟩
  · rw [hs] at hchecked
    cases hchecked
  · rw [hrun] at hchecked
    cases hchecked
    rfl

theorem toldApart_methodsAt (h : DistinctItems items) :
    ToldApart (Outcome.methodsAt ((x.plan (foundIn items)).jobs.map (x.work items))) where
  places p a ha b hb hab hba := by
    obtain ⟨f, hf, -, hfpos, hfa⟩ := exists_of_mem_methodsAt ha
    obtain ⟨g, hg, -, hgpos, hgb⟩ := exists_of_mem_methodsAt hb
    have hplace := Position.eq_of_le_of_le hab hba
    rw [← hfpos, ← hgpos] at hplace
    have hsame := h.eq_of_place (mem_foundIn.1 hf) (mem_foundIn.1 hg) rfl rfl hplace
    cases hsame
    rw [hfa] at hgb
    cases hgb
    rfl
  paths p q hp hq hpath := by
    obtain ⟨a, ha⟩ := List.exists_mem_of_ne_nil _ hp
    obtain ⟨b, hb⟩ := List.exists_mem_of_ne_nil _ hq
    obtain ⟨f, hf, rfl, -⟩ := exists_of_mem_methodsAt ha
    obtain ⟨g, hg, rfl, -⟩ := exists_of_mem_methodsAt hb
    rw [(foundIn_perm items).mem_iff] at hf hg
    exact h.paths f hf g hg hpath

/-- the results of a load, in some order -/
def allResults (x : Planning) (items : List Item) : List Result :=
  x.reported items ++ ((x.plan (foundIn items)).jobs.map (x.work items)).filterMap Outcome.result?

theorem results_eq_sort (x : Planning) (items : List Item) :
    (x.execute items).results = sortResults (x.allResults items) := by
  unfold allResults
  rw [results_execute, List.filterMap_map, runJobs, List.filterMap_map]
  rfl

theorem exists_report (h : r ∈ x.allResults items) :
    ∃ it ∈ items, r ∈ x.reports (foundIn items) it := by
  refine mem_results (x := x) ?_
  rw [allResults, List.filterMap_map] at h
  rw [runJobs, List.filterMap_map]
  exact h

theorem inFile_of_mem (hitems : DistinctItems items) (h : r ∈ x.allResults items) :
    r.finding.pos.InFile := by
  obtain ⟨it, hit, hr⟩ := exists_report h
  exact hitems.offsets _ (List.mem_filterMap.2 ⟨it, hit, pos_of_mem_reports hr⟩)

/-- reports that the order does not tell apart are about one declaration, and so the same -/
theorem eq_of_le_of_le (hitems : DistinctItems items) (h : r ∈ x.allResults items)
    (h' : r' ∈ x.allResults items) (hle : r.le r' = true) (hle' : r'.le r = true) : r = r' := by
  obtain ⟨it, hit, hr⟩ := exists_report h
  obtain ⟨it', hit', hr'⟩ := exists_report h'
  have hplace := (Finding.eq_of_le_of_le hle hle').1
  have hsame := hitems.eq_of_place hit hit' (pos_of_mem_reports hr) (pos_of_mem_reports hr') hplace
  subst hsame
  exact reports_unique hr hr'

theorem pairwise_sortResults (rs : List Result) :
    (sortResults rs).Pairwise fun a b => a.le b = true := by
  unfold sortResults
  apply List.pairwise_mergeSort
  · intro a b c hab hbc
    exact Finding.le_trans hab hbc
  · intro a b
    rw [Bool.or_eq_true]
    exact Finding.le_total a.finding b.finding

/-- for results with offsets that a file can have, both ways to compare sort alike -/
theorem pairwise_less_iff {rs : List Result} (h : ∀ r ∈ rs, r.finding.pos.InFile) :
    (rs.Pairwise fun a b => b.finding.less a.finding = false) ↔
      rs.Pairwise fun a b => a.le b = true := by
  refine List.Pairwise.iff_of_mem fun {a b} ha hb => ?_
  rw [Finding.less_eq (h b hb) (h a ha), Bool.not_eq_false']
  exact Iff.rfl

/-- Whatever the workers do, a load gives the same packages with their wrappers in the same order and
the same results.  Results are sorted by a strict weak order, and those that it does not tell apart
have the same text. -/
theorem schedules_iff (x : Planning) {items : List Item} (hitems : DistinctItems items)
    {workers : Nat} (hworkers : 0 < workers) :
    (∀ ps rs, x.Schedules workers items ps rs ↔
      ps = (x.execute items).packages ∧ rs = (x.execute items).results) ∧
    IsStrictWeakOrder { f : Finding // f.pos.InFile } (fun a b => a.1.less b.1 = true) ∧
    ∀ a ∈ (x.execute items).results, ∀ b ∈ (x.execute items).results,
      a.finding.less b.finding = false → b.finding.less a.finding = false →
      ∀ base, a.text base = b.text base := by
  have hmem : ∀ r, r ∈ (x.execute items).results ↔ r ∈ x.allResults items := by
    intro r
    rw [results_eq_sort, sortResults, List.mem_mergeSort]
  refine ⟨fun ps rs => ⟨?_, ?_⟩, Finding.isStrictWeakOrder_less, ?_⟩
  · rintro ⟨early, t, hearly, hrun, hfinished, hlisting, hperm, hsorted⟩
    obtain ⟨done, hdone, hfollows⟩ := Pool.finished_follows hrun hfinished
    have hresults : rs.Perm (x.allResults items) := by
      rw [hfollows.results] at hperm
      exact hperm.trans (hearly.append ((hdone.map _).filterMap _))
    constructor
    · have hwrappers : ∀ p, (t.wrappers p).Perm
          (Outcome.methodsAt ((x.plan (foundIn items)).jobs.map (x.work items)) p) := by
        intro p
        rw [hfollows.wrappers]
        exact Outcome.methodsAt_perm (hdone.map _) p
      rw [packages_execute]
      exact (hlisting.of_perm hwrappers).unique (Outcome.listing_collect _) (toldApart_methodsAt hitems)
    · rw [results_eq_sort]
      have hin : ∀ r ∈ rs, r.finding.pos.InFile :=
        fun r hr => inFile_of_mem hitems (hresults.mem_iff.1 hr)
      refine List.Perm.eq_of_pairwise ?_ ((pairwise_less_iff hin).1 hsorted) (pairwise_sortResults _)
        (hresults.trans (List.mergeSort_perm _ _).symm)
      intro a b ha hb
      exact eq_of_le_of_le hitems (hresults.mem_iff.1 ha) (List.mem_mergeSort.1 hb)
  · rintro ⟨rfl, rfl⟩
    obtain ⟨t, hrun, hfinished⟩ := Pool.exists_finished hworkers (x.work items)
      (x.plan (foundIn items)).jobs (x.reported items)
    obtain ⟨done, hdone, hfollows⟩ := Pool.finished_follows hrun hfinished
    refine ⟨_, t, .refl _, hrun, hfinished, ?_, ?_, ?_⟩
    · rw [packages_execute]
      refine (Outcome.listing_collect _).of_perm fun p => ?_
      rw [hfollows.wrappers]
      exact Outcome.methodsAt_perm (hdone.map _).symm p
    · rw [results_eq_sort, hfollows.results]
      refine (List.mergeSort_perm _ _).trans (List.Perm.append_left _ ?_)
      exact ((hdone.map _).filterMap _).symm
    · rw [pairwise_less_iff fun r hr => inFile_of_mem hitems ((hmem r).1 hr), results_eq_sort]
      exact pairwise_sortResults _
  · intro a ha b hb hab hba base
    rw [hmem] at ha hb
    rw [Finding.less_eq (inFile_of_mem hitems ha) (inFile_of_mem hitems hb), Bool.not_eq_false'] at hab
    rw [Finding.less_eq (inFile_of_mem hitems hb) (inFile_of_mem hitems ha), Bool.not_eq_false'] at hba
    rw [eq_of_le_of_le hitems ha hb hba hab]

end Planning

/-! ### several jobs -/

/-- Two packages with three declarations to wrap: the interface method, the method of one of its two
types, and a function.  The method of the other type has a faulty directive. -/
def bagsModule : SourceModule where
  dir := "/m"
  path := "example.com/m"
  files := [{
    path := "m.go"
    package := "m"
    decls := [
      .interface { name := "Bag", methods := [putMethod none "//rac:requires x > 0" 4] },
      .type { name := "Stack", definition := "struct\x7b n int \x7d" },
      .func (putMethod (some { name := "s", type := "Stack" }) "//rac:visibility secret" 10),
      .type { name := "Queue", definition := "struct\x7b n int \x7d" },
      .func (putMethod (some { name := "q", type := "Queue" }) "//rac:requires x > 1" 20),
      .assertion { interface := "Bag", type := "Stack" },
      .assertion { interface := "Bag", type := "Queue" }] }, {
    path := "q/q.go"
    package := "q"
    decls := [.func (putMethod none "//rac:requires x > 2" 4)] }]

/-- checks are woven around calls, so the interface method is wrapped -/
def bagsOptions : LoadOptions := { bagOptions with mode := .callSite, patterns := ["./..."] }

theorem distinct_bags : DistinctItems (loadedItems bagsOptions bagsModule) where
  places := by decide +kernel
  offsets := by decide +kernel
  paths := by decide +kernel

theorem length_jobs_bags : ((loadPlanning bagsOptions bagsModule .complete).plan
    (foundIn (loadedItems bagsOptions bagsModule))).jobs.length = 3 := by
  have hsorted : foundIn (loadedItems bagsOptions bagsModule)
      = (loadedItems bagsOptions bagsModule).filterMap Item.found? :=
    foundIn_of_sorted (by decide +kernel)
  unfold loadPlanning planningFor
  rw [hsorted]
  decide +kernel

/-- two workers, three jobs, and two reports about the method that has no job -/
theorem schedules_bags : DistinctItems (loadedItems bagsOptions bagsModule) ∧
    ((loadPlanning bagsOptions bagsModule .complete).plan
      (foundIn (loadedItems bagsOptions bagsModule))).jobs.length = 3 ∧
    ∃ l, load bagsOptions bagsModule .complete none = .ok l ∧ ∀ ps rs,
      (loadPlanning bagsOptions bagsModule .complete).Schedules 2
          (loadedItems bagsOptions bagsModule) ps rs ↔
        ps = l.packages ∧ rs = l.results := by
  refine ⟨distinct_bags, length_jobs_bags, _, rfl, ?_⟩
  exact ((loadPlanning bagsOptions bagsModule .complete).schedules_iff distinct_bags Nat.two_pos).1

end ContractChecks
