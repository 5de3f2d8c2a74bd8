import ContractChecks.Proofs.PlannedJobs

/-!
# Outcomes of declarations

A declaration becomes a wrapper or is reported in a result.  It is looked at in up to four places:
when its directives are read, when contracts are read, when jobs are chosen, and when jobs are run.

* `Item.pos?`: where an item stands, by which outcomes are told apart;
* `Loaded.wrappersAt`, `Loaded.resultsAt`: how many wrappers and results stand at a position;
* `Planning.early?`, `Planning.late?`, `Planning.failed?`, `Planning.checked?`: what each of the places
  makes of one declaration;
* `wrappersAt_execute`, `resultsAt_execute`: nothing else stands at its position;
* `Planning.FaultyHeir`: the declarations that two of the places report;
* `one_outcome_iff`: all others have one outcome at most.
-/

namespace ContractChecks

def Item.pos? : Item → Option Position
  | .declaration f => some f.pos
  | .rejected r => some r.pos
  | .assertion _ _ => none

namespace Loaded

def wrappersAt (l : Loaded) (p : Position) : Nat :=
  (l.packages.flatMap CheckedPackage.methods).countP fun c => c.pos = p

def resultsAt (l : Loaded) (p : Position) : Nat := l.results.countP fun r => r.finding.pos = p

end Loaded

/-! ### positions -/

theorem pos?_of_found? {it : Item} {f : Found} (h : it.found? = some f) : it.pos? = some f.pos := by
  cases it with
  | declaration g =>
    cases h
    rfl
  | rejected r => cases h
  | assertion i t => cases h

theorem nodup_pos_foundIn {items : List Item} (h : (items.filterMap Item.pos?).Nodup) :
    ((foundIn items).map Found.pos).Nodup := by
  rw [((foundIn_perm items).map Found.pos).nodup_iff, List.map_filterMap]
  unfold List.Nodup at h ⊢
  rw [List.pairwise_filterMap] at h ⊢
  refine h.imp fun hne p hp q hq => ?_
  obtain ⟨f, hf, rfl⟩ := Option.map_eq_some_iff.1 hp
  obtain ⟨g, hg, rfl⟩ := Option.map_eq_some_iff.1 hq
  exact hne _ (pos?_of_found? hf) _ (pos?_of_found? hg)

/-! ### the places that look at a declaration -/

namespace Planning

def early? (f : Found) : Option Result := if f.decl.directives.isEmpty then none else faulty? f

def late? (x : Planning) (found : List Found) (f : Found) : Option Result :=
  if x.isJob (x.bequests found) f then faulty? f else none

def failed? (x : Planning) (found : List Found) (f : Found) : Option Result :=
  (x.outcome? found f).bind Outcome.result?

def checked? (x : Planning) (found : List Found) (f : Found) : Option (PackageInfo × CheckedMethod) :=
  (x.outcome? found f).bind Outcome.checked?

variable {x : Planning} {found : List Found} {f : Found}

theorem pos_of_faulty? {r : Result} (h : faulty? f = some r) : r.finding.pos = f.pos := by
  unfold faulty? at h
  cases hc : f.decl.contract with
  | ok c =>
    rw [hc] at h
    cases h
  | error e =>
    rw [hc] at h
    cases h
    rfl

theorem pos_of_early? {r : Result} (h : early? f = some r) : r.finding.pos = f.pos := by
  unfold early? at h
  split at h
  · cases h
  · exact pos_of_faulty? h

theorem pos_of_late? {r : Result} (h : x.late? found f = some r) : r.finding.pos = f.pos := by
  unfold late? at h
  split at h
  · exact pos_of_faulty? h
  · cases h

theorem exists_job {o : Outcome} (h : x.outcome? found f = some o) :
    x.isJob (x.bequests found) f = true ∧ ∃ (c : DeclaredContract) (j : Job),
      f.decl.contract = .ok c ∧ j.found = f ∧ j.own = c.contract ∧
      o = j.run x.mode (.scanning (x.plan found).crosscut) := by
  unfold outcome? at h
  split at h
  case isTrue hjob =>
    obtain ⟨j, hj, rfl⟩ := Option.map_eq_some_iff.1 h
    obtain ⟨c, hc, rfl⟩ := job?_eq_some.1 hj
    exact ⟨hjob, c, _, hc, rfl, rfl, rfl⟩
  case isFalse => cases h

theorem pos_of_failed? {r : Result} (h : x.failed? found f = some r) : r.finding.pos = f.pos := by
  obtain ⟨o, ho, hr⟩ := Option.bind_eq_some_iff.1 h
  obtain ⟨-, -, j, -, rfl, -, rfl⟩ := exists_job ho
  rcases j.run_cases x.mode (.scanning (x.plan found).crosscut) with ⟨s, hs, hpos⟩ | ⟨c, hc, -⟩
  · rw [hs] at hr
    cases hr
    exact hpos
  · rw [hc] at hr
    cases hr

theorem pos_of_checked? {e : PackageInfo × CheckedMethod} (h : x.checked? found f = some e) :
    e.2.pos = f.pos := by
  obtain ⟨o, ho, he⟩ := Option.bind_eq_some_iff.1 h
  obtain ⟨-, -, j, -, rfl, -, rfl⟩ := exists_job ho
  rcases j.run_cases x.mode (.scanning (x.plan found).crosscut) with ⟨s, hs, -⟩ | ⟨c, hc, hpos, -⟩
  · rw [hs] at he
    cases he
  · rw [hc] at he
    cases he
    exact hpos

theorem results_plan (x : Planning) (found : List Found) :
    (x.plan found).results = found.filterMap early? ++ found.filterMap (x.late? found) := by
  show (found.filter _).filterMap faulty? ++ (found.filter _).filterMap faulty? = _
  rw [List.filterMap_filter, List.filterMap_filter]
  congr 2
  funext f
  unfold early?
  cases f.decl.directives.isEmpty <;> rfl

theorem results_runJobs (x : Planning) (found : List Found) :
    ((runJobs (x.plan found) x.mode).filterMap fun e => e.2.result?)
      = found.filterMap (x.failed? found) := by
  have hmap := congrArg (List.filterMap Outcome.result?) (x.outcomes_eq found)
  rw [List.filterMap_map, List.filterMap_filterMap] at hmap
  exact hmap

/-! ### what stands at a position -/

variable {items : List Item} {it : Item} {p : Position}

theorem countP_filterMap_found {β : Type} {g : Found → Option β} {place : β → Position}
    (hplace : ∀ f b, g f = some b → place b = f.pos) (hpos : (items.filterMap Item.pos?).Nodup)
    (hit : it ∈ items) (hp : it.pos? = some p) :
    ((foundIn items).filterMap g).countP (fun b => place b = p) = (it.found?.bind g).toList.length := by
  rw [(filterMap_foundIn_perm g items).countP_eq, List.countP_eq_length_filter,
    filter_filterMap_key Item.pos? ?_ hpos hit hp]
  intro a b hb
  obtain ⟨f, hf, hb⟩ := Option.bind_eq_some_iff.1 hb
  rw [hplace f b hb]
  exact pos?_of_found? hf

theorem wrappersAt_execute (hpos : (items.filterMap Item.pos?).Nodup) (hit : it ∈ items)
    (hp : it.pos? = some p) : (x.execute items).wrappersAt p
      = (it.found?.bind (x.checked? (foundIn items))).toList.length := by
  show ((Outcome.collect ((runJobs (x.plan (foundIn items)) x.mode).map Prod.snd)).flatMap
    CheckedPackage.methods).countP _ = _
  rw [(Outcome.methods_collect_perm _).countP_eq, outcomes_eq, List.filterMap_filterMap,
    List.countP_map]
  exact countP_filterMap_found (fun f e => pos_of_checked?) hpos hit hp

theorem resultsAt_execute (hpos : (items.filterMap Item.pos?).Nodup) (hit : it ∈ items)
    (hp : it.pos? = some p) : (x.execute items).resultsAt p
      = it.result?.toList.length + ((it.found?.bind early?).toList.length
        + (it.found?.bind (x.late? (foundIn items))).toList.length)
        + (it.found?.bind (x.failed? (foundIn items))).toList.length := by
  have hrejected : (items.filterMap Item.result?).countP (fun r => r.finding.pos = p)
      = it.result?.toList.length := by
    rw [List.countP_eq_length_filter, filter_filterMap_key Item.pos? ?_ hpos hit hp]
    intro a r hr
    cases a with
    | declaration f => cases hr
    | rejected s =>
      cases hr
      rfl
    | assertion i t => cases hr
  show (sortResults (_ ++ (x.plan (foundIn items)).results ++ _)).countP _ = _
  unfold sortResults
  rw [(List.mergeSort_perm _ _).countP_eq, List.countP_append, List.countP_append, hrejected,
    results_plan, List.countP_append, results_runJobs,
    countP_filterMap_found (fun f r => pos_of_early?) hpos hit hp,
    countP_filterMap_found (fun f r => pos_of_late?) hpos hit hp,
    countP_filterMap_found (fun f r => pos_of_failed?) hpos hit hp]

/-! ### one outcome -/

/-- a declaration whose directives are faulty and that inherits from an interface method: the contract
it inherits makes it a job, for which its directives are read once more -/
def FaultyHeir (x : Planning) (found : List Found) (f : Found) : Prop :=
  f.decl.directives ≠ [] ∧ (∃ e, f.decl.contract = .error e) ∧ x.IsHeir found f

/-- a faulty declaration has no wrapper, and a result from each place that reads its directives -/
theorem outcomes_of_error (x : Planning) (found : List Found) {e : DirectiveFault}
    (hc : f.decl.contract = .error e) :
    x.checked? found f = none ∧ x.failed? found f = none ∧
      early? f = (if f.decl.directives.isEmpty then none else some (f.result e.message [])) ∧
      x.late? found f
        = if x.isJob (x.bequests found) f then some (f.result e.message []) else none := by
  have hnone : x.outcome? found f = none := by
    unfold outcome? job?
    rw [hc]
    split <;> rfl
  unfold checked? failed? early? late? faulty?
  rw [hnone, hc]
  exact ⟨rfl, rfl, rfl, rfl⟩

/-- a declaration with a contract is reported only if its job fails -/
theorem outcomes_of_ok (x : Planning) (found : List Found) {c : DeclaredContract}
    (hc : f.decl.contract = .ok c) :
    early? f = none ∧ x.late? found f = none ∧
      (x.checked? found f).toList.length + (x.failed? found f).toList.length ≤ 1 := by
  unfold early? late? faulty? checked? failed?
  rw [hc]
  refine ⟨ite_self _, ite_self _, ?_⟩
  cases x.outcome? found f with
  | none => exact Nat.zero_le 1
  | some o =>
    cases o with
    | checked p m => exact Nat.le_refl 1
    | failed r => exact Nat.le_refl 1

theorem isJob_of_error (hpos : (found.map Found.pos).Nodup) (hf : f ∈ found) {e : DirectiveFault}
    (hc : f.decl.contract = .error e) :
    x.isJob (x.bequests found) f = true ↔ x.IsHeir found f := by
  have hown : own? f = none := by
    unfold own?
    rw [hc]
    split <;> rfl
  rw [isJob_iff hpos hf, hown]
  simp

/-- what stands at the position of a declaration with faulty directives -/
theorem counts_of_error (hpos : (items.filterMap Item.pos?).Nodup) (hf : .declaration f ∈ items)
    {e : DirectiveFault} (hc : f.decl.contract = .error e) :
    (x.execute items).wrappersAt f.pos = 0 ∧ (x.execute items).resultsAt f.pos
      = (if f.decl.directives.isEmpty then 0 else 1)
        + if x.isJob (x.bequests (foundIn items)) f then 1 else 0 := by
  obtain ⟨hchecked, hfailed, hearly, hlate⟩ := outcomes_of_error x (foundIn items) hc
  rw [wrappersAt_execute hpos hf rfl, resultsAt_execute hpos hf rfl]
  show (x.checked? (foundIn items) f).toList.length = 0 ∧
    0 + ((early? f).toList.length + (x.late? (foundIn items) f).toList.length)
      + (x.failed? (foundIn items) f).toList.length = _
  rw [hchecked, hfailed, hearly, hlate]
  refine ⟨rfl, ?_⟩
  cases f.decl.directives.isEmpty <;> cases x.isJob (x.bequests (foundIn items)) f <;> rfl

/-- what stands at the position of a declaration with a contract -/
theorem counts_of_ok (hpos : (items.filterMap Item.pos?).Nodup) (hf : .declaration f ∈ items)
    {c : DeclaredContract} (hc : f.decl.contract = .ok c) :
    (x.execute items).wrappersAt f.pos + (x.execute items).resultsAt f.pos ≤ 1 := by
  obtain ⟨hearly, hlate, hone⟩ := outcomes_of_ok x (foundIn items) hc
  rw [wrappersAt_execute hpos hf rfl, resultsAt_execute hpos hf rfl]
  show (x.checked? (foundIn items) f).toList.length
    + (0 + ((early? f).toList.length + (x.late? (foundIn items) f).toList.length)
      + (x.failed? (foundIn items) f).toList.length) ≤ 1
  rw [hearly, hlate]
  simpa only [Option.toList_none, List.length_nil, Nat.zero_add] using hone

theorem resultsAt_of_faultyHeir (hpos : (items.filterMap Item.pos?).Nodup)
    (hf : .declaration f ∈ items) (h : x.FaultyHeir (foundIn items) f) :
    (x.execute items).wrappersAt f.pos = 0 ∧ (x.execute items).resultsAt f.pos = 2 := by
  obtain ⟨hne, ⟨e, hc⟩, hheir⟩ := h
  have hjob := (isJob_of_error (nodup_pos_foundIn hpos) (mem_foundIn.2 hf) hc).2 hheir
  obtain ⟨hwrappers, hresults⟩ := counts_of_error (x := x) hpos hf hc
  rw [hjob, List.isEmpty_eq_false_iff.2 hne] at hresults
  exact ⟨hwrappers, hresults⟩

/-- At the position of a declaration there is at most one wrapper, and a result only if there is no
wrapper.  There is more than one result exactly if the declaration is faulty and inherits. -/
theorem one_outcome_iff (x : Planning) {items : List Item}
    (hpos : (items.filterMap Item.pos?).Nodup) : ∀ it ∈ items, ∀ p, it.pos? = some p →
      (x.execute items).wrappersAt p ≤ 1 ∧
      (0 < (x.execute items).wrappersAt p → (x.execute items).resultsAt p = 0) ∧
      ((x.execute items).wrappersAt p + (x.execute items).resultsAt p ≤ 1 ↔
        ¬∃ f, it = .declaration f ∧ x.FaultyHeir (foundIn items) f) := by
  intro it hit p hp
  cases it with
  | assertion i t => cases hp
  | rejected r =>
    rw [wrappersAt_execute hpos hit hp, resultsAt_execute hpos hit hp]
    refine ⟨Nat.zero_le 1, fun h => absurd h (Nat.lt_irrefl 0), fun _ => ?_, fun _ => Nat.le_refl 1⟩
    rintro ⟨f, hf, -⟩
    cases hf
  | declaration f =>
    cases hp
    cases hc : f.decl.contract with
    | ok c =>
      have hone := counts_of_ok (x := x) hpos hit hc
      refine ⟨by omega, fun h => by omega, fun _ => ?_, fun _ => hone⟩
      rintro ⟨g, hg, -, ⟨e, he⟩, -⟩
      cases hg
      rw [hc] at he
      cases he
    | error e =>
      obtain ⟨hwrappers, hresults⟩ := counts_of_error (x := x) hpos hit hc
      rw [hwrappers, Nat.zero_add]
      refine ⟨Nat.zero_le 1, fun h => absurd h (Nat.lt_irrefl 0), ?_, ?_⟩
      · rintro hone ⟨g, hg, hheir⟩
        cases hg
        have htwo := (resultsAt_of_faultyHeir hpos hit hheir).2
        omega
      · intro hnot
        by_cases hempty : f.decl.directives.isEmpty = true
        · rw [hresults, if_pos hempty]
          split <;> omega
        · have hjob : ¬x.isJob (x.bequests (foundIn items)) f = true := by
            intro hjob
            refine hnot ⟨f, rfl, fun hnil => hempty (List.isEmpty_iff.2 hnil), ⟨e, hc⟩, ?_⟩
            exact (isJob_of_error (nodup_pos_foundIn hpos) (mem_foundIn.2 hit) hc).1 hjob
          rw [if_neg hempty, if_neg hjob] at hresults
          exact Nat.le_of_eq hresults

end Planning

/-! ### an heir -/

def putMethod (receiver : Option Receiver) (comment : Text) (line : Nat) : FuncDecl where
  name := "Put"
  receiver := receiver
  params := [{ name := "x", type := "int" }]
  comments := [{ text := comment, line := line }]
  line := line + 1
  eval := .ofFacts []

/-- an interface with a contract, and a type with a method of the same name -/
def bagModule (comment : Text) (assertions : Nat) : SourceModule where
  dir := "/m"
  path := "example.com/m"
  files := [{
    path := "m.go"
    package := "m"
    decls := [
      .interface { name := "Bag", methods := [putMethod none "//rac:requires x > 0" 4] },
      .type { name := "Stack", definition := "struct\x7b n int \x7d" },
      .func (putMethod (some { name := "s", type := "Stack" }) comment 10)]
      ++ List.replicate assertions (.assertion { interface := "Bag", type := "Stack" }) }]

def bagOptions : LoadOptions := { assertedOnly := true, dir := Path.parse "/m", patterns := ["."] }

/-- where the method of the type stands -/
def putPos : Position := { file := "/m/m.go", line := 11, column := 1, offset := 11 }

/-- whether the declaration at a position inherits and has a property -/
def heirCheck (found : List Found) (types : TypeKey → List TypeKey) (p : Position)
    (q : Found → Bool) : Bool :=
  found.any fun f => f.pos = p && !f.decl.isInterface && q f
    && (Planning.sources found).any fun s => (implementingMethods found types s.found).contains p

theorem exists_heir (o : LoadOptions) (u : Universe) (r : TypeReport) (items : List Item)
    (p : Position) (q : Found → Bool)
    (hsorted : (items.filterMap Item.found?).Pairwise fun a b => a.pos.le b.pos = true)
    (h : heirCheck (items.filterMap Item.found?)
      (implementingTypes u r (items.filterMap Item.assertion?) o.assertedOnly) p q = true) :
    ∃ f, .declaration f ∈ items ∧ f.pos = p ∧ q f = true ∧
      (planningFor o u r items).IsHeir (foundIn items) f := by
  rw [← foundIn_of_sorted hsorted] at h
  obtain ⟨f, hf, hcheck⟩ := List.any_eq_true.1 h
  simp only [Bool.and_eq_true, decide_eq_true_eq, Bool.not_eq_true'] at hcheck
  obtain ⟨⟨⟨rfl, hconcrete⟩, hq⟩, hsources⟩ := hcheck
  obtain ⟨s, hs, hmem⟩ := List.any_eq_true.1 hsources
  exact ⟨f, mem_foundIn.1 hf, rfl, hq, hconcrete, s, hs, List.contains_iff_mem.1 hmem⟩

def checkedBag : SourceModule := bagModule "//rac:requires x > 1" 1

theorem one_outcome_put : ∃ f, .declaration f ∈ loadedItems bagOptions checkedBag ∧ f.pos = putPos ∧
    ∃ l, load bagOptions checkedBag .complete none = .ok l ∧
      l.wrappersAt putPos + l.resultsAt putPos ≤ 1 := by
  obtain ⟨f, hf, hp, hok, -⟩ := exists_heir bagOptions (Universe.of checkedBag false) .complete
    (loadedItems bagOptions checkedBag) putPos (fun f => f.decl.contract.toOption.isSome)
    (by decide +kernel) (by decide +kernel)
  refine ⟨f, hf, hp, _, rfl, ?_⟩
  refine ((loadPlanning bagOptions checkedBag .complete).one_outcome_iff (by decide +kernel) _ hf putPos
    (congrArg some hp)).2.2.2 ?_
  rintro ⟨g, hg, -, ⟨e, he⟩, -⟩
  cases hg
  rw [he] at hok
  cases hok

def faultyBag : SourceModule := bagModule "//rac:visibility secret" 1

/-- a method whose directives are faulty is reported twice if it inherits -/
theorem two_results_put : ∃ f, .declaration f ∈ loadedItems bagOptions faultyBag ∧ f.pos = putPos ∧
    ∃ l, load bagOptions faultyBag .complete none = .ok l ∧ l.wrappersAt putPos = 0 ∧
      l.resultsAt putPos = 2 := by
  obtain ⟨f, hf, hp, hfaulty, hheir⟩ := exists_heir bagOptions (Universe.of faultyBag false) .complete
    (loadedItems bagOptions faultyBag) putPos
    (fun f => f.decl.contract.toOption.isNone && !f.decl.directives.isEmpty)
    (by decide +kernel) (by decide +kernel)
  obtain ⟨hcontract, hdirectives⟩ := Bool.and_eq_true_iff.1 hfaulty
  have herror : ∃ e, f.decl.contract = .error e := by
    cases hc : f.decl.contract with
    | ok c =>
      rw [hc] at hcontract
      cases hcontract
    | error e => exact ⟨e, rfl⟩
  refine ⟨f, hf, hp, _, rfl, ?_⟩
  rw [← hp]
  refine Planning.resultsAt_of_faultyHeir (x := loadPlanning bagOptions faultyBag .complete)
    (by decide +kernel) hf ⟨?_, herror, hheir⟩
  rwa [Bool.not_eq_true', List.isEmpty_eq_false_iff] at hdirectives

end ContractChecks
