import ContractChecks.Inheritance.Compose
import ContractChecks.Proofs.SpecCase

/-!
# Merging contracts

What a composition is made of: the spec cases of the override, then those of the inherited
contracts with their names changed, and a guard on the cases of the result.

* `composedSources own inherited`: the contracts that are merged, each inherited one renamed;
* `Merge.Collects m method cs`: the merge holds the cases and the other clauses of `cs`, in order;
* `mergeAll_collects`: the merge of all contracts collects the sources;
* `SpecCase.guarded i k`: the case `k` with its postconditions conditional on its precondition;
* `guardCases_eq_ok`: the guard of a merge guards each case, with names that were not taken;
* `Composed own inherited r`, `compose_eq_ok`: all a successful composition has done.
-/

namespace ContractChecks

/-! ### the contracts that are merged -/

def inheritedLevels (own : Method) : List Text → List (Contract × Nat) →
    List (Contract × Renaming)
  | _, [] => []
  | taken, p :: ps =>
    let r := inheritedRenaming taken own p.1 p.2
    (p.1, r.1) :: inheritedLevels own (r.2 ++ p.1.temporaries) ps

def takenAfter (own : Method) : List Text → List (Contract × Nat) → List Text
  | taken, [] => taken
  | taken, p :: ps =>
    takenAfter own ((inheritedRenaming taken own p.1 p.2).2 ++ p.1.temporaries) ps

/-- the levels above an override, the nearest first -/
def levelsOf (own : Contract) (inherited : List Contract) : List (Contract × Renaming) :=
  inheritedLevels own.method own.temporaries (inherited.zipIdx 1)

/-- the override's own contract and the inherited ones, renamed -/
def composedSources (own : Contract) (inherited : List Contract) : List Contract :=
  own :: (levelsOf own inherited).map fun l => l.1.renamed l.2

def composedCases (own : Contract) (inherited : List Contract) : List SpecCase :=
  (composedSources own inherited).flatMap Contract.cases

namespace Merge

/-! ### one case after the other -/

theorem get?_setSome {α : Type} (t : CaseTable α) (i j : Int) (v : Option α) :
    (t.setSome i v).get? j = if j = i then v.or (t.get? j) else t.get? j := by
  cases v with
  | none =>
    show t.get? j = _
    rw [Option.none_or, ite_self]
  | some v => rw [CaseTable.setSome, CaseTable.get?_set, Option.some_or]

/-- a value written for the next number extends the table by the field of the new case -/
theorem get?_setSome_next {α : Type} {t : CaseTable α} {ks : List SpecCase} (k : SpecCase)
    (field : SpecCase → Option α) (ht : ∀ j, t.get? j = (caseNumbered ks j).bind field) (j : Int) :
    (t.setSome ks.length (field k)).get? j = (caseNumbered (ks ++ [k]) j).bind field := by
  rw [get?_setSome, caseNumbered_append]
  by_cases hj : j = ks.length
  · have hnone : t.get? j = none := by
      rw [ht, hj, caseNumbered_natCast, List.getElem?_eq_none (Nat.le_refl _)]
      rfl
    rw [if_pos hj, if_pos hj, hnone, Option.or_none]
    rfl
  · rw [if_neg hj, if_neg hj, ht]

theorem hasCases_addCase {m : Merge} {ks : List SpecCase} (hm : m.result.HasCases ks)
    (hnext : m.next = ks.length) {c : Contract} {i : Int} {pre : Text}
    (hpre : c.pre.get? i = some pre) :
    (m.addCase c i).result.HasCases (ks ++ [c.caseAt i pre]) ∧
      (m.addCase c i).next = ((ks ++ [c.caseAt i pre]).length : Nat) := by
  have hfresh : m.result.pre.get? m.next = none := by
    rw [hm.pre, hnext, caseNumbered_natCast, List.getElem?_eq_none (Nat.le_refl _)]
    rfl
  constructor
  · rw [addCase, hpre]
    constructor
    case indices =>
      show (m.result.pre.set m.next pre).indices = _
      rw [CaseTable.indices_set_of_get? hfresh, hm.indices, hnext, List.length_append,
        List.length_singleton, List.range_succ, List.map_append]
      rfl
    case pre =>
      intro j
      show (m.result.pre.set m.next pre).get? j = _
      rw [CaseTable.get?_set, caseNumbered_append, hm.pre, hnext]
      by_cases hj : j = ks.length
      · rw [if_pos hj, if_pos hj]
        rfl
      · rw [if_neg hj, if_neg hj]
    -- the other tables are written only if the case has an entry there
    all_goals
      intro j
      rw [hnext]
    case post => exact get?_setSome_next (c.caseAt i pre) SpecCase.post hm.post j
    case xpost => exact get?_setSome_next (c.caseAt i pre) SpecCase.signals hm.xpost j
    case oldVars => exact get?_setSome_next (c.caseAt i pre) SpecCase.oldVars hm.oldVars j
    case oldExprDecls =>
      exact get?_setSome_next (c.caseAt i pre) SpecCase.oldExprDecls hm.oldExprDecls j
    case oldExprs => exact get?_setSome_next (c.caseAt i pre) SpecCase.oldExprs hm.oldExprs j
  · show m.next + 1 = _
    rw [hnext, List.length_append, List.length_singleton]
    push_cast
    rfl

theorem hasCases_foldl_addCase {c : Contract} {es : List (Int × Text)}
    (hes : ∀ e ∈ es, c.pre.get? e.1 = some e.2) {m : Merge} {ks : List SpecCase}
    (hm : m.result.HasCases ks) (hnext : m.next = ks.length) :
    ((es.map Prod.fst).foldl (addCase c) m).result.HasCases
        (ks ++ es.map fun e => c.caseAt e.1 e.2) ∧
      ((es.map Prod.fst).foldl (addCase c) m).next
        = ((ks ++ es.map fun e => c.caseAt e.1 e.2).length : Nat) := by
  induction es generalizing m ks with
  | nil =>
    rw [List.map_nil, List.map_nil, List.append_nil]
    exact ⟨hm, hnext⟩
  | cons e es ih =>
    obtain ⟨hm', hnext'⟩ := hasCases_addCase hm hnext (hes e List.mem_cons_self)
    have hrest := ih (fun e he => hes e (List.mem_cons_of_mem _ he)) hm' hnext'
    rw [List.append_assoc] at hrest
    exact hrest

/-- what a copied case leaves alone -/
def rest (m : Merge) : List Text × Method × List Text × List Text × List Text :=
  (m.taken, m.result.method, m.result.preExprDecls, m.result.preExprs, m.result.xpostCode)

theorem rest_foldl_addCase (c : Contract) (is : List Int) (m : Merge) :
    (is.foldl (addCase c) m).rest = m.rest := by
  induction is generalizing m with
  | nil => rfl
  | cons i is ih =>
    rw [List.foldl_cons, ih]
    rfl

/-! ### one contract after the other -/

/-- the merge holds the clauses of the contracts `cs`, in order -/
structure Collects (m : Merge) (method : Method) (cs : List Contract) : Prop where
  cases : m.result.HasCases (cs.flatMap Contract.cases)
  next : m.next = ((cs.flatMap Contract.cases).length : Nat)
  method : m.result.method = method
  preExprDecls : m.result.preExprDecls = cs.flatMap Contract.preExprDecls
  preExprs : m.result.preExprs = cs.flatMap Contract.preExprs
  xpostCode : m.result.xpostCode = cs.flatMap Contract.xpostCode

theorem Collects.add {m : Merge} {method : Method} {cs : List Contract}
    (h : m.Collects method cs) (c : Contract) : (m.add c).Collects method (cs ++ [c]) := by
  have hsnoc : ∀ {α : Type} (f : Contract → List α), (cs ++ [c]).flatMap f = cs.flatMap f ++ f c := by
    intro α f
    rw [List.flatMap_append, List.flatMap_singleton]
  obtain ⟨hcases, hnext⟩ := hasCases_foldl_addCase (c := c)
    (fun e he => c.pre.mem_entries_iff.1 he) h.cases h.next
  have hrest := rest_foldl_addCase c c.pre.indices m
  simp only [rest, Prod.mk.injEq] at hrest
  obtain ⟨-, hmethod, hdecls, hexprs, hcode⟩ := hrest
  constructor
  case cases =>
    rw [hsnoc]
    exact ⟨hcases.1, hcases.2, hcases.3, hcases.4, hcases.5, hcases.6, hcases.7⟩
  case next =>
    rw [hsnoc]
    exact hnext
  case method => exact hmethod.trans h.method
  case preExprDecls =>
    rw [hsnoc, ← h.preExprDecls, ← hdecls]
    rfl
  case preExprs =>
    rw [hsnoc, ← h.preExprs, ← hexprs]
    rfl
  case xpostCode =>
    rw [hsnoc, ← h.xpostCode, ← hcode]
    rfl

theorem taken_add (m : Merge) (c : Contract) : (m.add c).taken = m.taken := by
  have hrest := congrArg Prod.fst (rest_foldl_addCase c c.pre.indices m)
  exact hrest

theorem foldl_addInherited (own : Method) (ps : List (Contract × Nat)) {m : Merge}
    {cs : List Contract} (h : m.Collects own cs) :
    (ps.foldl (addInherited own) m).Collects own
        (cs ++ (inheritedLevels own m.taken ps).map fun l => l.1.renamed l.2) ∧
      (ps.foldl (addInherited own) m).taken = takenAfter own m.taken ps := by
  -- the names taken so far change with each level, and decide the renaming of the next one
  induction ps generalizing m cs with
  | nil =>
    rw [inheritedLevels, List.map_nil, List.append_nil]
    exact ⟨h, rfl⟩
  | cons p ps ih =>
    have hreserved : ({ m with taken := (inheritedRenaming m.taken own p.1 p.2).2 }.reserve
        p.1).Collects own cs := ⟨h.1, h.2, h.3, h.4, h.5, h.6⟩
    have htaken : (addInherited own m p).taken
        = (inheritedRenaming m.taken own p.1 p.2).2 ++ p.1.temporaries := taken_add _ _
    obtain ⟨hcs, htk⟩ := ih (hreserved.add (p.1.renamed (inheritedRenaming m.taken own p.1 p.2).1))
    rw [List.append_assoc] at hcs
    constructor
    · rw [inheritedLevels, List.map_cons, ← htaken]
      exact hcs
    · rw [takenAfter, ← htaken]
      exact htk

end Merge

theorem mergeAll_collects (own : Contract) (inherited : List Contract) :
    (mergeAll own inherited).Collects own.method (composedSources own inherited) ∧
      (mergeAll own inherited).taken
        = takenAfter own.method own.temporaries (inherited.zipIdx 1) := by
  let start : Merge := { result := { method := own.method } }
  have hstart : (start.reserve own).Collects own.method [] :=
    ⟨Contract.hasCases_nil own.method, rfl, rfl, rfl, rfl, rfl⟩
  have hown : ((start.reserve own).add own).Collects own.method [own] := hstart.add own
  have htaken : ((start.reserve own).add own).taken = own.temporaries := Merge.taken_add _ _
  have hall := Merge.foldl_addInherited own.method (inherited.zipIdx 1) hown
  rw [htaken] at hall
  exact hall

/-! ### guarded cases -/

/-- the old variable that records whether the spec case `i` applied on entry -/
def caseFlag (i : Int) (pre : Text) : OldVar :=
  ⟨Merge.caseName i ++ " bool/" ++ Merge.caseName i ++ " = " ++ pre⟩

namespace SpecCase

/-- whether both the precondition and some postcondition can fail -/
def isGuarded (k : SpecCase) : Bool :=
  assertable k.pre &&
    (k.post.any assertable || (k.signals.getD []).any fun s => assertable s.pred)

/-- the case with its postconditions conditional on its precondition -/
def withGuard (k : SpecCase) (i : Nat) : SpecCase :=
  { k with
    oldVars := some (k.oldVars.getD [] ++ [caseFlag i k.pre])
    post := k.post.map (Merge.impliesIf (Merge.caseName i))
    signals := k.signals.map fun ss =>
      ss.map fun s => { s with pred := Merge.impliesIf (Merge.caseName i) s.pred } }

/-- the case with a guard, where both conditions can fail -/
def guarded (k : SpecCase) (i : Nat) : SpecCase := if k.isGuarded then k.withGuard i else k

end SpecCase

/-- the cases numbered from `i` on, all guarded -/
def guardedFrom (i : Nat) (ks : List SpecCase) : List SpecCase :=
  (ks.zipIdx i).map fun p => p.1.guarded p.2

def caseNamesFrom (i : Nat) (ks : List SpecCase) : List Text :=
  ((ks.zipIdx i).filter fun p => p.1.isGuarded).map fun p => Merge.caseName p.2

theorem guardedFrom_cons (i : Nat) (k : SpecCase) (ks : List SpecCase) :
    guardedFrom i (k :: ks) = k.guarded i :: guardedFrom (i + 1) ks := rfl

theorem caseNamesFrom_singleton (i : Nat) (k : SpecCase) :
    caseNamesFrom i [k] = if k.isGuarded then [Merge.caseName i] else [] := by
  by_cases hg : k.isGuarded = true <;> simp [caseNamesFrom, hg]

theorem caseNamesFrom_cons (i : Nat) (k : SpecCase) (ks : List SpecCase) :
    caseNamesFrom i (k :: ks) = caseNamesFrom i [k] ++ caseNamesFrom (i + 1) ks := by
  by_cases hg : k.isGuarded = true <;> simp [caseNamesFrom, hg]

namespace Merge

theorem get?_setSome_map {α : Type} {t : CaseTable α} {ks : List SpecCase}
    (field : SpecCase → Option α) (ht : ∀ j, t.get? j = (caseNumbered ks j).bind field)
    {i : Nat} {k k' : SpecCase} (hk : ks[i]? = some k) {g : α → α}
    (hfield : field k' = (field k).map g) (j : Int) :
    (t.setSome i ((t.get? i).map g)).get? j = (caseNumbered (ks.set i k') j).bind field := by
  have hi : i < ks.length := (List.getElem?_eq_some_iff.1 hk).1
  have hget : t.get? i = field k := by
    rw [ht, caseNumbered_natCast, hk]
    rfl
  rw [get?_setSome, caseNumbered_set hi, hget]
  by_cases hj : j = i
  · rw [if_pos hj, if_pos hj, hj, hget]
    show ((field k).map g).or (field k) = field k'
    rw [hfield]
    cases field k <;> rfl
  · rw [if_neg hj, if_neg hj, ht]

theorem bind_caseNumbered_set {α : Type} (field : SpecCase → Option α) {ks : List SpecCase}
    {i : Nat} {k : SpecCase} (hk : ks[i]? = some k) (k' : SpecCase) (hfield : field k' = field k)
    (j : Int) : (caseNumbered (ks.set i k') j).bind field = (caseNumbered ks j).bind field := by
  have hi : i < ks.length := (List.getElem?_eq_some_iff.1 hk).1
  rw [caseNumbered_set hi]
  by_cases hj : j = i
  · rw [if_pos hj, hj, caseNumbered_natCast, hk, Option.bind_some, Option.bind_some, hfield]
  · rw [if_neg hj]

theorem hasCases_guardCaseWith {c : Contract} {ks : List SpecCase} (h : c.HasCases ks) {i : Nat}
    {k : SpecCase} (hk : ks[i]? = some k) :
    (guardCaseWith c i (caseName i) k.pre).HasCases (ks.set i (k.withGuard i)) := by
  have hi : i < ks.length := (List.getElem?_eq_some_iff.1 hk).1
  constructor
  case indices =>
    rw [List.length_set]
    exact h.indices
  case pre =>
    intro j
    rw [Option.map_eq_bind, bind_caseNumbered_set (some ∘ SpecCase.pre) hk (k.withGuard i) rfl,
      ← Option.map_eq_bind]
    exact h.pre j
  case post => exact get?_setSome_map SpecCase.post h.post hk rfl
  case xpost => exact get?_setSome_map SpecCase.signals h.xpost hk rfl
  case oldVars =>
    intro j
    show (c.oldVars.set i ((c.oldVars.get? i).getD [] ++ [caseFlag i k.pre])).get? j = _
    rw [CaseTable.get?_set, caseNumbered_set hi, h.oldVars i, caseNumbered_natCast, hk]
    by_cases hj : j = i
    · rw [if_pos hj, if_pos hj]
      rfl
    · rw [if_neg hj, if_neg hj, h.oldVars]
  case oldExprDecls =>
    intro j
    rw [bind_caseNumbered_set SpecCase.oldExprDecls hk (k.withGuard i) rfl]
    exact h.oldExprDecls j
  case oldExprs =>
    intro j
    rw [bind_caseNumbered_set SpecCase.oldExprs hk (k.withGuard i) rfl]
    exact h.oldExprs j

/-- a guarded case gets a variable whose name is not taken; any other case stays -/
theorem guardCase_eq_ok {m m' : Merge} {ks : List SpecCase} (hm : m.result.HasCases ks) {i : Nat}
    {k : SpecCase} (hk : ks[i]? = some k) (h : guardCase m i = .ok m') :
    (k.isGuarded = false ∧ m' = m) ∨
      (k.isGuarded = true ∧ caseName i ∉ m.taken ∧
        m' = { m with
          taken := m.taken ++ [caseName i]
          result := guardCaseWith m.result i (caseName i) k.pre }) := by
  have hnum : caseNumbered ks i = some k := by rw [caseNumbered_natCast, hk]
  have hpre : m.result.pre.get? i = some k.pre := by rw [hm.pre, hnum]; rfl
  have hchecked : hasCheckedPost m.result i
      = (k.post.any assertable || (k.signals.getD []).any fun s => assertable s.pred) := by
    unfold hasCheckedPost CaseTable.list
    rw [hm.post, hm.xpost, hnum]
    rfl
  unfold guardCase at h
  rw [hpre] at h
  by_cases ha : assertable k.pre
  · rw [Option.filter_some, if_pos ha] at h
    have hguard : k.isGuarded = hasCheckedPost m.result i := by
      rw [SpecCase.isGuarded, ha, Bool.true_and, hchecked]
    by_cases hc : hasCheckedPost m.result i
    · have h : (if m.taken.contains (caseName i) then
            Except.error (Fault.clause i (.reservedName (caseName i)))
          else .ok { m with
            taken := m.taken ++ [caseName i]
            result := guardCaseWith m.result i (caseName i) k.pre }) = Except.ok m' := by
        rw [← h]
        simp [hc]
      by_cases ht : m.taken.contains (caseName i)
      · rw [if_pos ht] at h
        cases h
      · rw [if_neg ht] at h
        refine .inr ⟨hguard.trans hc, ?_, (Except.ok.inj h).symm⟩
        simpa using ht
    · have hc' : hasCheckedPost m.result i = false := by simpa using hc
      have h : Except.ok m = (Except.ok m' : Except Fault Merge) := by
        rw [← h]
        simp [hc']
      exact .inl ⟨hguard.trans hc', (Except.ok.inj h).symm⟩
  · rw [Option.filter_some, if_neg ha] at h
    refine .inl ⟨?_, (Except.ok.inj h).symm⟩
    rw [SpecCase.isGuarded, Bool.eq_false_iff.2 ha, Bool.false_and]

theorem guardCase_step {done todo : List SpecCase} {k : SpecCase} {m m' : Merge}
    (hm : m.result.HasCases (done ++ k :: todo)) (h : guardCase m done.length = .ok m') :
    m'.result.HasCases ((done ++ [k.guarded done.length]) ++ todo) ∧
      m'.rest.2 = m.rest.2 ∧
      m'.taken = m.taken ++ caseNamesFrom done.length [k] ∧
      ∀ n ∈ caseNamesFrom done.length [k], n ∉ m.taken := by
  have hk : (done ++ k :: todo)[done.length]? = some k := by simp
  rw [caseNamesFrom_singleton, SpecCase.guarded]
  rcases guardCase_eq_ok hm hk h with ⟨hg, rfl⟩ | ⟨hg, hfree, rfl⟩
  · rw [if_neg (Bool.not_eq_true _ ▸ hg), if_neg (Bool.not_eq_true _ ▸ hg)]
    refine ⟨?_, rfl, (List.append_nil _).symm, fun n hn => absurd hn List.not_mem_nil⟩
    rw [List.append_assoc]
    exact hm
  · have hset : (done ++ k :: todo).set done.length (k.withGuard done.length)
        = (done ++ [k.withGuard done.length]) ++ todo := by simp
    rw [if_pos hg, if_pos hg, ← hset]
    refine ⟨hasCases_guardCaseWith hm hk, rfl, rfl, ?_⟩
    intro n hn
    rw [List.mem_singleton.1 hn]
    exact hfree

theorem foldlM_guardCase (done : List SpecCase) {todo : List SpecCase} {m m' : Merge}
    (hm : m.result.HasCases (done ++ todo))
    (h : ((List.range' done.length todo.length).map Nat.cast).foldlM guardCase m = .ok m') :
    m'.result.HasCases (done ++ guardedFrom done.length todo) ∧
      m'.rest.2 = m.rest.2 ∧
      (caseNamesFrom done.length todo).Nodup ∧
      ∀ n ∈ caseNamesFrom done.length todo, n ∉ m.taken := by
  -- the cases before `done.length` are guarded already, those from there on are as they were
  induction todo generalizing done m with
  | nil =>
    cases h
    exact ⟨hm, rfl, List.nodup_nil, by simp [caseNamesFrom]⟩
  | cons k todo ih =>
    obtain ⟨m₁, h₁, hrun⟩ := except_bind_eq_ok h
    obtain ⟨hm₁, hrest, htaken, hfree⟩ := guardCase_step hm h₁
    have hlen : (done ++ [k.guarded done.length]).length = done.length + 1 := by simp
    rw [← hlen] at hrun
    obtain ⟨hcases, hrest', hnodup, hnames⟩ := ih _ hm₁ hrun
    rw [hlen] at hcases hnodup hnames
    rw [List.append_assoc] at hcases
    rw [htaken] at hnames
    rw [guardedFrom_cons, caseNamesFrom_cons, List.nodup_append]
    refine ⟨hcases, hrest'.trans hrest, ⟨?_, hnodup, ?_⟩, ?_⟩
    · rw [caseNamesFrom_singleton]
      split <;> simp
    · -- a name is taken from its case on
      intro a ha b hb hab
      exact hnames b hb (List.mem_append_right _ (hab ▸ ha))
    · intro n hn
      rcases List.mem_append.1 hn with hn | hn
      · exact hfree n hn
      · exact fun hmem => hnames n hn (List.mem_append_left _ hmem)

end Merge

/-- the cases of a composition, guarded if there is more than one -/
def guardedCases (ks : List SpecCase) : List SpecCase :=
  if 1 < ks.length then guardedFrom 0 ks else ks

def guardNames (ks : List SpecCase) : List Text :=
  if 1 < ks.length then caseNamesFrom 0 ks else []

theorem guardCases_eq_ok {m m' : Merge} {ks : List SpecCase} (hm : m.result.HasCases ks)
    (h : m.guardCases = .ok m') :
    m'.result.HasCases (guardedCases ks) ∧ m'.rest.2 = m.rest.2 ∧
      (guardNames ks).Nodup ∧ ∀ n ∈ guardNames ks, n ∉ m.taken := by
  have hsize : m.result.pre.size = ks.length := by
    rw [CaseTable.size, hm.entries_eq, List.length_map, List.length_zipIdx]
  rw [Merge.guardCases, hsize] at h
  unfold guardedCases guardNames
  by_cases hks : 1 < ks.length
  · rw [if_pos hks, hm.indices, List.range_eq_range'] at h
    rw [if_pos hks, if_pos hks]
    exact Merge.foldlM_guardCase [] hm h
  · rw [if_neg hks] at h
    cases h
    rw [if_neg hks, if_neg hks]
    exact ⟨hm, rfl, List.nodup_nil, by simp⟩

/-! ### the whole composition -/

/-- all a composition has done with the contracts `own` and `inherited` to get `r` -/
structure Composed (own : Contract) (inherited : List Contract) (r : Contract) : Prop where
  own_valid : own.validate = .ok ()
  inherited_valid : ∀ c ∈ inherited, compatible own.method c.method = .ok () ∧ c.validate = .ok ()
  cases : r.HasCases (guardedCases (composedCases own inherited))
  method : r.method = own.method
  preExprDecls : r.preExprDecls = (composedSources own inherited).flatMap Contract.preExprDecls
  preExprs : r.preExprs = (composedSources own inherited).flatMap Contract.preExprs
  xpostCode : r.xpostCode = (composedSources own inherited).flatMap Contract.xpostCode
  guards_nodup : (guardNames (composedCases own inherited)).Nodup
  guards_free : ∀ n ∈ guardNames (composedCases own inherited),
    n ∉ takenAfter own.method own.temporaries (inherited.zipIdx 1)

theorem checkInherited_eq_ok {own : Method} {inherited : List Contract}
    (h : checkInherited own inherited = .ok ()) :
    ∀ c ∈ inherited, compatible own c.method = .ok () ∧ c.validate = .ok () := by
  intro c hc
  obtain ⟨hcompat, hvalid⟩ := except_seq_eq_ok.1 (forM_eq_ok h c hc)
  exact ⟨hcompat, mapError_eq_ok hvalid⟩

theorem compose_eq_ok {own : Contract} {inherited : List Contract} {r : Contract}
    (h : compose own inherited = .ok r) : Composed own inherited r := by
  obtain ⟨hown, h⟩ := except_seq_eq_ok.1 h
  obtain ⟨hinherited, h⟩ := except_seq_eq_ok.1 h
  obtain ⟨m, hm, h⟩ := except_bind_eq_ok h
  cases h
  obtain ⟨hmerge, htaken⟩ := mergeAll_collects own inherited
  obtain ⟨hcases, hrest, hnodup, hfree⟩ := guardCases_eq_ok hmerge.cases hm
  simp only [Merge.rest, Prod.mk.injEq] at hrest
  obtain ⟨hmethod, hdecls, hexprs, hcode⟩ := hrest
  constructor
  case own_valid => exact hown
  case inherited_valid => exact checkInherited_eq_ok hinherited
  case cases => exact hcases
  case method => exact hmethod.trans hmerge.method
  case preExprDecls => exact hdecls.trans hmerge.preExprDecls
  case preExprs => exact hexprs.trans hmerge.preExprs
  case xpostCode => exact hcode.trans hmerge.xpostCode
  case guards_nodup => exact hnodup
  case guards_free =>
    rw [← htaken]
    exact hfree

end ContractChecks
