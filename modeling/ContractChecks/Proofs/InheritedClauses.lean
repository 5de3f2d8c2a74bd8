import ContractChecks.Proofs.InheritedTexts
import ContractChecks.Proofs.WrapperLayout

/-!
# Clauses of inherited contracts

The wrapper of a composed contract checks the normal postconditions of all contracts it was composed
of.  It checks their signals clauses as well, unless one of them brings code of its own for signals:
then only the code is run, and the clauses of the others are lost.

* `sourceCases own inherited`: the spec cases of all contracts, in the order in which a composition
  numbers them;
* `SourceCase.text`: what becomes of a predicate of such a case;
* `Wrapper.normal`, `Wrapper.exceptional`: the branches of a wrapper;
* `PostsChecked`, `SignalsChecked`: the clauses of all cases are checked in these branches;
* `clauses_checked_iff`: the former always holds, the latter unless code takes the place of clauses.
-/

namespace ContractChecks

open Merge (implies impliesIf caseName)

/-! ### cases of the sources -/

/-- a spec case of one of the contracts of a composition -/
structure SourceCase where
  contract : Contract
  /-- what the composition does to the names of the contract -/
  names : Renaming
  index : Int
  pre : Text

def sourceCases (own : Contract) (inherited : List Contract) : List SourceCase :=
  (sourcesOf own inherited).flatMap fun l => l.1.pre.entries.map fun e => ⟨l.1, l.2, e.1, e.2⟩

namespace SourceCase

/-- the case as it is merged -/
def copy (k : SourceCase) : SpecCase :=
  (k.contract.renamed k.names).caseAt k.index (rename k.names k.pre)

/-- what becomes of a predicate in the case `n` of `total`: if there are others and the precondition
can fail, it is demanded only if the precondition held -/
def text (k : SourceCase) (total n : Nat) (p : Text) : Text :=
  if 1 < total ∧ assertable (rename k.names k.pre) = true then
    implies (caseName n) (rename k.names p)
  else rename k.names p

/-- a signals clause in the case `n` of `total` -/
def signals (k : SourceCase) (total n : Nat) (s : Signals) : Signals :=
  ⟨s.type, rename k.names s.var, k.text total n s.pred⟩

end SourceCase

section

variable {own : Contract} {inherited : List Contract} {r : Contract}

theorem composedSources_eq (own : Contract) (inherited : List Contract) :
    composedSources own inherited = (sourcesOf own inherited).map fun l => l.1.renamed l.2 := by
  rw [sourcesOf, List.map_cons, Contract.renamed_nil]
  rfl

theorem composedCases_eq (own : Contract) (inherited : List Contract) :
    composedCases own inherited = (sourceCases own inherited).map SourceCase.copy := by
  have hcases : ∀ (c : Contract) (f : Renaming), (c.renamed f).cases
      = c.pre.entries.map fun e => (c.renamed f).caseAt e.1 (rename f e.2) := by
    intro c f
    show (c.pre.entries.map fun e => (e.1, rename f e.2)).map _ = _
    rw [List.map_map]
    rfl
  unfold composedCases sourceCases
  rw [composedSources_eq, List.flatMap_map, List.map_flatMap]
  refine List.flatMap_congr fun l _ => ?_
  rw [hcases, List.map_map]
  rfl

theorem map_fst_sourcesOf (own : Contract) (inherited : List Contract) :
    (sourcesOf own inherited).map Prod.fst = own :: inherited := by
  have hlevels : ∀ (m : Method) (ps : List (Contract × Nat)) (taken : List Text),
      (inheritedLevels m taken ps).map Prod.fst = ps.map Prod.fst := by
    intro m ps
    induction ps with
    | nil => exact fun taken => rfl
    | cons p ps ih =>
      intro taken
      rw [inheritedLevels, List.map_cons, ih]
      rfl
  rw [sourcesOf, List.map_cons, levelsOf, hlevels, List.zipIdx_map_fst]

theorem exists_sourceCase_of_mem {l : Contract × Renaming} (hl : l ∈ sourcesOf own inherited)
    {e : Int × Text} (he : e ∈ l.1.pre.entries) :
    ∃ n : Nat, (sourceCases own inherited)[n]? = some ⟨l.1, l.2, e.1, e.2⟩ :=
  List.mem_iff_getElem?.1 (List.mem_flatMap.2 ⟨l, hl, List.mem_map.2 ⟨e, he, rfl⟩⟩)

/-- every clause of a source belongs to a case that the composition numbers -/
theorem exists_sourceCase {l : Contract × Renaming} (hl : l ∈ sourcesOf own inherited) {i : Int}
    (hi : i ∈ l.1.pre.indices) :
    ∃ (n : Nat) (pre : Text), (sourceCases own inherited)[n]? = some ⟨l.1, l.2, i, pre⟩ := by
  obtain ⟨pre, hpre⟩ := l.1.pre.mem_indices_iff.1 hi
  obtain ⟨n, hn⟩ := exists_sourceCase_of_mem hl (l.1.pre.mem_entries_iff.2 hpre)
  exact ⟨n, pre, hn⟩

theorem Composed.closed_of_mem_sourcesOf (h : Composed own inherited r) {l : Contract × Renaming}
    (hl : l ∈ sourcesOf own inherited) : l.1.Closed := by
  have hmem : l.1 ∈ own :: inherited := by
    rw [← map_fst_sourcesOf]
    exact List.mem_map_of_mem hl
  rcases List.mem_cons.1 hmem with heq | hmem
  · rw [heq]
    exact Contract.validate_eq_ok.1 h.own_valid
  · exact Contract.validate_eq_ok.1 (h.inherited_valid _ hmem).2

/-- a predicate of a source that can fail can fail in the composition -/
theorem assertable_source (hnames : ∀ c ∈ own :: inherited, c.method.Named)
    (htrue : ∀ n ∈ own.method.receiver :: own.method.paramNames, n = [] ∨ assertable n = true)
    {l : Contract × Renaming} (hl : l ∈ sourcesOf own inherited) {p : Text}
    (ha : assertable p = true) : assertable (rename l.2 p) = true := by
  rcases List.mem_cons.1 hl with rfl | hl
  · rw [rename_nil_left]
    exact ha
  obtain ⟨q, hq, -, taken, hf⟩ := mem_levels hl
  have hmem : q.1 ∈ inherited := List.fst_mem_of_mem_zipIdx hq
  rw [hf]
  refine assertable_rename (inheritedRenaming_named (hnames _ List.mem_cons_self)
    (hnames _ (List.mem_cons_of_mem _ hmem))) ?_ ha
  intro a x hx
  rcases inheritedRenaming_eq_some hx with rfl | ⟨hparam, hne⟩ | hunderscore
  · unfold Method.receiverName
    split
    · decide +kernel
    · rename_i hne
      exact (htrue _ List.mem_cons_self).resolve_left hne
  · exact (htrue x (List.mem_cons_of_mem _ hparam)).resolve_left hne
  · exact assertable_of_mem (by decide) (by decide) (by decide) (by decide) hunderscore

/-! ### clauses of the composition -/

/-- the case `n` of the composition, with its guard -/
theorem caseNumbered_sourceCase {n : Nat} {k : SourceCase}
    (hk : (sourceCases own inherited)[n]? = some k) :
    caseNumbered (guardedCases (composedCases own inherited)) n
      = some (if 1 < (sourceCases own inherited).length then k.copy.guarded n else k.copy) := by
  have hcopy : (composedCases own inherited)[n]? = some k.copy := by
    rw [composedCases_eq, List.getElem?_map, hk]
    rfl
  have hlength : (composedCases own inherited).length = (sourceCases own inherited).length := by
    rw [composedCases_eq, List.length_map]
  rw [caseNumbered_natCast, guardedCases, hlength]
  split
  · exact getElem?_guardedFrom hcopy
  · exact hcopy

/-- the text of a clause that can fail, of a case with or without a guard -/
theorem guardedText_copy {k : SourceCase} {p : Text} (n : Nat)
    (ha : assertable (rename k.names p) = true)
    (h : k.copy.post = some (rename k.names p) ∨
      ∃ s ∈ k.copy.signals.getD [], s.pred = rename k.names p) {total : Nat}
    (htotal : 1 < total) : k.copy.guardedText n (rename k.names p) = k.text total n p := by
  have hguard : k.copy.isGuarded = assertable (rename k.names k.pre) :=
    SpecCase.isGuarded_of_clause ha h
  unfold SpecCase.guardedText SourceCase.text
  rw [hguard, impliesIf, if_pos ha]
  by_cases hpre : assertable (rename k.names k.pre) = true
  · rw [if_pos hpre, if_pos ⟨htotal, hpre⟩]
  · rw [if_neg hpre, if_neg fun hboth => hpre hboth.2]

theorem SourceCase.text_of_single (k : SourceCase) {total : Nat} (h : ¬1 < total) (n : Nat)
    (p : Text) : k.text total n p = rename k.names p := if_neg fun hboth => h hboth.1

theorem Composed.post_eq (h : Composed own inherited r) {n : Nat} {k : SourceCase}
    (hk : (sourceCases own inherited)[n]? = some k) {p : Text}
    (hp : k.contract.post.get? k.index = some p) (ha : assertable (rename k.names p) = true) :
    r.post.get? n = some (k.text (sourceCases own inherited).length n p) := by
  have hpost : k.copy.post = some (rename k.names p) := by
    show (k.contract.post.mapValues fun _ => rename k.names).get? k.index = _
    rw [CaseTable.get?_mapValues, hp]
    rfl
  rw [h.cases.post, caseNumbered_sourceCase hk, Option.bind_some]
  by_cases htotal : 1 < (sourceCases own inherited).length
  · rw [if_pos htotal, SpecCase.post_guarded, hpost, Option.map_some,
      guardedText_copy n ha (.inl hpost) htotal]
  · rw [if_neg htotal, hpost, k.text_of_single htotal]

theorem Composed.mem_xpost (h : Composed own inherited r) {n : Nat} {k : SourceCase}
    (hk : (sourceCases own inherited)[n]? = some k) {s : Signals}
    (hs : s ∈ k.contract.xpost.list k.index) (ha : assertable (rename k.names s.pred) = true) :
    k.signals (sourceCases own inherited).length n s ∈ r.xpost.list n := by
  let s' : Signals := ⟨s.type, rename k.names s.var, rename k.names s.pred⟩
  have hmem : s' ∈ k.copy.signals.getD [] := by
    show s' ∈ (k.contract.xpost.mapValues fun _ ss =>
      ss.map fun s => ⟨s.type, rename k.names s.var, rename k.names s.pred⟩).list k.index
    rw [CaseTable.list_mapValues]
    exact List.mem_map.2 ⟨s, hs, rfl⟩
  have hlist : r.xpost.list n = (if 1 < (sourceCases own inherited).length then
      k.copy.guarded n else k.copy).signals.getD [] := by
    rw [CaseTable.list, h.cases.xpost, caseNumbered_sourceCase hk]
    rfl
  rw [hlist]
  unfold SourceCase.signals
  by_cases htotal : 1 < (sourceCases own inherited).length
  · rw [if_pos htotal, SpecCase.signals_guarded, ← guardedText_copy n ha (.inr ⟨s', hmem, rfl⟩) htotal]
    exact List.mem_map.2 ⟨s', hmem, rfl⟩
  · rw [if_neg htotal, k.text_of_single htotal]
    exact hmem

theorem assertable_text {k : SourceCase} {p : Text} (ha : assertable (rename k.names p) = true)
    (total n : Nat) : assertable (k.text total n p) = true := by
  unfold SourceCase.text
  split
  · exact assertable_of_mem_bar (mem_implies (c := '"') (by decide)
      (not_mem_caseName (by decide) (by decide) n) _).1
  · exact ha

theorem Composed.xpostCode_eq_nil (h : Composed own inherited r) :
    r.xpostCode = [] ↔ ∀ c ∈ own :: inherited, c.xpostCode = [] := by
  rw [h.xpostCode, composedSources_eq, List.flatMap_map, List.flatMap_eq_nil_iff,
    ← map_fst_sourcesOf, List.forall_mem_map]
  refine forall₂_congr fun l _ => ?_
  show l.1.xpostCode.map (rename l.2) = [] ↔ _
  exact List.map_eq_nil_iff

end

/-! ### the branches of a wrapper -/

namespace Stmt

def normal : Stmt → List Stmt
  | .node _ _ n _ => n

def exceptional : Stmt → List Stmt
  | .node _ _ _ e => e

end Stmt

namespace Wrapper

def normal (w : Wrapper) : List Stmt := w.stmts.flatMap Stmt.normal

/-- what is run after a signal -/
def exceptional (w : Wrapper) : List Stmt := w.stmts.flatMap Stmt.exceptional

end Wrapper

theorem Leaves.branches {phase : Phase} {kinds : List StmtKind} {ss : List Stmt}
    (h : Leaves phase kinds ss) :
    ss.flatMap Stmt.normal = [] ∧ ss.flatMap Stmt.exceptional = [] := by
  rw [List.flatMap_eq_nil_iff, List.flatMap_eq_nil_iff]
  constructor
  · intro s hs
    obtain ⟨a, rfl, -, -⟩ := h s hs
    rfl
  · intro s hs
    obtain ⟨a, rfl, -, -⟩ := h s hs
    rfl

/-- only the guard has branches -/
theorem WrapperParts.Shape.branches {p : WrapperParts} {c : Contract} {sig : Signature}
    {plan : Plan} {family : ViolationFamily} {w : Wrapper} (h : p.Shape c sig plan family w) :
    p.stmts.flatMap Stmt.normal = p.normal ∧ p.stmts.flatMap Stmt.exceptional = p.exceptional := by
  have hresults : Leaves .return [.return] p.results := by
    rw [h.results]
    split
    · intro s hs
      cases hs
    · intro s hs
      exact ⟨_, List.mem_singleton.1 hs, rfl, List.mem_cons_self⟩
  unfold WrapperParts.stmts
  simp only [List.flatMap_append, List.flatMap_singleton, h.declares.branches, h.uses.branches,
    h.early.branches, h.check.branches, h.late.branches, hresults.branches, List.nil_append,
    List.append_nil]
  exact ⟨rfl, rfl⟩

/-! ### every clause is checked -/

/-- the normal branch of the wrapper has a check for every normal postcondition that can fail -/
def PostsChecked (own : Contract) (inherited : List Contract) (r : Contract) (sig : Signature)
    (family : ViolationFamily) (w : Wrapper) : Prop :=
  ∀ (n : Nat) (k : SourceCase), (sourceCases own inherited)[n]? = some k →
    ∀ p, k.contract.post.get? k.index = some p → assertable p = true →
      ∃ a ∈ actionsOf .check w.normal, ChecksPost r sig.renames family
        (n, k.text (sourceCases own inherited).length n p) a

/-- the exceptional branch has a selection with a check for every signals clause that can fail, of
the contracts without code for signals -/
def SignalsChecked (own : Contract) (inherited : List Contract) (r : Contract) (sig : Signature)
    (family : ViolationFamily) (w : Wrapper) : Prop :=
  ∀ (n : Nat) (k : SourceCase), (sourceCases own inherited)[n]? = some k → k.contract.xpostCode = [] →
    ∀ s ∈ k.contract.xpost.list k.index, assertable s.pred = true →
      ∃ u ∈ w.exceptional, SelectsSignals r sig.renames family
        (n, k.signals (sourceCases own inherited).length n s) u

theorem mem_checkedSignals {c : Contract} {i : Int} {s : Signals} :
    (i, s) ∈ checkedSignals c ↔ s ∈ c.xpost.list i ∧ assertable s.pred = true := by
  have hlist : s ∈ c.xpost.list i ↔ ∃ ss, (i, ss) ∈ c.xpost.entries ∧ s ∈ ss := by
    refine ⟨CaseTable.mem_list, ?_⟩
    rintro ⟨ss, hss, hs⟩
    rw [CaseTable.list, c.xpost.mem_entries_iff.1 hss]
    exact hs
  rw [hlist, checkedSignals, List.mem_filter, List.mem_flatMap]
  refine and_congr_left fun _ => ?_
  constructor
  · rintro ⟨e, he, hmem⟩
    obtain ⟨s', hs', heq⟩ := List.mem_map.1 hmem
    cases heq
    exact ⟨e.2, he, hs'⟩
  · rintro ⟨ss, hss, hs⟩
    exact ⟨(i, ss), hss, List.mem_map.2 ⟨s, hs, rfl⟩⟩

section

variable {own : Contract} {inherited : List Contract} {r : Contract} {sig : Signature} {plan : Plan}
  {family : ViolationFamily} {w : Wrapper} {parts : WrapperParts}

theorem postsChecked (hr : Composed own inherited r) (hshape : parts.Shape r sig plan family w)
    (hstmts : w.stmts = parts.stmts)
    (hkeep : ∀ k ∈ sourceCases own inherited, ∀ p, assertable p = true →
      assertable (rename k.names p) = true) :
    PostsChecked own inherited r sig family w := by
  intro n k hk p hp ha
  have hfail := hkeep k (List.mem_of_getElem? hk) p ha
  have hmem : ((n : Int), k.text (sourceCases own inherited).length n p) ∈ checkedPosts r :=
    List.mem_filter.2 ⟨r.post.mem_entries_iff.2 (hr.post_eq hk hp hfail), assertable_text hfail _ _⟩
  rw [Wrapper.normal, hstmts, hshape.branches.1]
  exact exists_of_forall₂ hshape.normalChecks hmem

theorem signalsChecked (hr : Composed own inherited r) (hshape : parts.Shape r sig plan family w)
    (hstmts : w.stmts = parts.stmts)
    (hkeep : ∀ k ∈ sourceCases own inherited, ∀ p, assertable p = true →
      assertable (rename k.names p) = true) (hcode : r.xpostCode = []) :
    SignalsChecked own inherited r sig family w := by
  intro n k hk _ s hs ha
  have hfail := hkeep k (List.mem_of_getElem? hk) s.pred ha
  have hmem : ((n : Int), k.signals (sourceCases own inherited).length n s) ∈ checkedSignals r :=
    mem_checkedSignals.2 ⟨hr.mem_xpost hk hs hfail, assertable_text hfail _ _⟩
  obtain ⟨u, hu, hselects⟩ := exists_of_forall₂ (hshape.selections hcode) hmem
  refine ⟨u, ?_, hselects⟩
  rw [Wrapper.exceptional, hstmts, hshape.branches.2]
  exact List.mem_cons_of_mem _ (List.mem_append_left _ hu)

/-- where there is code for signals, no signal is selected -/
theorem not_selectsSignals (hshape : parts.Shape r sig plan family w)
    (hstmts : w.stmts = parts.stmts) (hcode : r.xpostCode ≠ []) {e : Int × Signals} {u : Stmt}
    (hu : u ∈ w.exceptional) : ¬SelectsSignals r sig.renames family e u := by
  rintro ⟨a, body, b, rfl, hkind, -⟩
  rw [Wrapper.exceptional, hstmts, hshape.branches.2] at hu
  rcases List.mem_cons.1 hu with heq | hu
  · cases heq
    rw [hshape.propagate.1] at hkind
    cases hkind
  rcases List.mem_append.1 hu with hu | hu
  · rw [hshape.code hcode] at hu
    obtain ⟨s, -, heq⟩ := List.mem_map.1 hu
    cases heq
    cases hkind
  · cases List.mem_singleton.1 hu
    rw [hshape.rethrow.1] at hkind
    cases hkind

end

/-- no contract has code for signals while another, without code, has a signals clause that can
fail -/
def CodeCoversSignals (cs : List Contract) : Prop :=
  (∃ c ∈ cs, c.xpostCode ≠ []) → ∀ c ∈ cs, c.xpostCode = [] → checkedSignals c = []

instance (cs : List Contract) : Decidable (CodeCoversSignals cs) :=
  inferInstanceAs (Decidable ((∃ c ∈ cs, c.xpostCode ≠ []) →
    ∀ c ∈ cs, c.xpostCode = [] → checkedSignals c = []))

section

variable {own : Contract} {inherited : List Contract} {r : Contract} {sig : Signature} {plan : Plan}
  {family : ViolationFamily} {w : Wrapper} {parts : WrapperParts}

theorem Composed.exists_code (h : Composed own inherited r) :
    r.xpostCode ≠ [] ↔ ∃ c ∈ own :: inherited, c.xpostCode ≠ [] := by
  rw [Ne, h.xpostCode_eq_nil]
  push Not
  rfl

theorem codeCoversSignals (hr : Composed own inherited r) (hshape : parts.Shape r sig plan family w)
    (hstmts : w.stmts = parts.stmts) (h : SignalsChecked own inherited r sig family w) :
    CodeCoversSignals (own :: inherited) := by
  intro hcode c hmem hnone
  rw [List.eq_nil_iff_forall_not_mem]
  rintro ⟨i, s⟩ hs
  obtain ⟨hs, ha⟩ := mem_checkedSignals.1 hs
  rw [← map_fst_sourcesOf] at hmem
  obtain ⟨l, hl, rfl⟩ := List.mem_map.1 hmem
  obtain ⟨ss, hss, -⟩ := CaseTable.mem_list hs
  have hi := (hr.closed_of_mem_sourcesOf hl).xpost i (List.mem_map_of_mem hss)
  obtain ⟨n, pre, hk⟩ := exists_sourceCase hl hi
  obtain ⟨u, hu, hselects⟩ := h n _ hk hnone s hs ha
  exact not_selectsSignals hshape hstmts (hr.exists_code.2 hcode) hu hselects

/-- if there is code, the contracts without any have no clauses that could be lost -/
theorem signalsChecked_of_code (hcode : ∃ c ∈ own :: inherited, c.xpostCode ≠ [])
    (h : CodeCoversSignals (own :: inherited)) : SignalsChecked own inherited r sig family w := by
  intro n k hk hnone s hs ha
  have hmem : k.contract ∈ own :: inherited := by
    obtain ⟨l, hl, hk⟩ := List.mem_flatMap.1 (List.mem_of_getElem? hk)
    obtain ⟨e, -, rfl⟩ := List.mem_map.1 hk
    rw [← map_fst_sourcesOf]
    exact List.mem_map_of_mem hl
  have hin : (k.index, s) ∈ checkedSignals k.contract := mem_checkedSignals.2 ⟨hs, ha⟩
  rw [h hcode _ hmem hnone] at hin
  cases hin

end

/-- **Which clauses of a composition are checked.**  Every clause belongs to a case with a number.
The wrapper checks all normal postconditions that can fail, renamed and, where the case is one of
several and has a precondition that can fail, under the variable of the case.  It checks all signals
clauses that can fail, of contracts without code for signals, exactly if there is no such clause or
no contract has code. -/
theorem clauses_checked_iff {own : Contract} {inherited : List Contract} {r : Contract}
    {mode : Mode} {oracle : Oracle} {w : Wrapper}
    (hnames : ∀ c ∈ own :: inherited, c.method.Named)
    (htrue : ∀ n ∈ own.method.receiver :: own.method.paramNames, n = [] ∨ assertable n = true)
    (hr : compose own inherited = .ok r) (hw : synthesize r mode oracle = .ok w) :
    ∃ family sig, ViolationFamily.ofVisibility own.method.visibility mode = .ok family ∧
      Signature.of r mode oracle = .ok sig ∧
      (∀ l ∈ sourcesOf own inherited, ∀ i, i ∈ l.1.post.indices ∨ i ∈ l.1.xpost.indices →
        ∃ (n : Nat) (pre : Text), (sourceCases own inherited)[n]? = some ⟨l.1, l.2, i, pre⟩) ∧
      PostsChecked own inherited r sig family w ∧
      (SignalsChecked own inherited r sig family w ↔ CodeCoversSignals (own :: inherited)) := by
  have hc := compose_eq_ok hr
  obtain ⟨family, sig, plan, t, e, hsteps, htexts⟩ := synthesize_texts hw
  have hshape := shape_parts hsteps (signals_expandTexts htexts)
  have hstmts : w.stmts = (t.parts sig plan family).stmts := by
    rw [stmts_parts, hsteps.wrapper_eq]
  have hkeep : ∀ k ∈ sourceCases own inherited, ∀ p, assertable p = true →
      assertable (rename k.names p) = true := by
    intro k hk p ha
    obtain ⟨l, hl, hk⟩ := List.mem_flatMap.1 hk
    obtain ⟨e, -, rfl⟩ := List.mem_map.1 hk
    exact assertable_source hnames htrue hl ha
  refine ⟨family, sig, ?_, hsteps.sig_eq, ?_, postsChecked hc hshape hstmts hkeep, ?_⟩
  · rw [← hc.method]
    exact hsteps.family_eq
  · intro l hl i hi
    have hclosed := hc.closed_of_mem_sourcesOf hl
    exact exists_sourceCase hl (hi.elim (hclosed.post i) (hclosed.xpost i))
  · refine ⟨codeCoversSignals hc hshape hstmts, fun hcovers => ?_⟩
    by_cases hcode : r.xpostCode = []
    · exact signalsChecked hc hshape hstmts hkeep hcode
    · exact signalsChecked_of_code (hc.exists_code.1 hcode) hcovers

theorem clauses_checked_push :
    ∃ w family sig, compose pushContract [bagPushContract] = .ok composedPushContract ∧
      synthesize composedPushContract .direct (.scanning []) = .ok w ∧
      PostsChecked pushContract [bagPushContract] composedPushContract sig family w ∧
      SignalsChecked pushContract [bagPushContract] composedPushContract sig family w := by
  obtain ⟨w, hw, -⟩ := exists_eq_ok (p := fun _ => true)
    (show (synthesize composedPushContract .direct (.scanning [])).toOption.any _ = true by
      -- the kernel is slow in reading the characters of a literal, so they are put in its place
      unfold composedPushContract
      repeat rw [String.toList_ofList]
      decide +kernel)
  obtain ⟨family, sig, -, -, -, hposts, hsignals⟩ :=
    clauses_checked_iff (by decide +kernel) (by decide +kernel) compose_push hw
  exact ⟨w, family, sig, compose_push, hw, hposts, hsignals.2 (by decide +kernel)⟩

/-! ### a signals clause that is lost -/

def codedPopContract : Contract where
  method := { name := "Pop", owner := "Stack", receiver := "s", visibility := .of .pub }
  pre := .set .empty 0 "s.open"
  xpostCode := ["s.check(racE)"]

/-- the method it overrides, with a signals clause -/
def bagPopContract : Contract where
  method := { name := "Pop", owner := "Bag", receiver := "b", visibility := .of .pub }
  pre := .set .empty 0 "b.open"
  xpost := .set .empty 0 [⟨"*EmptyError", "e", "e.Size == b.size"⟩]

theorem signals_lost_pop :
    ∃ r w, compose codedPopContract [bagPopContract] = .ok r ∧
      synthesize r .direct (.scanning []) = .ok w ∧
      bagPopContract.xpostCode = [] ∧ checkedSignals bagPopContract ≠ [] ∧
      ∀ u ∈ w.exceptional, u.action.kind ≠ .select := by
  have hlost : ((compose codedPopContract [bagPopContract]).toOption.any fun r =>
      (synthesize r .direct (.scanning [])).toOption.any fun w =>
        w.exceptional.all fun u => u.action.kind ≠ .select) = true := by
    unfold codedPopContract bagPopContract
    repeat rw [String.toList_ofList]
    decide +kernel
  obtain ⟨r, hr, hlost⟩ := exists_eq_ok hlost
  obtain ⟨w, hw, hlost⟩ := exists_eq_ok hlost
  refine ⟨r, w, hr, hw, rfl, by decide +kernel, fun u hu => ?_⟩
  exact of_decide_eq_true (List.all_eq_true.1 hlost u hu)

end ContractChecks
