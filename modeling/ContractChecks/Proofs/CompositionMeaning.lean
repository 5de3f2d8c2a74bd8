import ContractChecks.Proofs.Merging

/-!
# The meaning of composition

A composed contract demands of callers that some of its sources' preconditions hold, and of the
method that every source case whose precondition held on entry is kept on exit.

* `Reading r`: truth values for the predicate texts of a composed contract `r`, on entry and on
  exit, that respect how the composition joins texts;
* `Reading.entry_precondition`: the precondition is the disjunction over the cases;
* `Reading.exit_guard`: what the guard of a case means;
* `compose_meaning`: the meaning of a composition in terms of its sources.
-/

namespace ContractChecks

open Merge (implies impliesIf caseName)

/-! ### guarded clauses -/

namespace SpecCase

/-- a predicate under the guard of a case, if the case has one -/
def guardedText (k : SpecCase) (i : Nat) (p : Text) : Text :=
  if k.isGuarded then impliesIf (caseName i) p else p

theorem post_guarded (k : SpecCase) (i : Nat) :
    (k.guarded i).post = k.post.map (k.guardedText i) := by
  unfold guarded guardedText
  by_cases hg : k.isGuarded = true
  · simp only [if_pos hg]
    rfl
  · simp only [if_neg hg, Option.map_id']

theorem signals_guarded (k : SpecCase) (i : Nat) :
    (k.guarded i).signals.getD []
      = (k.signals.getD []).map fun s => { s with pred := k.guardedText i s.pred } := by
  unfold guarded guardedText
  by_cases hg : k.isGuarded = true
  · simp only [if_pos hg]
    cases hk : k.signals <;> simp [withGuard, hk]
  · simp only [if_neg hg, List.map_id']

/-- a case is guarded if its precondition and one of its clauses can fail -/
theorem isGuarded_of_clause {k : SpecCase} {p : Text} (ha : assertable p = true)
    (h : k.post = some p ∨ ∃ s ∈ k.signals.getD [], s.pred = p) :
    k.isGuarded = assertable k.pre := by
  have hclause : (k.post.any assertable || (k.signals.getD []).any fun s => assertable s.pred)
      = true := by
    rcases h with h | ⟨s, hs, rfl⟩
    · rw [h, Option.any_some, ha, Bool.true_or]
    · rw [List.any_eq_true.2 ⟨s, hs, ha⟩, Bool.or_true]
  rw [isGuarded, hclause, Bool.and_true]

end SpecCase

/-- truth values of predicate texts on entry and on exit.  On exit, a predicate is read under the
type and the variable of its signals clause, and under nothing if it is a normal postcondition. -/
structure Reading (r : Contract) where
  entry : Text → Bool
  exit : Option (Text × Text) → Text → Bool
  entry_trivial : ∀ p, assertable p = false → entry p = true
  exit_trivial : ∀ b p, assertable p = false → exit b p = true
  entry_disjunction : ∀ ps, ps = r.pre.entries.map Prod.snd → 1 < ps.length →
    (∀ p ∈ ps, assertable p = true) → entry (Contract.disjunction ps) = ps.any entry
  exit_implies : ∀ b i p, assertable p = true →
    exit b (implies (caseName i) p) = (!exit b (caseName i) || exit b p)
  /-- the variable of a case has the value that was captured on entry -/
  exit_caseName : ∀ b i e, caseFlag i e ∈ r.oldVars.list i → exit b (caseName i) = entry e

namespace Reading

variable {r : Contract}

def NormalHolds (R : Reading r) (k : SpecCase) : Prop := ∀ p ∈ k.post, R.exit none p = true

/-- the predicates of a case about a raised signal hold; `applies` tells which types it has -/
def SignalsHold (R : Reading r) (applies : Text → Bool) (k : SpecCase) : Prop :=
  ∀ s ∈ k.signals.getD [], applies s.type = true → R.exit (some (s.type, s.var)) s.pred = true

instance (R : Reading r) (k : SpecCase) : Decidable (R.NormalHolds k) :=
  inferInstanceAs (Decidable (∀ p ∈ k.post, R.exit none p = true))

instance (R : Reading r) (applies : Text → Bool) (k : SpecCase) :
    Decidable (R.SignalsHold applies k) :=
  inferInstanceAs (Decidable (∀ s ∈ k.signals.getD [], applies s.type = true →
    R.exit (some (s.type, s.var)) s.pred = true))

/-! ### on entry -/

theorem entry_true (R : Reading r) : R.entry ("true" : Text) = true :=
  R.entry_trivial _ (by decide +kernel)

theorem entry_disjunction_of_assertable (R : Reading r) {ps : List Text}
    (hps : ps = r.pre.entries.map Prod.snd) (h : ∀ p ∈ ps, assertable p = true) :
    R.entry (Contract.disjunction ps) = true ↔ ps = [] ∨ ∃ p ∈ ps, R.entry p = true := by
  match ps, hps, h with
  | [], _, _ => exact ⟨fun _ => .inl rfl, fun _ => R.entry_true⟩
  | [p], _, _ =>
    show R.entry p = true ↔ _
    simp
  | p :: q :: ps, hps, h =>
    rw [R.entry_disjunction _ hps (by simp) h, List.any_eq_true]
    simp

theorem entry_precondition (R : Reading r) :
    R.entry r.precondition = true ↔
      r.cases = [] ∨ ∃ k ∈ r.cases, R.entry k.pre = true := by
  have hpre : r.cases.map SpecCase.pre = r.pre.entries.map Prod.snd := by
    rw [Contract.cases, List.map_map]
    rfl
  have hsome : (∃ k ∈ r.cases, R.entry k.pre = true) ↔
      ∃ p ∈ r.cases.map SpecCase.pre, R.entry p = true := by simp
  have hnil : r.cases = [] ↔ r.cases.map SpecCase.pre = [] := List.map_eq_nil_iff.symm
  rw [hsome, hnil, hpre]
  show R.entry (if (r.pre.entries.map Prod.snd).all assertable then
    Contract.disjunction (r.pre.entries.map Prod.snd) else "true") = true ↔ _
  by_cases hall : (r.pre.entries.map Prod.snd).all assertable
  · rw [if_pos hall]
    exact R.entry_disjunction_of_assertable rfl (List.all_eq_true.1 hall)
  · -- a precondition that cannot fail is true on its own
    obtain ⟨p, hp, hnot⟩ := List.all_eq_false.1 (Bool.eq_false_iff.2 hall)
    have htrue : R.entry p = true := R.entry_trivial p (Bool.eq_false_iff.2 hnot)
    rw [if_neg hall]
    exact ⟨fun _ => .inr ⟨p, hp, htrue⟩, fun _ => R.entry_true⟩

/-! ### on exit -/

/-- a predicate of a case, guarded if the case is: it is demanded if the precondition held -/
theorem exit_guard (R : Reading r) {k : SpecCase} {i : Nat} {p : Text}
    (hflag : k.isGuarded = true → caseFlag i k.pre ∈ r.oldVars.list i)
    (hp : assertable p = true → k.isGuarded = assertable k.pre) (b : Option (Text × Text)) :
    R.exit b (k.guardedText i p) = (!R.entry k.pre || R.exit b p) := by
  unfold SpecCase.guardedText
  by_cases ha : assertable p = true
  · by_cases hg : k.isGuarded = true
    · rw [if_pos hg, impliesIf, if_pos ha, R.exit_implies b i p ha,
        R.exit_caseName b i k.pre (hflag hg)]
    · have hpre : R.entry k.pre = true :=
        R.entry_trivial _ (by rw [← hp ha]; exact Bool.eq_false_iff.2 hg)
      rw [if_neg hg, hpre, Bool.not_true, Bool.false_or]
  · -- a predicate that cannot fail is left as it is
    rw [impliesIf, if_neg ha, ite_self, R.exit_trivial b p (Bool.eq_false_iff.2 ha), Bool.or_true]

theorem normalHolds_guarded (R : Reading r) {k : SpecCase} {i : Nat}
    (hflag : k.isGuarded = true → caseFlag i k.pre ∈ r.oldVars.list i) :
    R.NormalHolds (k.guarded i) ↔ (R.entry k.pre = true → R.NormalHolds k) := by
  unfold NormalHolds
  rw [k.post_guarded]
  cases hk : k.post with
  | none => simp
  | some p =>
    -- the only way not to be guarded is a precondition that cannot fail
    have hp : assertable p = true → k.isGuarded = assertable k.pre := fun ha =>
      SpecCase.isGuarded_of_clause ha (.inl hk)
    simp only [Option.map_some, Option.mem_def, Option.some.injEq, forall_eq']
    rw [R.exit_guard hflag hp, Bool.or_eq_true, Bool.not_eq_true', imp_iff_not_or,
      Bool.not_eq_true]

theorem signalsHold_guarded (R : Reading r) (applies : Text → Bool) {k : SpecCase} {i : Nat}
    (hflag : k.isGuarded = true → caseFlag i k.pre ∈ r.oldVars.list i) :
    R.SignalsHold applies (k.guarded i) ↔ (R.entry k.pre = true → R.SignalsHold applies k) := by
  have hpred : ∀ s ∈ k.signals.getD [], ∀ b,
      R.exit b (k.guardedText i s.pred) = (!R.entry k.pre || R.exit b s.pred) := by
    intro s hs b
    exact R.exit_guard hflag (fun ha => SpecCase.isGuarded_of_clause ha (.inr ⟨s, hs, rfl⟩)) b
  unfold SignalsHold
  rw [k.signals_guarded]
  constructor
  · intro h hentry s hs happ
    have hguard := h _ (List.mem_map.2 ⟨s, hs, rfl⟩) happ
    rw [hpred s hs, hentry] at hguard
    exact hguard
  · intro h s' hs' happ
    obtain ⟨s, hs, rfl⟩ := List.mem_map.1 hs'
    rw [hpred s hs]
    cases hentry : R.entry k.pre with
    | false => rfl
    | true => exact h hentry s hs happ

end Reading

/-! ### all cases of a composition -/

theorem forall_guardedFrom {ks : List SpecCase} {P Q : SpecCase → Prop}
    (h : ∀ (i : Nat) k, ks[i]? = some k → (P (k.guarded i) ↔ Q k)) :
    (∀ k ∈ guardedFrom 0 ks, P k) ↔ ∀ k ∈ ks, Q k := by
  constructor
  · intro hP k hk
    obtain ⟨i, hi⟩ := List.mem_iff_getElem?.1 hk
    exact (h i k hi).1 (hP _ (List.mem_map.2 ⟨(k, i), List.mem_zipIdx_iff_getElem?.2 hi, rfl⟩))
  · intro hQ k' hk'
    obtain ⟨⟨k, i⟩, hp, rfl⟩ := List.mem_map.1 hk'
    have hi := List.mem_zipIdx_iff_getElem?.1 hp
    exact (h i k hi).2 (hQ k (List.mem_of_getElem? hi))

theorem getElem?_guardedFrom {ks : List SpecCase} {i : Nat} {k : SpecCase}
    (h : ks[i]? = some k) : (guardedFrom 0 ks)[i]? = some (k.guarded i) := by
  rw [guardedFrom, List.getElem?_map, List.getElem?_zipIdx, h, Nat.zero_add]
  rfl

theorem caseFlag_mem {r : Contract} {ks : List SpecCase} (hr : r.HasCases (guardedFrom 0 ks))
    {i : Nat} {k : SpecCase} (hk : ks[i]? = some k) (hg : k.isGuarded = true) :
    caseFlag i k.pre ∈ r.oldVars.list i := by
  have hcase : k.guarded i = k.withGuard i := if_pos hg
  have hlist : r.oldVars.list i = k.oldVars.getD [] ++ [caseFlag i k.pre] := by
    rw [CaseTable.list, hr.oldVars, caseNumbered_natCast, getElem?_guardedFrom hk, hcase]
    rfl
  rw [hlist]
  exact List.mem_append_right _ List.mem_cons_self

theorem oldState_guarded (k : SpecCase) (i : Nat) :
    (k.guarded i).oldExprDecls = k.oldExprDecls ∧ (k.guarded i).oldExprs = k.oldExprs ∧
      k.oldVars.getD [] <+: (k.guarded i).oldVars.getD [] := by
  unfold SpecCase.guarded
  by_cases hg : k.isGuarded = true
  · rw [if_pos hg]
    exact ⟨rfl, rfl, List.prefix_append _ _⟩
  · rw [if_neg hg]
    exact ⟨rfl, rfl, List.prefix_refl _⟩

theorem length_guardedCases (ks : List SpecCase) : (guardedCases ks).length = ks.length := by
  unfold guardedCases guardedFrom
  split
  · rw [List.length_map, List.length_zipIdx]
  · rfl

theorem pre_guarded (k : SpecCase) (i : Nat) : (k.guarded i).pre = k.pre := by
  unfold SpecCase.guarded
  split <;> rfl

theorem map_pre_guardedCases (ks : List SpecCase) :
    (guardedCases ks).map SpecCase.pre = ks.map SpecCase.pre := by
  unfold guardedCases guardedFrom
  split
  · rw [List.map_map]
    calc ks.zipIdx.map (SpecCase.pre ∘ fun p => p.1.guarded p.2)
        = ks.zipIdx.map (SpecCase.pre ∘ Prod.fst) :=
          List.map_congr_left fun p _ => pre_guarded p.1 p.2
      _ = ks.map SpecCase.pre := by rw [← List.map_map, List.zipIdx_map_fst]
  · rfl

namespace Composed

variable {own : Contract} {inherited : List Contract} {r : Contract}

theorem entries_eq (h : Composed own inherited r) :
    r.pre.entries = (composedCases own inherited).zipIdx.map fun p => ((p.2 : Int), p.1.pre) := by
  have hzip : ∀ ks : List SpecCase, (ks.zipIdx.map fun p => ((p.2 : Int), p.1.pre))
      = (ks.map SpecCase.pre).zipIdx.map fun p => ((p.2 : Int), p.1) := by
    intro ks
    rw [List.zipIdx_map, List.map_map]
    rfl
  rw [h.cases.entries_eq, hzip, map_pre_guardedCases, ← hzip]

theorem oldState (h : Composed own inherited r) {i : Nat} {k : SpecCase}
    (hk : (composedCases own inherited)[i]? = some k) :
    r.oldExprDecls.get? i = k.oldExprDecls ∧ r.oldExprs.get? i = k.oldExprs ∧
      k.oldVars.getD [] <+: r.oldVars.list i := by
  have hcase : (guardedCases (composedCases own inherited))[i]? = some k ∨
      (guardedCases (composedCases own inherited))[i]? = some (k.guarded i) := by
    unfold guardedCases
    split
    · exact .inr (getElem?_guardedFrom hk)
    · exact .inl hk
  rw [CaseTable.list, h.cases.oldExprDecls, h.cases.oldExprs, h.cases.oldVars,
    caseNumbered_natCast]
  rcases hcase with hcase | hcase
  · rw [hcase]
    exact ⟨rfl, rfl, List.prefix_refl _⟩
  · rw [hcase]
    exact oldState_guarded k i

theorem cases_of_length_le_one (h : Composed own inherited r)
    (hle : (composedCases own inherited).length ≤ 1) : r.cases = composedCases own inherited := by
  have hsame : guardedCases (composedCases own inherited) = composedCases own inherited :=
    if_neg (Nat.not_lt.2 hle)
  rw [h.cases.cases_eq, hsame]

theorem entry_precondition (h : Composed own inherited r) (R : Reading r) :
    R.entry r.precondition = true ↔
      composedCases own inherited = [] ∨
        ∃ k ∈ composedCases own inherited, R.entry k.pre = true := by
  have hnil : r.cases = [] ↔ composedCases own inherited = [] := by
    rw [h.cases.cases_eq, ← List.length_eq_zero_iff, length_guardedCases, List.length_eq_zero_iff]
  have hsome : (∃ k ∈ r.cases, R.entry k.pre = true) ↔
      ∃ k ∈ composedCases own inherited, R.entry k.pre = true := by
    have hmap : ∀ ks : List SpecCase, (∃ k ∈ ks, R.entry k.pre = true) ↔
        ∃ p ∈ ks.map SpecCase.pre, R.entry p = true := fun ks => by simp
    rw [hmap, h.cases.cases_eq, map_pre_guardedCases, ← hmap]
  rw [R.entry_precondition, hnil, hsome]

theorem hasCases_guardedFrom (h : Composed own inherited r)
    (hlt : 1 < (composedCases own inherited).length) :
    r.HasCases (guardedFrom 0 (composedCases own inherited)) := by
  have hcases := h.cases
  rw [guardedCases, if_pos hlt] at hcases
  exact hcases

theorem normal_iff (h : Composed own inherited r)
    (hlt : 1 < (composedCases own inherited).length) (R : Reading r) :
    (∀ e ∈ r.post.entries, R.exit none e.2 = true) ↔
      ∀ k ∈ composedCases own inherited, R.entry k.pre = true → R.NormalHolds k := by
  have hcases := h.hasCases_guardedFrom hlt
  rw [forall_entries_iff hcases.post fun p => R.exit none p = true]
  exact forall_guardedFrom fun i k hk => R.normalHolds_guarded (caseFlag_mem hcases hk)

theorem signals_iff (h : Composed own inherited r)
    (hlt : 1 < (composedCases own inherited).length) (R : Reading r) (applies : Text → Bool) :
    (∀ e ∈ r.xpost.entries, ∀ s ∈ e.2, applies s.type = true →
        R.exit (some (s.type, s.var)) s.pred = true) ↔
      ∀ k ∈ composedCases own inherited, R.entry k.pre = true → R.SignalsHold applies k := by
  have hcases := h.hasCases_guardedFrom hlt
  have hlists : ∀ k : SpecCase, R.SignalsHold applies k ↔ ∀ ss ∈ k.signals, ∀ s ∈ ss,
      applies s.type = true → R.exit (some (s.type, s.var)) s.pred = true := by
    intro k
    unfold Reading.SignalsHold
    cases k.signals <;> simp
  rw [forall_entries_iff hcases.xpost fun ss => ∀ s ∈ ss, applies s.type = true →
    R.exit (some (s.type, s.var)) s.pred = true]
  refine forall_guardedFrom fun i k hk => ?_
  rw [← hlists]
  exact R.signalsHold_guarded applies (caseFlag_mem hcases hk)

end Composed

/-- **The meaning of a composition.**  It is a valid contract, whose cases are those of its
sources, numbered in order.  Its precondition holds exactly if that of some source case does.  If
there is more than one case, its postconditions hold on exit exactly if every source case whose
precondition held on entry is kept; otherwise every clause is that of the source. -/
theorem compose_meaning {own : Contract} {inherited : List Contract} {r : Contract}
    (h : compose own inherited = .ok r) :
    r.validate = .ok () ∧
    r.pre.entries = ((composedCases own inherited).zipIdx.map fun p => ((p.2 : Int), p.1.pre)) ∧
    r.preExprDecls = (composedSources own inherited).flatMap Contract.preExprDecls ∧
    r.preExprs = (composedSources own inherited).flatMap Contract.preExprs ∧
    r.xpostCode = (composedSources own inherited).flatMap Contract.xpostCode ∧
    (∀ (i : Nat) k, (composedCases own inherited)[i]? = some k →
      r.oldExprDecls.get? i = k.oldExprDecls ∧ r.oldExprs.get? i = k.oldExprs ∧
        k.oldVars.getD [] <+: r.oldVars.list i) ∧
    ((composedCases own inherited).length ≤ 1 → r.cases = composedCases own inherited) ∧
    ∀ R : Reading r,
      (R.entry r.precondition = true ↔
        composedCases own inherited = [] ∨
          ∃ k ∈ composedCases own inherited, R.entry k.pre = true) ∧
      (1 < (composedCases own inherited).length →
        ((∀ e ∈ r.post.entries, R.exit none e.2 = true) ↔
          ∀ k ∈ composedCases own inherited, R.entry k.pre = true → R.NormalHolds k) ∧
        ∀ applies : Text → Bool,
          (∀ e ∈ r.xpost.entries, ∀ s ∈ e.2, applies s.type = true →
              R.exit (some (s.type, s.var)) s.pred = true) ↔
            ∀ k ∈ composedCases own inherited, R.entry k.pre = true →
              R.SignalsHold applies k) := by
  have hc := compose_eq_ok h
  refine ⟨Contract.validate_eq_ok.2 hc.cases.closed, hc.entries_eq, hc.preExprDecls, hc.preExprs,
    hc.xpostCode, fun i k hk => hc.oldState hk, hc.cases_of_length_le_one, fun R => ?_⟩
  refine ⟨hc.entry_precondition R, fun hlt => ?_⟩
  exact ⟨hc.normal_iff hlt R, hc.signals_iff hlt R⟩

/-! ### a reading by letters -/

theorem eq_of_insideParens? {s t : Text} (h : insideParens? s = some t) :
    s = '(' :: (t ++ [')']) := by
  cases s with
  | nil => cases h
  | cons c r =>
    rw [insideParens?] at h
    split at h
    case isFalse => cases h
    case isTrue hif =>
      simp only [Bool.and_eq_true, decide_eq_true_eq] at hif
      obtain ⟨⟨⟨rfl, -⟩, hlast⟩, -⟩ := hif
      cases h
      obtain ⟨init, rfl⟩ := List.getLast?_eq_some_iff.1 hlast
      rw [List.dropLast_concat]

theorem mem_stripParens {c : Char} (hblank : isBlank c = false) (hopen : c ≠ '(')
    (hclose : c ≠ ')') (s : Text) (h : c ∈ s) : c ∈ stripParens s := by
  fun_induction stripParens s with
  | case1 s hs => exact h
  | case2 s t hs ih =>
    rw [eq_of_insideParens? hs] at h
    have hmem : c ∈ t := by simpa [hopen, hclose] using h
    exact ih (Text.mem_trim hblank hmem)

theorem assertable_of_mem {c : Char} {p : Text} (hblank : isBlank c = false) (hopen : c ≠ '(')
    (hclose : c ≠ ')') (hletter : c ∉ ("true" : Text)) (h : c ∈ p) : assertable p = true := by
  have hmem : c ∈ stripParens p.trim :=
    mem_stripParens hblank hopen hclose _ (Text.mem_trim hblank h)
  unfold assertable
  simp only [Bool.and_eq_true, bne_iff_ne, ne_eq]
  constructor
  · intro hnil
    rw [hnil] at hmem
    cases hmem
  · intro htrue
    rw [htrue] at hmem
    exact hletter hmem

theorem assertable_of_mem_bar {p : Text} (h : '|' ∈ p) : assertable p = true :=
  assertable_of_mem (by decide) (by decide) (by decide) (by decide) h

theorem mem_caseName {c : Char} {i : Int} (h : c ∈ caseName i) :
    c ∈ ("racOldCase-" : Text) ∨ c.isDigit = true := by
  have hnum : ∀ n : Nat, c ∈ Text.ofNat n → c.isDigit = true := fun n hn =>
    Nat.isDigit_of_mem_toDigits (by decide) (by decide) hn
  have hstem : ∀ {t : Text}, t ⊆ ("racOldCase-" : Text) → c ∈ t → c ∈ ("racOldCase-" : Text) :=
    fun ht hc => ht hc
  unfold caseName at h
  rcases List.mem_append.1 h with h | h
  · rcases List.mem_append.1 h with h | h
    · exact .inl (hstem (by decide) h)
    · exact .inl (hstem (by decide) h)
  · cases i with
    | ofNat n => exact .inr (hnum n h)
    | negSucc n =>
      rcases List.mem_cons.1 h with rfl | h
      · exact .inl (by decide)
      · exact .inr (hnum _ h)

theorem not_mem_caseName {c : Char} (hstem : c ∉ ("racOldCase-" : Text))
    (hdigit : c.isDigit = false) (i : Int) : c ∉ caseName i := by
  intro h
  rcases mem_caseName h with h | h
  · exact hstem h
  · rw [hdigit] at h
    cases h

theorem mem_join {c : Char} {sep : Text} (hc : c ∉ sep) (ps : List Text) :
    c ∈ Text.join sep ps ↔ ∃ p ∈ ps, c ∈ p := by
  match ps with
  | [] => simp [Text.join, List.intercalate]
  | [p] => simp [Text.join, List.intercalate]
  | p :: q :: ps =>
    rw [Text.join_cons_cons, List.mem_append, List.mem_append, mem_join hc (q :: ps)]
    simp [hc]

theorem mem_disjunction {c : Char} (hc : c ∉ ("() |" : Text)) {ps : List Text}
    (h : 1 < ps.length) :
    '|' ∈ Contract.disjunction ps ∧ (c ∈ Contract.disjunction ps ↔ ∃ p ∈ ps, c ∈ p) := by
  have hout : ∀ {t : Text}, t ⊆ ("() |" : Text) → c ∉ t := fun ht hct => hc (ht hct)
  match ps, h with
  | p :: q :: ps, _ =>
    have hshape : Contract.disjunction (p :: q :: ps)
        = ("(" : Text) ++ Text.join ") || (" (p :: q :: ps) ++ (")" : Text) := rfl
    constructor
    · rw [hshape, Text.join_cons_cons]
      simp
    · have hsep := mem_join (hout (t := ") || (") (by decide)) (p :: q :: ps)
      have hopen : c ∉ ("(" : Text) := hout (by decide)
      have hclose : c ∉ (")" : Text) := hout (by decide)
      rw [hshape, List.mem_append, List.mem_append, hsep]
      exact ⟨fun h => (h.resolve_right hclose).resolve_left hopen, fun h => .inl (.inr h)⟩

theorem mem_implies {c : Char} (hc : c ∉ ("!() |" : Text)) {cond : Text} (hcond : c ∉ cond)
    (p : Text) : '|' ∈ implies cond p ∧ (c ∈ implies cond p ↔ c ∈ p) := by
  have hout : ∀ {t : Text}, t ⊆ ("!() |" : Text) → c ∉ t := fun ht hct => hc (ht hct)
  have hbar : '|' ∈ (" || (" : Text) := by decide
  have hnot : c ∉ ("!" : Text) := hout (by decide)
  have hopen : c ∉ (" || (" : Text) := hout (by decide)
  have hclose : c ∉ (")" : Text) := hout (by decide)
  have hshape : implies cond p = ("!" : Text) ++ cond ++ (" || (" : Text) ++ p ++ (")" : Text) := rfl
  rw [hshape]
  simp only [List.mem_append, hbar, hnot, hcond, hopen, hclose, false_or, or_false, or_true,
    true_or, true_and]

/-- texts that can fail hold on entry if the letter n occurs in them, on exit if z does not -/
def letterReading (r : Contract) (h : ∀ e ∈ r.oldVars.entries, ∀ v ∈ e.2, 'n' ∈ v.text) :
    Reading r where
  entry p := !assertable p || decide ('n' ∈ p)
  exit _ p := !assertable p || decide ('z' ∉ p)
  entry_trivial p hp := by rw [hp]; rfl
  exit_trivial _ p hp := by rw [hp]; rfl
  entry_disjunction ps _ hps ha := by
    obtain ⟨hbar, hn⟩ := mem_disjunction (c := 'n') (by decide) hps
    have hany : (ps.any fun p => !assertable p || decide ('n' ∈ p)) = true ↔ ∃ p ∈ ps, 'n' ∈ p := by
      rw [List.any_eq_true]
      refine exists_congr fun p => and_congr_right fun hp => ?_
      rw [ha p hp, Bool.not_true, Bool.false_or, decide_eq_true_iff]
    rw [assertable_of_mem_bar hbar, Bool.not_true, Bool.false_or, Bool.eq_iff_iff, hany,
      decide_eq_true_iff, hn]
  exit_implies b i p ha := by
    have hz : 'z' ∉ caseName i := not_mem_caseName (by decide) (by decide) i
    obtain ⟨hbar, hp⟩ := mem_implies (c := 'z') (by decide) hz p
    rw [assertable_of_mem_bar hbar, ha]
    simp [hp, hz]
  exit_caseName b i e hmem := by
    have hn : 'n' ∉ caseName i := not_mem_caseName (by decide) (by decide) i
    have hz : 'z' ∉ caseName i := not_mem_caseName (by decide) (by decide) i
    have hflag : 'n' ∈ (caseFlag i e).text := by
      unfold CaseTable.list at hmem
      cases hget : r.oldVars.get? i with
      | none => rw [hget] at hmem; cases hmem
      | some vs =>
        rw [hget] at hmem
        exact h _ (r.oldVars.mem_entries_iff.2 hget) _ hmem
    have he : 'n' ∈ e := by
      have hbool : 'n' ∉ (" bool/" : Text) := by decide
      have heq : 'n' ∉ (" = " : Text) := by decide
      have hshape : (caseFlag i e).text
          = caseName i ++ (" bool/" : Text) ++ caseName i ++ (" = " : Text) ++ e := rfl
      rw [hshape] at hflag
      simpa only [List.mem_append, hn, hbool, heq, false_or] using hflag
    simp [hz, he]

/-- a method with one case of its own -/
def pushContract : Contract where
  method := {
    name := "Push", owner := "Stack", receiver := "s", params := [⟨"n", "int", false⟩]
    returnType := "int", visibility := .of .pub }
  pre := .set .empty 0 "n < 9"
  post := .set .empty 0 "racResult >= 0"

/-- the method it overrides, with two cases, an old variable and a signals clause -/
def bagPushContract : Contract where
  method := {
    name := "Push", owner := "Bag", receiver := "b", params := [⟨"x", "int", false⟩]
    returnType := "int", visibility := .of .pub }
  pre := .set (.set .empty 4 "x > 0") 2 "b.full()"
  post := .set .empty 4 "racResult == num + 1"
  xpost := .set .empty 4 [⟨"*FullError", "z", "z.Size > x"⟩]
  oldVars := .set .empty 4 [⟨"num int/num = b.size"⟩]

def composedPushContract : Contract where
  method := pushContract.method
  pre := .set (.set (.set .empty 0 "n < 9") 1 "n > 0") 2 "s.full()"
  post := .set (.set .empty 0 "!racOldCase0 || (racResult >= 0)") 1
    "!racOldCase1 || (racResult == num + 1)"
  xpost := .set .empty 1 [⟨"*FullError", "z", "!racOldCase1 || (z.Size > n)"⟩]
  oldVars := .set (.set .empty 1
    [⟨"num int/num = s.size"⟩, ⟨"racOldCase1 bool/racOldCase1 = n > 0"⟩]) 0
    [⟨"racOldCase0 bool/racOldCase0 = n < 9"⟩]

theorem compose_push : compose pushContract [bagPushContract] = .ok composedPushContract := by
  -- the kernel is slow in reading the characters of a literal, so they are put in its place
  unfold pushContract bagPushContract composedPushContract
  repeat rw [String.toList_ofList]
  decide +kernel

theorem compose_meaning_push :
    compose pushContract [bagPushContract] = .ok composedPushContract ∧
      composedPushContract.validate = .ok () ∧
      1 < (composedCases pushContract [bagPushContract]).length ∧
      ∃ R : Reading composedPushContract,
        R.entry composedPushContract.precondition = true ∧
        (∀ e ∈ composedPushContract.post.entries, R.exit none e.2 = true) ∧
        ¬ ∀ e ∈ composedPushContract.xpost.entries, ∀ s ∈ e.2, true = true →
          R.exit (some (s.type, s.var)) s.pred = true := by
  have h := compose_push
  have hlt : 1 < (composedCases pushContract [bagPushContract]).length := by decide +kernel
  obtain ⟨hvalid, -, -, -, -, -, -, hmeaning⟩ := compose_meaning h
  let R := letterReading composedPushContract (by decide +kernel)
  obtain ⟨hpre, hexit⟩ := hmeaning R
  obtain ⟨hnormal, hsignals⟩ := hexit hlt
  refine ⟨h, hvalid, hlt, R, hpre.2 (.inr ?_), hnormal.2 ?_, ?_⟩
  · show ∃ k ∈ composedCases pushContract [bagPushContract], R.entry k.pre = true
    decide +kernel
  · decide +kernel
  · rw [hsignals fun _ => true]
    decide +kernel

end ContractChecks
