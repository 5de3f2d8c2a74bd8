import ContractChecks.Proofs.CaptureOrder
import ContractChecks.Proofs.SpecCase

/-!
# When there is no capture plan

A plan is made in three passes over a contract: the indices of its tables, the old-state names of its
postconditions, and the old variables of its cases.  Each pass stops at the first thing it refuses.

* `Plan.postOccurrences c`: the names and keywords of the postconditions in the order in which they
  are looked at;
* `Plan.Dangling c e`: an old-state name that its spec case does not declare;
* `checkOld_eq`: the second pass finds the first of these;
* `exists_findBindings_iff`: the third pass accepts old variables with names, of which no two differ
  under one name;
* `Contract.Plannable`: what all three ask for; `extract_plannable_iff`: there is a plan exactly for
  such contracts, and what is said of the others.
-/

namespace ContractChecks

namespace Plan

/-! ### old-state names -/

/-- the names and keywords of the postconditions with their spec cases, those of normal
postconditions before those of signals, both in the order of their tables -/
def postOccurrences (c : Contract) : List (Int × Occurrence) :=
  (c.post.entries.flatMap fun e => (occurrences e.2).map fun o => (e.1, o))
    ++ c.xpost.entries.flatMap fun e =>
      e.2.flatMap fun s => (occurrences s.pred).map fun o => (e.1, o)

/-- an old-state name, no selector, that neither an old variable nor an old expression of its spec
case declares -/
def Dangling (c : Contract) (e : Int × Occurrence) : Prop :=
  e.2.selector = false ∧ isOldToken e.2.text = true ∧
    (∀ v ∈ c.oldVars.list e.1, v.name ≠ e.2.text) ∧
    ∀ d ∈ c.oldExprDecls.list e.1, declaredName d ≠ e.2.text

instance (c : Contract) (e : Int × Occurrence) : Decidable (Dangling c e) :=
  inferInstanceAs (Decidable (_ ∧ _ ∧ _ ∧ _))

theorem postOccurrences_eq (c : Contract) :
    postOccurrences c = (postTexts c).flatMap fun e => (occurrences e.2).map fun o => (e.1, o) := by
  rw [postTexts, List.flatMap_append, List.flatMap_assoc]
  simp only [List.flatMap_map]
  rfl

theorem not_mem_declaredOld_iff {c : Contract} {i : Int} {t : Text} :
    (!(declaredOld c i).contains t) = true ↔
      (∀ v ∈ c.oldVars.list i, v.name ≠ t) ∧ ∀ d ∈ c.oldExprDecls.list i, declaredName d ≠ t := by
  simp [declaredOld]

/-- the first undeclared name of a text is its first dangling occurrence -/
theorem undeclaredOld?_eq (c : Contract) (i : Int) (s : Text) :
    undeclaredOld? c i s
      = (((occurrences s).map fun o => (i, o)).find? fun e => decide (Dangling c e)).map
          fun e => e.2.text := by
  rw [undeclaredOld?, oldTokens, List.find?_map, List.find?_filter, List.find?_map, Option.map_map]
  congr 2
  funext o
  rw [Bool.eq_iff_iff, decide_eq_true_iff, Bool.and_eq_true, Function.comp_apply,
    Function.comp_apply, decide_eq_true_iff, not_mem_declaredOld_iff, Bool.not_eq_true', and_assoc]
  exact Iff.rfl

/-- the check of old-state names refuses the first dangling occurrence -/
theorem checkOld_eq (c : Contract) :
    checkOld c = refuse (((postOccurrences c).find? fun e => decide (Dangling c e)).map
      fun e => .unresolvedOld e.1 e.2.text) := by
  rw [postOccurrences_eq, List.find?_flatMap, List.map_findSome?, ← forM_refuse, checkOld]
  congr 1
  funext e
  rw [undeclaredOld?_eq, Function.comp_apply]
  cases hfind : ((occurrences e.2).map fun o => (e.1, o)).find? fun d => decide (Dangling c d) with
  | none => rfl
  | some d =>
    obtain ⟨o, -, rfl⟩ := List.mem_map.1 (List.mem_of_find?_eq_some hfind)
    rfl

/-! ### old variables -/

theorem mem_oldVarsInOrder {c : Contract} {e : Int × OldVar} :
    e ∈ oldVarsInOrder c ↔ e.1 ∈ c.pre.indices ∧ e.2 ∈ c.oldVars.list e.1 := by
  rw [oldVarsInOrder, List.mem_flatMap]
  constructor
  · rintro ⟨i, hi, he⟩
    obtain ⟨v, hv, rfl⟩ := List.mem_map.1 he
    exact ⟨hi, hv⟩
  · rintro ⟨hi, hv⟩
    exact ⟨e.1, hi, List.mem_map.2 ⟨e.2, hv, rfl⟩⟩

/-- no two variables of the list differ under one name -/
def Agree (vs : List (Int × OldVar)) : Prop :=
  ∀ d ∈ vs, ∀ e ∈ vs, d.2.name = e.2.name → d.2 = e.2

theorem Binds.agree {vs : List (Int × OldVar)} {bs : List Binding} (h : Binds vs bs) :
    Agree vs ∧ ∀ e ∈ vs, e.2.name ≠ [] := by
  constructor
  · intro d hd e he hname
    obtain ⟨a, ha, had⟩ := h.bound d hd
    obtain ⟨b, hb, hbe⟩ := h.bound e he
    have hab : a.name = b.name := by
      rw [(h.source a ha).2.1, (h.source b hb).2.1, had, hbe, hname]
    rw [← had, ← hbe, List.inj_on_of_nodup_map h.nodup ha hb hab]
  · intro e he
    obtain ⟨b, hb, hbe⟩ := h.bound e he
    rw [← hbe, ← (h.source b hb).2.1]
    exact (h.source b hb).2.2

/-- one more variable is accepted if it has a name and agrees with those before it -/
theorem Binds.exists_addBinding (c : Contract) (oracle : Oracle) {vs : List (Int × OldVar)}
    {bs : List Binding} (h : Binds vs bs) {e : Int × OldVar} (hne : e.2.name ≠ [])
    (hagree : Agree (vs ++ [e])) : ∃ bs', Plan.addBinding c oracle bs e = .ok bs' := by
  simp only [Plan.addBinding]
  rw [if_neg hne]
  cases hfind : bs.find? fun b => b.name = e.2.name with
  | none => exact ⟨_, rfl⟩
  | some b =>
    have hb := List.mem_of_find?_eq_some hfind
    have hname : b.name = e.2.name := by simpa using List.find?_some hfind
    have hvar : b.var = e.2 := by
      refine hagree _ (List.mem_append_left _ (h.source b hb).1) e (by simp) ?_
      rw [← hname, (h.source b hb).2.1]
    exact ⟨bs, if_pos hvar⟩

theorem Binds.exists_foldlM (c : Contract) (oracle : Oracle) {vs ws : List (Int × OldVar)}
    {bs : List Binding} (h : Binds vs bs) (hne : ∀ e ∈ ws, e.2.name ≠ [])
    (hagree : Agree (vs ++ ws)) : ∃ bs', ws.foldlM (Plan.addBinding c oracle) bs = .ok bs' := by
  induction ws generalizing vs bs with
  | nil => exact ⟨bs, rfl⟩
  | cons e ws ih =>
    rw [List.forall_mem_cons] at hne
    rw [List.append_cons] at hagree
    have hfirst : Agree (vs ++ [e]) := fun a ha b hb =>
      hagree a (List.mem_append_left _ ha) b (List.mem_append_left _ hb)
    obtain ⟨bs₁, h₁⟩ := h.exists_addBinding c oracle hne.1 hfirst
    obtain ⟨bs₂, h₂⟩ := ih (h.addBinding h₁) hne.2 hagree
    refine ⟨bs₂, ?_⟩
    rw [List.foldlM_cons, h₁]
    exact h₂

theorem exists_findBindings_iff (c : Contract) (oracle : Oracle) :
    (∃ bs, findBindings c oracle = .ok bs) ↔
      Agree (oldVarsInOrder c) ∧ ∀ e ∈ oldVarsInOrder c, e.2.name ≠ [] := by
  have hnil : Binds [] [] := ⟨by simp, by simp, List.nodup_nil⟩
  constructor
  · rintro ⟨bs, hbs⟩
    exact (hnil.foldlM hbs).agree
  · rintro ⟨hagree, hne⟩
    exact hnil.exists_foldlM c oracle hne hagree

/-! ### faults -/

theorem checkTable_eq_error {c : Contract} {table : DependentTable} {is : List Int} {f : Fault}
    (h : c.checkTable table is = .error f) : ∃ i problem, f = .clause i problem := by
  rw [Contract.checkTable] at h
  split at h
  · cases h
    exact ⟨_, _, rfl⟩
  · cases h

theorem validate_eq_error {c : Contract} {f : Fault} (h : c.validate = .error f) :
    ∃ i problem, f = .clause i problem := by
  rw [Contract.validate] at h
  rcases except_bind_eq_error h with h | ⟨_, _, h⟩
  · exact checkTable_eq_error h
  rcases except_bind_eq_error h with h | ⟨_, _, h⟩
  · exact checkTable_eq_error h
  rcases except_bind_eq_error h with h | ⟨_, _, h⟩
  · exact checkTable_eq_error h
  rcases except_bind_eq_error h with h | ⟨_, _, h⟩
  · exact checkTable_eq_error h
  · exact checkTable_eq_error h

theorem addBinding_eq_error {c : Contract} {oracle : Oracle} {bs : List Binding}
    {e : Int × OldVar} {f : Fault} (h : addBinding c oracle bs e = .error f) :
    ∃ i problem, f = .clause i problem := by
  simp only [addBinding] at h
  split at h
  · cases h
    exact ⟨_, _, rfl⟩
  split at h
  · split at h
    · cases h
    · cases h
      exact ⟨_, _, rfl⟩
  · cases h

theorem checkOld_eq_error {c : Contract} {f : Fault} (h : checkOld c = .error f) :
    ∃ i token, f = .unresolvedOld i token := by
  rw [checkOld_eq] at h
  cases hfind : (postOccurrences c).find? fun e => decide (Dangling c e) with
  | none =>
    rw [hfind] at h
    cases h
  | some e =>
    rw [hfind] at h
    cases h
    exact ⟨_, _, rfl⟩

theorem checkOld_eq_ok_iff {c : Contract} :
    checkOld c = .ok () ↔ ∀ e ∈ postOccurrences c, ¬Dangling c e := by
  have hnone : ((postOccurrences c).find? fun e => decide (Dangling c e)) = none ↔
      ∀ e ∈ postOccurrences c, ¬Dangling c e := by
    simp only [List.find?_eq_none, decide_eq_true_eq]
  rw [← hnone, checkOld_eq]
  cases (postOccurrences c).find? fun e => decide (Dangling c e) with
  | none => exact iff_of_true rfl rfl
  | some e => exact iff_of_false (by rintro ⟨⟩) (by rintro ⟨⟩)

theorem extract_eq_error {c : Contract} {oracle : Oracle} {f : Fault}
    (h : extract c oracle = .error f) :
    (∃ i problem, f = .clause i problem) ∨ ∃ i token, f = .unresolvedOld i token := by
  rcases except_bind_eq_error h with h | ⟨_, _, h⟩
  · exact .inl (validate_eq_error h)
  rcases except_bind_eq_error h with h | ⟨_, _, h⟩
  · exact .inr (checkOld_eq_error h)
  rcases except_bind_eq_error h with h | ⟨_, _, h⟩
  · exact .inl (foldlM_eq_error (fun _ _ _ => addBinding_eq_error) h)
  · cases h

end Plan

/-! ### contracts with a plan -/

/-- what a contract needs for a plan of its captures -/
structure Contract.Plannable (c : Contract) : Prop where
  closed : c.Closed
  resolved : ∀ e ∈ Plan.postOccurrences c, ¬Plan.Dangling c e
  named : ∀ i, ∀ v ∈ c.oldVars.list i, v.name ≠ []
  agree : ∀ i j, ∀ v ∈ c.oldVars.list i, ∀ w ∈ c.oldVars.list j, v.name = w.name → v.text = w.text

theorem Contract.Closed.mem_oldVarsInOrder {c : Contract} (h : c.Closed) {i : Int} {v : OldVar}
    (hv : v ∈ c.oldVars.list i) : (i, v) ∈ Plan.oldVarsInOrder c := by
  obtain ⟨vs, hvs, -⟩ := CaseTable.mem_list hv
  exact Plan.mem_oldVarsInOrder.2 ⟨h.oldVars i (List.mem_map_of_mem hvs), hv⟩

theorem Contract.Closed.findBindings_iff {c : Contract} (h : c.Closed) (oracle : Oracle) :
    (∃ bs, Plan.findBindings c oracle = .ok bs) ↔
      (∀ i, ∀ v ∈ c.oldVars.list i, v.name ≠ []) ∧
        ∀ i j, ∀ v ∈ c.oldVars.list i, ∀ w ∈ c.oldVars.list j, v.name = w.name → v.text = w.text := by
  rw [Plan.exists_findBindings_iff]
  constructor
  · rintro ⟨hagree, hne⟩
    refine ⟨fun i v hv => hne (i, v) (h.mem_oldVarsInOrder hv), fun i j v hv w hw hname => ?_⟩
    exact congrArg OldVar.text
      (hagree (i, v) (h.mem_oldVarsInOrder hv) (j, w) (h.mem_oldVarsInOrder hw) hname)
  · rintro ⟨hne, hagree⟩
    refine ⟨fun d hd e he hname => ?_, fun e he => hne e.1 e.2 (Plan.mem_oldVarsInOrder.1 he).2⟩
    have htext := hagree d.1 e.1 d.2 (Plan.mem_oldVarsInOrder.1 hd).2 e.2
      (Plan.mem_oldVarsInOrder.1 he).2 hname
    rw [OldVar.mk.injEq]
    exact htext

theorem Plan.exists_extract_iff {c : Contract} {oracle : Oracle} :
    (∃ plan, Plan.extract c oracle = .ok plan) ↔ c.Plannable := by
  constructor
  · rintro ⟨plan, h⟩
    obtain ⟨_, hvalid, h⟩ := except_bind_eq_ok h
    obtain ⟨_, hcheck, h⟩ := except_bind_eq_ok h
    obtain ⟨bs, hbs, -⟩ := except_bind_eq_ok h
    have hclosed := Contract.validate_eq_ok.1 hvalid
    obtain ⟨hnamed, hagree⟩ := (hclosed.findBindings_iff oracle).1 ⟨bs, hbs⟩
    exact ⟨hclosed, Plan.checkOld_eq_ok_iff.1 hcheck, hnamed, hagree⟩
  · rintro ⟨hclosed, hresolved, hnamed, hagree⟩
    obtain ⟨bs, hbs⟩ := (hclosed.findBindings_iff oracle).2 ⟨hnamed, hagree⟩
    refine ⟨Plan.ofBindings c bs, ?_⟩
    rw [Plan.extract, Contract.validate_eq_ok.2 hclosed, Plan.checkOld_eq_ok_iff.2 hresolved, hbs]
    rfl

/-- the first dangling occurrence is the one that is reported -/
theorem Plan.extract_dangling {c : Contract} (hclosed : c.Closed) (oracle : Oracle)
    (h : ∃ e ∈ Plan.postOccurrences c, Plan.Dangling c e) :
    ∃ before e after, Plan.postOccurrences c = before ++ e :: after ∧
      (∀ d ∈ before, ¬Plan.Dangling c d) ∧ Plan.Dangling c e ∧
      Plan.extract c oracle = .error (.unresolvedOld e.1 e.2.text) := by
  cases hfind : (Plan.postOccurrences c).find? fun e => decide (Plan.Dangling c e) with
  | none =>
    obtain ⟨e, he, hdangling⟩ := h
    exact absurd (decide_eq_true hdangling) (List.find?_eq_none.1 hfind e he)
  | some e =>
    obtain ⟨hdangling, before, after, hsplit, hbefore⟩ := List.find?_eq_some_iff_append.1 hfind
    refine ⟨before, e, after, hsplit, fun d hd => ?_, of_decide_eq_true hdangling, ?_⟩
    · simpa using hbefore d hd
    · rw [Plan.extract, Contract.validate_eq_ok.2 hclosed, Plan.checkOld_eq, hfind]
      rfl

/-- There is a plan exactly if every table keeps to the declared cases, every old-state name of a
postcondition is declared for its case, and the old variables have names that tell them apart.
Otherwise a clause or an old-state name is to blame, and the first name without a declaration if the
tables keep to the cases. -/
theorem extract_plannable_iff (c : Contract) (oracle : Oracle) :
    ((∃ plan, Plan.extract c oracle = .ok plan) ↔ c.Plannable) ∧
      (¬c.Plannable → ∃ f, Plan.extract c oracle = .error f ∧
        ((∃ i problem, f = .clause i problem) ∨ ∃ i token, f = .unresolvedOld i token)) ∧
      (c.Closed → (∃ e ∈ Plan.postOccurrences c, Plan.Dangling c e) →
        ∃ before e after, Plan.postOccurrences c = before ++ e :: after ∧
          (∀ d ∈ before, ¬Plan.Dangling c d) ∧ Plan.Dangling c e ∧
          Plan.extract c oracle = .error (.unresolvedOld e.1 e.2.text)) := by
  refine ⟨Plan.exists_extract_iff, fun hnot => ?_, fun hclosed => Plan.extract_dangling hclosed oracle⟩
  cases hextract : Plan.extract c oracle with
  | ok plan => exact absurd (Plan.exists_extract_iff.1 ⟨plan, hextract⟩) hnot
  | error f => exact ⟨f, rfl, Plan.extract_eq_error hextract⟩

/-- two cases that declare one old variable with the same text -/
def blendContract : Contract where
  method := { name := "Blend", owner := "Tank", receiver := "t", visibility := .of .pub }
  pre := .set (.set .empty 0 "n > 0") 1 "n <= 0"
  post := .set .empty 0 "t.level >= racOldLevel"
  xpost := .set .empty 1 [{ type := "Dry", pred := "t.racOldTop == 0 && t.level == racOldLevel" }]
  oldVars := .set (.set .empty 0 [⟨"racOldLevel int/racOldLevel = t.level"⟩]) 1
    [⟨"racOldLevel int/racOldLevel = t.level"⟩]

/-- its second case no longer declares the variable -/
def curdleContract : Contract :=
  { blendContract with oldVars := .set .empty 0 [⟨"racOldLevel int/racOldLevel = t.level"⟩] }

theorem extract_plannable_blend : blendContract.Plannable ∧ curdleContract.Closed ∧
    (∃ e ∈ Plan.postOccurrences curdleContract, Plan.Dangling curdleContract e) ∧
    ∃ before e after, Plan.postOccurrences curdleContract = before ++ e :: after ∧
      (∀ d ∈ before, ¬Plan.Dangling curdleContract d) ∧
      Fault.unresolvedOld e.1 e.2.text = .unresolvedOld 1 "racOldLevel" := by
  obtain ⟨plan, hplan, -⟩ := exists_eq_ok (x := Plan.extract blendContract (.scanning []))
    (p := fun _ => true) (by
      -- the kernel is slow in reading the characters of a literal, so they are put in its place
      unfold blendContract
      repeat rw [String.toList_ofList]
      decide +kernel)
  have hclosed : curdleContract.Closed := Contract.validate_eq_ok.1 (by decide +kernel)
  have hdangling : ∃ e ∈ Plan.postOccurrences curdleContract, Plan.Dangling curdleContract e := by
    unfold curdleContract blendContract
    repeat rw [String.toList_ofList]
    decide +kernel
  have hfault : Plan.extract curdleContract (.scanning [])
      = .error (.unresolvedOld 1 "racOldLevel") := by
    unfold curdleContract blendContract
    repeat rw [String.toList_ofList]
    decide +kernel
  obtain ⟨before, e, after, hsplit, hbefore, -, hextract⟩ :=
    (extract_plannable_iff curdleContract (.scanning [])).2.2 hclosed hdangling
  rw [hfault] at hextract
  exact ⟨(extract_plannable_iff blendContract (.scanning [])).1.1 ⟨plan, hplan⟩, hclosed, hdangling,
    before, e, after, hsplit, hbefore, (Except.error.inj hextract).symm⟩

end ContractChecks
