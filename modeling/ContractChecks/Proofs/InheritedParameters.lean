import ContractChecks.Proofs.InheritedClauses
import ContractChecks.Proofs.ScopeNames

/-!
# Parameters of inherited contracts

An inherited contract speaks of its own parameters.  Its renaming puts the names of the override in
their place, and the wrapper names its parameters after those of the override, except for those that
have no name there.  The two agree unless a parameter that is used has no name in the override.

* `image_inheritedRenaming`: what becomes of the parameter at a position;
* `Wrapper.paramAt w m i`: the parameter of a wrapper for the position `i` of the method;
* `SourceRuns`: the clauses of a source are run by the wrapper;
* `ParameterKept`: the renaming and the wrapper give the parameter the same name;
* `inherited_parameters_iff`: so every use of a parameter means the parameter of the wrapper.
-/

namespace ContractChecks

open Merge (implies caseName)

/-! ### the renaming of parameters -/

/-- what `paramRenaming` does with one pair of parameters -/
def renameParam (f : Renaming) (p : Param × Param) : Renaming :=
  if !isBlankName p.2.name && p.1.name != [] && p.2.name != p.1.name then
    f.set p.2.name p.1.name
  else f

theorem get?_renameParam_of_ne (f : Renaming) {p : Param × Param} {a : Text} (h : a ≠ p.2.name) :
    (renameParam f p).get? a = f.get? a := by
  unfold renameParam
  split
  · rw [Renaming.get?_set, if_neg h]
  · rfl

theorem get?_renameParam {f : Renaming} {p : Param × Param} (hnamed : isBlankName p.2.name = false)
    (hfree : f.get? p.2.name = none) :
    (renameParam f p).image p.2.name = if p.1.name = [] then p.2.name else p.1.name := by
  unfold renameParam
  rw [hnamed, Bool.not_false, Bool.true_and]
  by_cases hnil : p.1.name = []
  · rw [hnil, if_pos rfl, bne_self_eq_false, Bool.false_and, if_neg (by decide)]
    exact Renaming.image_of_none hfree
  · rw [if_neg hnil, bne_iff_ne.2 hnil, Bool.true_and]
    by_cases hsame : p.2.name = p.1.name
    · rw [hsame, bne_self_eq_false, if_neg (by decide), ← hsame]
      exact Renaming.image_of_none hfree
    · rw [if_pos (bne_iff_ne.2 hsame)]
      exact Renaming.image_of_some (by rw [Renaming.get?_set, if_pos rfl])

theorem get?_foldl_renameParam (ps : List (Param × Param)) {f : Renaming} {a : Text}
    (h : ∀ p ∈ ps, a ≠ p.2.name) : (ps.foldl renameParam f).get? a = f.get? a := by
  induction ps generalizing f with
  | nil => rfl
  | cons p ps ih =>
    rw [List.foldl_cons, ih fun q hq => h q (List.mem_cons_of_mem p hq),
      get?_renameParam_of_ne f (h p List.mem_cons_self)]

/-- receiver and parameters have different names -/
def Method.Distinct (m : Method) : Prop := (m.receiverName :: m.givenNames).Nodup

instance (m : Method) : Decidable m.Distinct :=
  inferInstanceAs (Decidable (m.receiverName :: m.givenNames).Nodup)

def Method.NamesAt (m : Method) (i : Nat) (a : Text) : Prop :=
  m.paramNames[i]? = some a ∧ isBlankName a = false

theorem Method.NamesAt.mem {m : Method} {i : Nat} {a : Text} (h : m.NamesAt i a) :
    a ∈ m.givenNames :=
  List.mem_filter.2 ⟨List.mem_of_getElem? h.1, by rw [h.2]; rfl⟩

theorem nodup_filter_cons {n : Text} {ns : List Text} (h : (((n :: ns).filter fun n =>
    !isBlankName n)).Nodup) :
    (ns.filter fun n => !isBlankName n).Nodup ∧ ∀ a ∈ ns, isBlankName a = false → a ≠ n := by
  rw [List.filter_cons] at h
  split at h
  · obtain ⟨hnot, hrest⟩ := List.nodup_cons.1 h
    refine ⟨hrest, fun a ha hnamed heq => hnot (List.mem_filter.2 ⟨heq ▸ ha, ?_⟩)⟩
    rw [← heq, hnamed]
    rfl
  · rename_i hblank
    refine ⟨h, fun a _ hnamed heq => hblank ?_⟩
    rw [← heq, hnamed]
    rfl

/-- of parameters with different names, only the pair at the position of a name changes it -/
theorem image_foldl_renameParam {p q : Param} (hnamed : isBlankName q.name = false)
    (os qs : List Param) {f : Renaming} (hfree : f.get? q.name = none) {i : Nat}
    (hnodup : ((qs.map Param.name).filter fun n => !isBlankName n).Nodup)
    (hp : os[i]? = some p) (hq : qs[i]? = some q) :
    ((os.zip qs).foldl renameParam f).image q.name = if p.name = [] then q.name else p.name := by
  induction os generalizing qs f i with
  | nil => cases hp
  | cons o os ih =>
    cases qs with
    | nil => cases hq
    | cons r qs =>
      obtain ⟨hrest, hother⟩ := nodup_filter_cons hnodup
      rw [List.zip_cons_cons, List.foldl_cons]
      cases i with
      | zero =>
        cases hp
        cases hq
        have hlater : ∀ e ∈ os.zip qs, q.name ≠ e.2.name := by
          intro e he heq
          have hmem := List.mem_map_of_mem (f := Param.name) (List.of_mem_zip he).2
          exact hother _ hmem (heq ▸ hnamed) heq.symm
        rw [Renaming.image, get?_foldl_renameParam _ hlater]
        exact get?_renameParam hnamed hfree
      | succ i =>
        have hne : q.name ≠ r.name :=
          hother _ (List.mem_map_of_mem (f := Param.name) (List.mem_of_getElem? hq)) hnamed
        refine ih qs ?_ hrest hp hq
        rw [get?_renameParam_of_ne f (p := (o, r)) hne]
        exact hfree

/-- a parameter gets the name of the override's, if that has one -/
theorem image_inheritedRenaming {own : Method} {c : Contract} (hdistinct : c.method.Distinct)
    {i : Nat} {a b : Text} (ha : c.method.NamesAt i a) (htemp : a ∉ c.temporaries)
    (hb : own.paramNames[i]? = some b) (taken : List Text) (level : Nat) :
    (inheritedRenaming taken own c level).1.image a = if b = [] then a else b := by
  obtain ⟨hreceiver, hnodup⟩ := List.nodup_cons.1 hdistinct
  have hne : a ≠ c.method.receiverName := fun heq => hreceiver (heq ▸ ha.mem)
  have hfresh : freshName? level taken c.temporaries a = none := by
    cases h : freshName? level taken c.temporaries a with
    | none => rfl
    | some x => exact absurd (freshName?_eq_some h).1 htemp
  have hsignature : (signatureRenaming own c.method).get? a = (paramRenaming own c.method).get? a := by
    unfold signatureRenaming
    split
    · rfl
    · rw [Renaming.get?_set, if_neg hne]
  obtain ⟨hget, hnamed⟩ := ha
  rw [Method.paramNames, List.getElem?_map, Option.map_eq_some_iff] at hget hb
  obtain ⟨q, hq, rfl⟩ := hget
  obtain ⟨p, hp, rfl⟩ := hb
  rw [Renaming.image, (inheritedRenaming_spec taken own c level).1, hfresh, Option.none_or, hsignature]
  exact image_foldl_renameParam (f := []) hnamed own.params c.method.params rfl hnodup hp hq

/-! ### the parameters of a wrapper -/

def Wrapper.paramAt (w : Wrapper) (m : Method) (i : Nat) : Option Param :=
  (w.params.drop (w.params.length - m.params.length))[i]?

theorem params_wrapperHead (m : Method) (mode : Mode) :
    ∃ before, (wrapperHead m mode false).params = before ++ namedParams m.params := by
  cases mode with
  | direct => exact ⟨[], rfl⟩
  | _ => exact ⟨(receiverParam? m).toList, rfl⟩

theorem paramAt_wrapper {c : Contract} {mode : Mode} {oracle : Oracle} {w : Wrapper}
    {family : ViolationFamily} {sig : Signature} {plan : Plan} {t : WrapperTexts}
    (h : SynthesisSteps c mode oracle w family sig plan t)
    (hcross : oracle.isCrosscut c.method = false) (i : Nat) :
    w.paramAt c.method i = (c.method.params[i]?).map fun p => namedParam p i := by
  have hparams : w.params = (wrapperHead c.method mode false).params := by
    obtain ⟨hcrosscut, -, hparams⟩ := signature_head h.sig_eq
    rw [hcrosscut, hcross] at hparams
    rw [h.wrapper_eq]
    exact hparams
  obtain ⟨before, hbefore⟩ := params_wrapperHead c.method mode
  have hlength : (namedParams c.method.params).length = c.method.params.length := by
    rw [namedParams, List.length_map, List.length_zipIdx]
  have hdrop : w.params.drop (w.params.length - c.method.params.length)
      = namedParams c.method.params := by
    rw [hparams, hbefore, List.length_append, hlength, Nat.add_sub_cancel, List.drop_left]
  rw [Wrapper.paramAt, hdrop, namedParams, List.getElem?_map, List.getElem?_zipIdx, Nat.zero_add]
  cases c.method.params[i]? <;> rfl

/-! ### when the names agree -/

/-- the wrapper's name for the parameter at the position is the one that an inherited contract gets:
the override names it, and not after the object under construction, or the contract happens to use
the name that the wrapper makes up -/
def ParameterKept (f : Renaming) (own inherited : Text) (i : Nat) : Prop :=
  (isBlankName own = false ∧ f.get? own = none) ∨
    (own = [] ∧ inherited = argName i)

theorem image_eq_argName_iff {f : Renaming} (hf : f = [] ∨ f = objectRenaming) (a : Text) (i : Nat) :
    f.image a = argName i ↔ a = argName i := by
  rcases hf with rfl | rfl
  · exact Iff.rfl
  · rw [image_objectRenaming]
    split
    · rename_i ha
      subst ha
      exact iff_of_false (argName_ne i (by decide)).symm (argName_ne i (by decide)).symm
    · exact Iff.rfl

theorem image_eq_self_iff {f : Renaming} (hf : f = [] ∨ f = objectRenaming) (a : Text) :
    f.image a = a ↔ f.get? a = none := by
  refine ⟨fun himage => ?_, Renaming.image_of_none⟩
  cases hget : f.get? a with
  | none => rfl
  | some x =>
    rw [Renaming.image_of_some hget] at himage
    subst himage
    rcases hf with rfl | rfl
    · cases hget
    · obtain ⟨hobject, hresult⟩ := get?_objectRenaming hget
      rw [hobject] at hresult
      exact absurd hresult (by decide)

theorem image_eq_namedParam_iff {f : Renaming} (hf : f = [] ∨ f = objectRenaming) (p : Param)
    (a : Text) (i : Nat) :
    f.image (if p.name = [] then a else p.name) = (namedParam p i).name ↔
      ParameterKept f p.name a i := by
  unfold namedParam ParameterKept
  by_cases hblank : isBlankName p.name = true
  · rw [if_pos hblank, hblank]
    by_cases hnil : p.name = []
    · rw [if_pos hnil]
      show f.image a = argName i ↔ _
      rw [image_eq_argName_iff hf]
      simp [hnil]
    · have hunderscore : p.name = ['_'] := by simpa [isBlankName, hnil] using hblank
      rw [if_neg hnil]
      show f.image p.name = argName i ↔ _
      rw [image_eq_argName_iff hf, hunderscore]
      refine iff_of_false (argName_ne i (by decide)).symm ?_
      simp
  · have hne : p.name ≠ [] := by
      intro hnil
      rw [hnil] at hblank
      exact hblank rfl
    rw [if_neg hblank, if_neg hne, image_eq_self_iff hf, Bool.eq_false_iff.2 hblank]
    simp [hne]

/-! ### the clauses of a source in the wrapper -/

/-- the predicate, or the predicate under the variable of a case, is among the texts -/
def RunsGuarded (p : Text) (ts : List Text) : Prop :=
  p ∈ ts ∨ ∃ n : Nat, implies (caseName n) p ∈ ts

/-- the wrapper of a composition `r` runs the clauses of a source, renamed.  Its precondition is the
disjunction of those of all cases. -/
structure SourceRuns (l : Contract × Renaming) (r : Contract) (plan : Plan) : Prop where
  pre : ∀ e ∈ l.1.pre.entries, rename l.2 e.2 ∈ r.pre.entries.map Prod.snd
  preExprs : ∀ s ∈ l.1.preExprs, rename l.2 s ∈ r.expandedTexts plan
  oldExprs : ∀ i, ∀ s ∈ l.1.oldExprs.list i, rename l.2 s ∈ r.expandedTexts plan
  oldVars : ∀ i, ∀ v ∈ l.1.oldVars.list i, (v.renamed l.2).capture ≠ [] →
    (v.renamed l.2).capture ∈ r.expandedTexts plan
  posts : ∀ i p, l.1.post.get? i = some p → assertable (rename l.2 p) = true →
    RunsGuarded (rename l.2 p) (r.expandedTexts plan)
  signals : r.xpostCode = [] → ∀ i, ∀ s ∈ l.1.xpost.list i, assertable (rename l.2 s.pred) = true →
    RunsGuarded (rename l.2 s.pred) (r.expandedTexts plan)

theorem SourceCase.text_cases (k : SourceCase) (total n : Nat) (p : Text) {ts : List Text}
    (h : k.text total n p ∈ ts) : RunsGuarded (rename k.names p) ts := by
  unfold SourceCase.text at h
  split at h
  · exact .inr ⟨n, h⟩
  · exact .inl h

section

variable {own : Contract} {inherited : List Contract} {r : Contract} {oracle : Oracle} {plan : Plan}

/-- the late captures are those of a case after the other -/
theorem mem_late {c : Contract} (hplan : Plan.extract c oracle = .ok plan) {i : Int}
    (hi : i ∈ c.pre.indices) {s : Text} (hs : s ∈ Plan.lateOf c plan.bindings i) : s ∈ plan.late := by
  rw [(Plan.extract_eq_ok hplan).1]
  exact List.mem_flatMap.2 ⟨i, hi, hs⟩

theorem capture_mem {c : Contract} (hplan : Plan.extract c oracle = .ok plan) {i : Int}
    (hi : i ∈ c.pre.indices) {v : OldVar} (hv : v ∈ c.oldVars.list i) (hcapture : v.capture ≠ []) :
    v.capture ∈ plan.early ∨ v.capture ∈ plan.late := by
  have hin : (i, v) ∈ Plan.oldVarsInOrder c :=
    List.mem_flatMap.2 ⟨i, hi, List.mem_map.2 ⟨v, hv, rfl⟩⟩
  obtain ⟨b, hb, rfl⟩ := (Plan.binds_extract hplan).bound _ hin
  have hmem : ∀ {bs : List Binding}, b ∈ bs → b.var.capture ∈ Plan.captures Binding.var bs := fun hbs =>
    List.mem_filter.2 ⟨List.mem_map_of_mem hbs, bne_iff_ne.2 hcapture⟩
  obtain ⟨hofBindings, hgrouped, -⟩ := Plan.extract_eq_ok hplan
  cases hearly : b.early with
  | true =>
    left
    rw [hofBindings]
    exact hmem (List.mem_filter.2 ⟨hb, hearly⟩)
  | false =>
    right
    refine mem_late hplan (hgrouped.index_mem b hb) (List.mem_append_left _ (hmem ?_))
    refine List.mem_filter.2 ⟨hb, ?_⟩
    rw [hearly, decide_eq_true rfl]
    rfl

/-! A case of the composition has what its source has. -/

section

variable {n : Nat} {k : SourceCase} (hc : Composed own inherited r)
  (hk : (sourceCases own inherited)[n]? = some k)
include hk

theorem copy_getElem? : (composedCases own inherited)[n]? = some k.copy := by
  rw [composedCases_eq, List.getElem?_map, hk]
  rfl

include hc

theorem Composed.pre_eq : r.pre.get? n = some (rename k.names k.pre) := by
  rw [hc.cases.pre, caseNumbered_sourceCase hk, Option.map_some]
  split
  · exact congrArg some (pre_guarded _ n)
  · rfl

theorem Composed.index_mem : (n : Int) ∈ r.pre.indices :=
  r.pre.mem_indices_iff.2 ⟨_, hc.pre_eq hk⟩

theorem Composed.mem_oldExprs {s : Text} (hs : s ∈ k.contract.oldExprs.list k.index) :
    rename k.names s ∈ r.oldExprs.list n := by
  obtain ⟨es, hes, hs⟩ := CaseTable.mem_list hs
  obtain ⟨-, hexprs, -⟩ := hc.oldState (copy_getElem? hk)
  rw [CaseTable.list, hexprs]
  show _ ∈ ((k.contract.oldExprs.mapValues fun _ es => es.map (rename k.names)).get? k.index).getD []
  rw [CaseTable.get?_mapValues, k.contract.oldExprs.mem_entries_iff.1 hes]
  exact List.mem_map_of_mem hs

theorem Composed.mem_oldVars {v : OldVar} (hv : v ∈ k.contract.oldVars.list k.index) :
    v.renamed k.names ∈ r.oldVars.list n := by
  obtain ⟨vs, hvs, hv⟩ := CaseTable.mem_list hv
  obtain ⟨-, -, hvars⟩ := hc.oldState (copy_getElem? hk)
  refine hvars.subset ?_
  show _ ∈ ((k.contract.oldVars.mapValues fun _ vs => vs.map (OldVar.renamed k.names)).get?
    k.index).getD []
  rw [CaseTable.get?_mapValues, k.contract.oldVars.mem_entries_iff.1 hvs]
  exact List.mem_map_of_mem hv

end

theorem sourceRuns (hc : Composed own inherited r) (hplan : Plan.extract r oracle = .ok plan)
    {l : Contract × Renaming} (hl : l ∈ sourcesOf own inherited) : SourceRuns l r plan := by
  have hclosed := hc.closed_of_mem_sourcesOf hl
  have hlate : ∀ {s}, s ∈ plan.late → s ∈ r.expandedTexts plan := fun h =>
    mem_expandedTexts.2 (.inr (.inr (.inr (.inl h))))
  constructor
  case pre =>
    intro e he
    obtain ⟨n, hk⟩ := exists_sourceCase_of_mem hl he
    exact List.mem_map_of_mem (f := Prod.snd) (r.pre.mem_entries_iff.2 (hc.pre_eq hk))
  case preExprs =>
    intro s hs
    have hmem : rename l.2 s ∈ plan.preExprs := by
      rw [(Plan.extract_eq_ok hplan).1]
      show rename l.2 s ∈ r.preExprs
      rw [hc.preExprs, composedSources_eq, List.flatMap_map]
      exact List.mem_flatMap.2 ⟨l, hl, List.mem_map_of_mem hs⟩
    exact mem_expandedTexts.2 (.inr (.inl hmem))
  case oldExprs =>
    intro i s hs
    obtain ⟨es, hes, -⟩ := CaseTable.mem_list hs
    obtain ⟨n, pre, hk⟩ := exists_sourceCase hl (hclosed.oldExprs i (List.mem_map_of_mem hes))
    have hmem := hc.mem_oldExprs hk hs
    exact hlate (mem_late hplan (hc.index_mem hk) (List.mem_append_right _ hmem))
  case oldVars =>
    intro i v hv hcapture
    obtain ⟨vs, hvs, -⟩ := CaseTable.mem_list hv
    obtain ⟨n, pre, hk⟩ := exists_sourceCase hl (hclosed.oldVars i (List.mem_map_of_mem hvs))
    have hmem := hc.mem_oldVars hk hv
    rcases capture_mem hplan (hc.index_mem hk) hmem hcapture with hearly | h
    · exact mem_expandedTexts.2 (.inl hearly)
    · exact hlate h
  case posts =>
    intro i p hp ha
    obtain ⟨n, pre, hk⟩ := exists_sourceCase hl (hclosed.post i (l.1.post.mem_indices_iff.2 ⟨p, hp⟩))
    have hfail := assertable_text (k := ⟨l.1, l.2, i, pre⟩) ha (sourceCases own inherited).length n
    have hchecked : ((n : Int), _) ∈ checkedPosts r :=
      List.mem_filter.2 ⟨r.post.mem_entries_iff.2 (hc.post_eq hk hp ha), hfail⟩
    have hmem := List.mem_map_of_mem (f := Prod.snd) hchecked
    exact SourceCase.text_cases _ _ n p (mem_expandedTexts.2 (.inr (.inr (.inr (.inr (.inl hmem))))))
  case signals =>
    intro hcode i s hs ha
    obtain ⟨ss, hss, -⟩ := CaseTable.mem_list hs
    obtain ⟨n, pre, hk⟩ := exists_sourceCase hl (hclosed.xpost i (List.mem_map_of_mem hss))
    have hfail := assertable_text (k := ⟨l.1, l.2, i, pre⟩) ha (sourceCases own inherited).length n
    have hchecked := mem_checkedSignals.2 ⟨hc.mem_xpost hk hs ha, hfail⟩
    have hmem := List.mem_map_of_mem (f := fun e : Int × Signals => e.2.pred) hchecked
    exact SourceCase.text_cases _ _ n s.pred
      (mem_expandedTexts.2 (.inr (.inr (.inr (.inr (.inr ⟨hcode, hmem⟩))))))

end

/-! ### every use of a parameter -/

/-- every use of a parameter in a clause of an inherited contract becomes, in the text that the
wrapper expands, the name of the wrapper's parameter at the same position -/
def ParametersAgree (own : Contract) (inherited : List Contract) (f : Renaming) (w : Wrapper) :
    Prop :=
  ∀ l ∈ levelsOf own inherited, ∀ i a, l.1.method.NamesAt i a → ∀ s ∈ l.1.clauseTexts,
    ∀ j : Nat, (namesIn s)[j]? = some a →
      ∃ p, w.paramAt own.method i = some p ∧ (namesIn (rename f (rename l.2 s)))[j]? = some p.name

/-- every parameter that the clauses use is kept -/
def ParametersKept (own : Method) (f : Renaming) (c : Contract) : Prop :=
  ∀ q ∈ (own.paramNames.zip c.method.paramNames).zipIdx, isBlankName q.1.2 = false →
    (∃ s ∈ c.clauseTexts, q.1.2 ∈ namesIn s) → ParameterKept f q.1.1 q.1.2 q.2

instance (f : Renaming) (own inherited : Text) (i : Nat) :
    Decidable (ParameterKept f own inherited i) :=
  inferInstanceAs (Decidable ((isBlankName own = false ∧ f.get? own = none) ∨
    (own = [] ∧ inherited = argName i)))

instance (own : Method) (f : Renaming) (c : Contract) : Decidable (ParametersKept own f c) :=
  inferInstanceAs (Decidable (∀ q ∈ (own.paramNames.zip c.method.paramNames).zipIdx,
    isBlankName q.1.2 = false → (∃ s ∈ c.clauseTexts, q.1.2 ∈ namesIn s) →
      ParameterKept f q.1.1 q.1.2 q.2))

theorem length_params_of_compatible {own inherited : Method}
    (h : compatible own inherited = .ok ()) : inherited.params.length = own.params.length := by
  unfold compatible at h
  split at h
  · cases h
  · rename_i hnone
    unfold compositionProblem? at hnone
    split at hnone
    · cases hnone
    · cases hnone
    · split at hnone
      · cases hnone
      split at hnone
      · cases hnone
      split at hnone
      · cases hnone
      split at hnone
      · cases hnone
      · rename_i hlength
        simpa using hlength

/-- one use of a parameter: it becomes the name of the wrapper's parameter exactly if that name is
kept -/
theorem parameter_use_iff {m : Method} {f g : Renaming} {w : Wrapper}
    (hf : f.Named) (hg : g = [] ∨ g = objectRenaming) {i j : Nat} {a s : Text} {p : Param}
    (himage : f.image a = if p.name = [] then a else p.name)
    (hparam : w.paramAt m i = some (namedParam p i)) (hj : (namesIn s)[j]? = some a) :
    (∃ p', w.paramAt m i = some p' ∧ (namesIn (rename g (rename f s)))[j]? = some p'.name) ↔
      ParameterKept g p.name a i := by
  have hgnamed : g.Named := by
    rcases hg with rfl | rfl
    · intro a x h
      cases h
    · exact named_objectRenaming
  have hname : (namesIn (rename g (rename f s)))[j]? = some (g.image (f.image a)) := by
    rw [namesIn_rename hgnamed, namesIn_rename hf, List.getElem?_map, List.getElem?_map, hj]
    rfl
  rw [hname, hparam, ← image_eq_namedParam_iff hg, ← himage]
  simp

theorem parameter_use_level_iff {own : Contract} {inherited : List Contract}
    (hnames : ∀ c ∈ own :: inherited, c.method.Named)
    (hdistinct : ∀ c ∈ inherited, c.method.Distinct)
    (htemps : ∀ c ∈ inherited, ∀ a ∈ c.method.givenNames, a ∉ c.temporaries) {g : Renaming}
    (hg : g = [] ∨ g = objectRenaming) {w : Wrapper}
    (hparams : ∀ i, w.paramAt own.method i = (own.method.params[i]?).map fun p => namedParam p i)
    {l : Contract × Renaming} (hl : l ∈ levelsOf own inherited) {i j : Nat} {a b s : Text}
    (ha : l.1.method.NamesAt i a) (hb : own.method.paramNames[i]? = some b)
    (hj : (namesIn s)[j]? = some a) :
    (∃ p, w.paramAt own.method i = some p ∧
        (namesIn (rename g (rename l.2 s)))[j]? = some p.name) ↔ ParameterKept g b a i := by
  have hmem := mem_levelsOf hl
  obtain ⟨q, -, heq, taken, hf⟩ := mem_levels hl
  have hnamed : l.2.Named := by
    rw [hf, ← heq]
    exact inheritedRenaming_named (hnames _ List.mem_cons_self)
      (hnames _ (List.mem_cons_of_mem _ hmem))
  have himage : l.2.image a = if b = [] then a else b := by
    rw [hf, ← heq]
    exact image_inheritedRenaming (hdistinct _ hmem) ha (htemps _ hmem a ha.mem) hb taken q.2
  rw [Method.paramNames, List.getElem?_map, Option.map_eq_some_iff] at hb
  obtain ⟨p, hp, rfl⟩ := hb
  refine parameter_use_iff hnamed hg himage ?_ hj
  rw [hparams, hp]
  rfl

/-- **When the parameters of inherited contracts mean those of the wrapper.**  The wrapper runs the
clauses of every inherited contract, renamed for the override.  In them every use of a parameter has
become the name of the wrapper's parameter at the same position exactly if each parameter that is
used has a name in the override, other than that of an object under construction, or happens to have
the name that the wrapper makes up. -/
theorem inherited_parameters_iff {own : Contract} {inherited : List Contract} {r : Contract}
    {mode : Mode} {oracle : Oracle} {w : Wrapper}
    (hnames : ∀ c ∈ own :: inherited, c.method.Named)
    (hdistinct : ∀ c ∈ inherited, c.method.Distinct)
    (htemps : ∀ c ∈ inherited, ∀ a ∈ c.method.givenNames, a ∉ c.temporaries)
    (hcross : oracle.isCrosscut own.method = false)
    (hr : compose own inherited = .ok r) (hw : synthesize r mode oracle = .ok w) :
    ∃ sig plan, Signature.of r mode oracle = .ok sig ∧ Plan.extract r oracle = .ok plan ∧
      (∀ l ∈ levelsOf own inherited, SourceRuns l r plan) ∧
      (∀ s ∈ r.expandedTexts plan, ∃ a ∈ flatten w.stmts, ExpandsTo sig.renames s a) ∧
      (ParametersAgree own inherited sig.renames w ↔
        ∀ c ∈ inherited, ParametersKept own.method sig.renames c) := by
  have hc := compose_eq_ok hr
  obtain ⟨family, sig, plan, t, e, hsteps, hrun⟩ := synthesize_texts hw
  refine ⟨sig, plan, hsteps.sig_eq, hsteps.plan_eq, fun l hl =>
    sourceRuns hc hsteps.plan_eq (List.mem_cons_of_mem _ hl), fun s hs => ?_, ?_⟩
  · rw [hsteps.wrapper_eq]
    exact hsteps.texts.exists_action (signals_expandTexts hrun) hs
  have hg := renames_signature hsteps.sig_eq
  have hparams := paramAt_wrapper hsteps (by rw [hc.method]; exact hcross)
  rw [hc.method] at hparams
  constructor
  · rintro hagree c hmem ⟨⟨b, a⟩, i⟩ hq hnamed ⟨s, hs, has⟩
    have hlevels : (levelsOf own inherited).map Prod.fst = inherited :=
      (List.cons.inj (map_fst_sourcesOf own inherited)).2
    obtain ⟨l, hl, rfl⟩ := List.mem_map.1 (hlevels.symm ▸ hmem)
    obtain ⟨hb, ha⟩ := List.getElem?_zip_eq_some.1 (List.mem_zipIdx_iff_getElem?.1 hq)
    obtain ⟨j, hj⟩ := List.mem_iff_getElem?.1 has
    exact (parameter_use_level_iff hnames hdistinct htemps hg hparams hl ⟨ha, hnamed⟩ hb hj).1
      (hagree l hl i a ⟨ha, hnamed⟩ s hs j hj)
  · intro hkept l hl i a ha s hs j hj
    have hmem := mem_levelsOf hl
    obtain ⟨b, hb⟩ : ∃ b, own.method.paramNames[i]? = some b := by
      have hlength := length_params_of_compatible (hc.inherited_valid _ hmem).1
      have hi := (List.getElem?_eq_some_iff.1 ha.1).1
      rw [Method.paramNames, List.length_map, hlength] at hi
      exact ⟨_, List.getElem?_eq_getElem (by rw [Method.paramNames, List.length_map]; exact hi)⟩
    refine (parameter_use_level_iff hnames hdistinct htemps hg hparams hl ha hb hj).2
      (hkept _ hmem ((b, a), i) ?_ ha.2 ⟨s, hs, ?_⟩)
    · exact List.mem_zipIdx_iff_getElem?.2 (List.getElem?_zip_eq_some.2 ⟨hb, ha.1⟩)
    · exact List.mem_of_getElem? hj

/-- an override that does not name its second parameter -/
def storeContract : Contract where
  method := {
    name := "Store", owner := "Stack", receiver := "s"
    params := [⟨"n", "int", false⟩, ⟨[], "string", false⟩], visibility := .of .pub }
  pre := .set .empty 0 "n < 9"

/-- the method it overrides, whose second parameter has the name that a wrapper makes up -/
def bagStoreContract : Contract where
  method := {
    name := "Store", owner := "Bag", receiver := "b"
    params := [⟨"x", "int", false⟩, ⟨"racArg1", "string", false⟩], visibility := .of .pub }
  pre := .set .empty 0 "x > 0"
  post := .set .empty 0 "b.get(racArg1) == x && b.x == num"
  oldVars := .set .empty 0 [⟨"num int/num = b.x + x"⟩]

theorem inherited_parameters_store :
    ∃ r w sig, compose storeContract [bagStoreContract] = .ok r ∧
      synthesize r .callSite (.scanning []) = .ok w ∧
      Signature.of r .callSite (.scanning []) = .ok sig ∧
      ParametersAgree storeContract [bagStoreContract] sig.renames w := by
  have hok : ((compose storeContract [bagStoreContract]).toOption.any fun r =>
      (synthesize r .callSite (.scanning [])).toOption.any fun _ => true) = true := by
    -- the kernel is slow in reading the characters of a literal, so they are put in its place
    unfold storeContract bagStoreContract
    repeat rw [String.toList_ofList]
    decide +kernel
  obtain ⟨r, hr, hok⟩ := exists_eq_ok hok
  obtain ⟨w, hw, -⟩ := exists_eq_ok hok
  obtain ⟨sig, plan, hsig, -, -, -, hagree⟩ := inherited_parameters_iff (by decide +kernel)
    (by decide +kernel) (by decide +kernel) rfl hr hw
  refine ⟨r, w, sig, hr, hw, hsig, hagree.2 ?_⟩
  rcases renames_signature hsig with h | h
  · rw [h]
    decide +kernel
  · rw [h]
    decide +kernel

/-! ### a parameter without a name -/

/-- an override that does not name its parameter -/
def unnamedPutContract : Contract where
  method := {
    name := "Put", owner := "Stack", receiver := "s", params := [⟨[], "int", false⟩]
    visibility := .of .pub }
  pre := .set .empty 0 "true"

def namedPutContract : Contract where
  method := {
    name := "Put", owner := "Bag", receiver := "b", params := [⟨"x", "int", false⟩]
    visibility := .of .pub }
  pre := .set .empty 0 "true"
  post := .set .empty 0 "b.has(x)"

theorem parameter_lost_put :
    ∃ r w, compose unnamedPutContract [namedPutContract] = .ok r ∧
      synthesize r .direct (.scanning []) = .ok w ∧
      namedPutContract.method.NamesAt 0 ("x" : Text) ∧
      (w.paramAt unnamedPutContract.method 0).map Param.name = some ("racArg0" : Text) ∧
      ∃ a ∈ flatten w.stmts, a.kind = .check ∧ a.text = ("s.has(x)" : Text) := by
  have hlost : ((compose unnamedPutContract [namedPutContract]).toOption.any fun r =>
      (synthesize r .direct (.scanning [])).toOption.any fun w =>
        (w.paramAt unnamedPutContract.method 0).map Param.name = some ("racArg0" : Text) &&
        (flatten w.stmts).any fun a => a.kind = .check && a.text = ("s.has(x)" : Text)) = true := by
    decide +kernel
  obtain ⟨r, hr, hlost⟩ := exists_eq_ok hlost
  obtain ⟨w, hw, hlost⟩ := exists_eq_ok hlost
  rw [Bool.and_eq_true, decide_eq_true_eq, List.any_eq_true] at hlost
  obtain ⟨hparam, a, ha, htext⟩ := hlost
  rw [Bool.and_eq_true, decide_eq_true_eq, decide_eq_true_eq] at htext
  exact ⟨r, w, hr, hw, ⟨rfl, rfl⟩, hparam, a, ha, htext⟩

end ContractChecks
