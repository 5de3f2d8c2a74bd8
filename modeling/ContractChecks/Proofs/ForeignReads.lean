import ContractChecks.Proofs.CaptureOrder
import ContractChecks.Proofs.DirectiveCases
import ContractChecks.Proofs.PaddedWords

/-!
# Old variables read by other cases

An old variable is in scope in every spec case, but a contract with several cases captures it only if
the precondition of its own case holds.  So a case that reads an old variable of another case finds it
captured exactly if the other case applies whenever its own does.

* `Plan.Assigns plan holds v`: the captures of a plan assign `v`, where `holds` says which predicates
  hold on entry;
* `capture_guardOldVar`: a guard goes around the capture of a variable and keeps its name;
* `assigns_iff`: a late variable of a guarded case is assigned if the precondition of the case holds;
* `capturedWhenApplied_iff`: when every case finds the old variables captured that it reads.
-/

namespace ContractChecks

/-- a capture of the plan assigns the old variable, where `holds` are the predicates that hold when
the method is entered -/
def Plan.Assigns (plan : Plan) (holds : Text → Prop) (v : OldVar) : Prop :=
  ∃ b ∈ plan.bindings, b.name = v.name ∧ b.var.capture ∈ plan.early ++ plan.late ∧
    (b.var.capture = v.capture ∨ ∃ pre, b.var.capture = guardedBy pre v.capture ∧ holds pre)

/-- a postcondition of case `k` reads the old variable `v` of case `i` -/
def Contract.ReadsOldVar (c : Contract) (k i : Int) (v : OldVar) : Prop :=
  v ∈ c.oldVars.list i ∧ ∃ s, (k, s) ∈ Plan.postTexts c ∧ v.name ∈ namesIn s

/-! ### guarded variables -/

theorem guardedBy_injective {pre pre' stmt : Text} (h : guardedBy pre stmt = guardedBy pre' stmt) :
    pre = pre' := by
  unfold guardedBy at h
  simp only [List.append_assoc] at h
  exact List.append_cancel_right (List.append_cancel_left h)

theorem guardedBy_ne_self (pre stmt : Text) : guardedBy pre stmt ≠ stmt := by
  intro h
  have hlen := congrArg List.length h
  unfold guardedBy at hlen
  simp only [List.length_append] at hlen
  have hif : ("if " : Text).length = 3 := rfl
  omega

theorem solid_trim {s : Text} (h : Text.trim s ≠ []) : Solid (Text.trim s) := by
  obtain ⟨⟨c, hhead, hc⟩, d, hlast, hd⟩ := ends_trim h
  obtain ⟨r, hr⟩ := List.head?_eq_some_iff.1 hhead
  obtain ⟨t, ht⟩ := List.getLast?_eq_some_iff.1 hlast
  exact ⟨⟨c, r, hr, Bool.not_eq_true _ ▸ hc⟩, t, d, ht, Bool.not_eq_true _ ▸ hd⟩

theorem Solid.trim_eq {m : Text} (hm : Solid m) : Text.trim m = m := by
  have htrim := hm.trim_append []
  rw [List.append_nil] at htrim
  rw [htrim]
  exact List.append_nil m

namespace OldVar

/-- the first slash of a text stands between the declaration and the capture -/
theorem split_cases (v : OldVar) :
    (∃ a b : Text, v.text = a ++ '/' :: b ∧ '/' ∉ a ∧ v.split = (a.trim, b.trim)) ∨
      ('/' ∉ v.text ∧ v.split = (v.text.trim, [])) := by
  by_cases hslash : '/' ∈ v.text
  · obtain ⟨a, b, htext, ha⟩ := List.eq_append_cons_of_mem hslash
    refine .inl ⟨a, b, htext, ha, ?_⟩
    unfold split
    rw [htext, cut?_append_slash ha]
  · refine .inr ⟨hslash, ?_⟩
    unfold split
    rw [cut?_of_not_mem hslash]

theorem slash_not_mem_split (v : OldVar) : '/' ∉ v.split.1 := by
  rcases v.split_cases with ⟨a, b, -, ha, hsplit⟩ | ⟨htext, hsplit⟩
  · rw [hsplit]
    exact fun hmem => ha (Text.mem_of_mem_trim hmem)
  · rw [hsplit]
    exact fun hmem => htext (Text.mem_of_mem_trim hmem)

theorem solid_split {v : OldVar} (h : v.split.1 ≠ []) : Solid v.split.1 := by
  rcases v.split_cases with ⟨a, b, -, -, hsplit⟩ | ⟨-, hsplit⟩
  · rw [hsplit] at h ⊢
    exact solid_trim h
  · rw [hsplit] at h ⊢
    exact solid_trim h

/-- a declaration with another capture declares the same variable -/
theorem split_decl {v : OldVar} (h : v.split.1 ≠ []) (stmt : Text) :
    OldVar.split ⟨v.decl ++ "/" ++ stmt⟩ = (v.decl, stmt.trim) := by
  have hsolid := solid_split h
  have hdecl : '/' ∉ v.decl ∧ Solid v.decl := by
    unfold decl
    split
    · exact ⟨v.slash_not_mem_split, hsolid⟩
    · obtain ⟨r, c, hr, hc⟩ := hsolid.last
      refine ⟨?_, ⟨'v', _, rfl, by decide⟩, ("var " : Text) ++ r, c, ?_, hc⟩
      · rw [List.mem_append, not_or]
        exact ⟨by decide, v.slash_not_mem_split⟩
      · rw [hr, List.append_assoc]
  have htext : v.decl ++ "/" ++ stmt = v.decl ++ '/' :: stmt := by
    rw [List.append_assoc]
    rfl
  unfold split
  rw [htext, cut?_append_slash hdecl.1]
  show ((v.decl).trim, stmt.trim) = _
  rw [hdecl.2.trim_eq]

theorem name_decl {v : OldVar} (h : v.split.1 ≠ []) (stmt : Text) :
    OldVar.name ⟨v.decl ++ "/" ++ stmt⟩ = v.name := by
  unfold name
  rw [split_decl h]
  show leadingName (dropVar v.decl).trim = leadingName (dropVar v.split.1).trim
  unfold decl
  split
  case isTrue => rfl
  case isFalse hvar =>
    have hstart : Text.startsWith (("var " : Text) ++ v.split.1) "var " = true :=
      List.isPrefixOf_iff_prefix.2 (List.prefix_append _ _)
    have hdrop : dropVar (("var " : Text) ++ v.split.1) = v.split.1 := by
      rw [dropVar, Text.dropStart, if_pos hstart]
      rfl
    have hkeep : dropVar v.split.1 = v.split.1 := by
      rw [dropVar, Text.dropStart, if_neg hvar]
    rw [hdrop, hkeep]

end OldVar

theorem OldVar.split_ne_nil {v : OldVar} (h : v.name ≠ []) : v.split.1 ≠ [] := by
  intro hnil
  rw [OldVar.name, hnil] at h
  exact h rfl

section
variable {c : Contract} {i : Int} {pre : Text} {v : OldVar}

theorem capture_guardOldVar (c : Contract) (pre : Text) (hname : v.name ≠ [])
    (hcapture : v.capture ≠ []) :
    (c.guardOldVar pre v).name = v.name ∧ (c.guardOldVar pre v).capture
      = if c.readsEarly v then v.capture else guardedBy pre v.capture := by
  have hsplit := OldVar.split_ne_nil hname
  unfold Contract.guardOldVar
  cases hearly : c.readsEarly v with
  | true => exact ⟨rfl, rfl⟩
  | false =>
    rw [Bool.false_or, if_neg (by simpa using hcapture)]
    refine ⟨OldVar.name_decl hsplit _, ?_⟩
    show OldVar.capture ⟨v.decl ++ "/" ++ guardedBy pre v.capture⟩ = _
    rw [OldVar.capture, OldVar.split_decl hsplit, trim_guardedBy]
    rfl

/-- an old variable of a contract of several cases, with its guard if it has one -/
theorem exists_mem_guardCaptures (hsize : 2 ≤ c.pre.size) (hpre : c.pre.get? i = some pre)
    (hv : v ∈ c.oldVars.list i) (hname : v.name ≠ []) (hcapture : v.capture ≠ []) :
    ∃ w ∈ c.guardCaptures.oldVars.list i, w.name = v.name ∧ w.capture
      = if assertable pre = true ∧ c.readsEarly v = false then guardedBy pre v.capture
        else v.capture := by
  rw [(Contract.list_guardCaptures hpre).2]
  refine ⟨_, List.mem_map.2 ⟨v, hv, rfl⟩, ?_⟩
  by_cases hguard : c.GuardsCase i
  · have hassert := ((Contract.guardsCase_iff hpre).1 hguard).2
    obtain ⟨hkeep, hcap⟩ := capture_guardOldVar c pre hname hcapture
    rw [if_pos hguard, hkeep, hcap]
    cases c.readsEarly v <;> simp [hassert]
  · have hassert : ¬assertable pre = true := fun hassert =>
      hguard ((Contract.guardsCase_iff hpre).2 ⟨hsize, hassert⟩)
    rw [if_neg hguard, if_neg fun hboth => hassert hboth.1]
    exact ⟨rfl, rfl⟩

end

/-- every binding with a capture is captured early or late -/
theorem Plan.mem_captures {c : Contract} {oracle : Oracle} {plan : Plan}
    (h : Plan.extract c oracle = .ok plan) {b : Binding} (hb : b ∈ plan.bindings)
    (hcapture : b.var.capture ≠ []) : b.var.capture ∈ plan.early ++ plan.late := by
  obtain ⟨hplan, hgrouped, -⟩ := Plan.extract_eq_ok h
  have hmem : ∀ p : Binding → Bool, p b = true →
      b.var.capture ∈ Plan.captures Binding.var (plan.bindings.filter p) := by
    intro p hp
    rw [Plan.captures, List.mem_filter, List.mem_map]
    exact ⟨⟨b, List.mem_filter.2 ⟨hb, hp⟩, rfl⟩, by simpa using hcapture⟩
  rw [List.mem_append, hplan]
  cases hearly : b.early with
  | true => exact .inl (hmem _ hearly)
  | false =>
    refine .inr (List.mem_flatMap.2 ⟨b.index, hgrouped.index_mem b hb, ?_⟩)
    exact List.mem_append_left _ (hmem _ (by simp [hearly]))

/-- an old variable is assigned, unless it is captured late and the precondition of its case fails -/
theorem Plan.assigns_iff {c : Contract} {oracle : Oracle} {plan : Plan}
    (hplan : Plan.extract c.guardCaptures oracle = .ok plan) (hsize : 2 ≤ c.pre.size) {i : Int}
    {pre : Text} (hpre : c.pre.get? i = some pre) {v : OldVar} (hv : v ∈ c.oldVars.list i)
    (hname : v.name ≠ []) (hcapture : v.capture ≠ []) (holds : Text → Prop) :
    plan.Assigns holds v ↔ (assertable pre = true → c.readsEarly v = false → holds pre) := by
  obtain ⟨w, hw, hwname, hwcapture⟩ := exists_mem_guardCaptures hsize hpre hv hname hcapture
  have hbinds := Plan.binds_extract hplan
  have horder : (i, w) ∈ Plan.oldVarsInOrder c.guardCaptures := by
    refine List.mem_flatMap.2 ⟨i, ?_, List.mem_map.2 ⟨w, hw, rfl⟩⟩
    rw [Contract.pre_guardCaptures]
    exact c.pre.mem_indices_iff.2 ⟨pre, hpre⟩
  obtain ⟨b, hb, hvar⟩ := hbinds.bound _ horder
  have hbname : b.name = v.name := by
    rw [(hbinds.source b hb).2.1, hvar]
    exact hwname
  have hbcapture : b.var.capture = w.capture := congrArg OldVar.capture hvar
  constructor
  · rintro ⟨b', hb', hname', -, hcases⟩ hassert hlate
    obtain rfl : b' = b := List.inj_on_of_nodup_map hbinds.nodup hb' hb (hname'.trans hbname.symm)
    rw [hbcapture, hwcapture, if_pos ⟨hassert, hlate⟩] at hcases
    rcases hcases with hself | ⟨pre', heq, hholds⟩
    · exact absurd hself (guardedBy_ne_self pre v.capture)
    · rw [guardedBy_injective heq]
      exact hholds
  · intro hholds
    refine ⟨b, hb, hbname, ?_, ?_⟩
    · refine Plan.mem_captures hplan hb ?_
      rw [hbcapture, hwcapture]
      split
      · exact guardedBy_ne_nil pre v.capture
      · exact hcapture
    · rw [hbcapture, hwcapture]
      by_cases hguard : assertable pre = true ∧ c.readsEarly v = false
      · rw [if_pos hguard]
        exact .inr ⟨pre, rfl, hholds hguard.1 hguard.2⟩
      · rw [if_neg hguard]
        exact .inl rfl

/-! ### variables of declarations -/

/-- a capture is not blank if an assignment stands after some slash -/
theorem OldVar.capture_ne_nil {v : OldVar} {a b : Text} (htext : v.text = a ++ '/' :: b)
    (hb : '=' ∈ b) : v.capture ≠ [] := by
  rcases v.split_cases with ⟨a', b', htext', ha', hsplit⟩ | ⟨hslash, -⟩
  · have hmem : '=' ∈ b' := by
      rw [htext] at htext'
      rcases List.append_eq_append_iff.1 htext' with ⟨u, rfl, hu⟩ | ⟨u, rfl, hu⟩
      · cases u with
        | nil =>
          cases hu
          exact hb
        | cons d u =>
          cases hu
          exact absurd (by simp) ha'
      · cases u with
        | nil =>
          cases hu
          exact hb
        | cons d u =>
          cases hu
          exact List.mem_append_right _ (List.mem_cons_of_mem _ hb)
    have htrim := Text.mem_trim (by decide) hmem
    rw [OldVar.capture, hsplit]
    exact List.ne_nil_of_mem htrim
  · exact absurd (by rw [htext]; simp) hslash

/-- an old variable that a directive declares has a capture -/
theorem Scope.capture_oldVarOf {sc : Scope} {text : Text} {v : OldVar}
    (h : sc.oldVarOf text = .ok v) : v.capture ≠ [] := by
  obtain ⟨old, hold, h⟩ := except_bind_eq_ok h
  obtain ⟨expr, hexpr, h⟩ := except_bind_eq_ok h
  obtain ⟨type, htype, h⟩ := except_bind_eq_ok h
  cases h
  refine OldVar.capture_ne_nil (a := old.name ++ " " ++ type) (b := old.name ++ " = " ++ expr) ?_ ?_
  · rw [OldVar.encode]
    simp only [List.append_assoc]
    rfl
  · have heq : '=' ∈ (" = " : Text) := by decide
    exact List.mem_append_left _ (List.mem_append_right _ heq)

theorem CasesOfSegments.capture_ne_nil {sc : Scope} {ds : List Directive} {nss : List (List Text)}
    {c : Contract} (h : CasesOfSegments sc ds nss c) {i : Int} {pre : Text}
    (hpre : c.pre.get? i = some pre) {v : OldVar} (hv : v ∈ c.oldVars.list i) : v.capture ≠ [] := by
  obtain ⟨j, seg, -, -, hread⟩ := h.caseAt_eq hpre
  obtain ⟨ks, decls, hks, -, hcase⟩ := Scope.readCase_eq_ok hread
  have hvars : c.oldVars.get? i = listed (Clauses.concat ks).oldVars :=
    congrArg SpecCase.oldVars hcase
  rw [CaseTable.list, hvars, getD_listed] at hv
  obtain ⟨text, -, hread⟩ := exists_mem_of_mapM (Scope.readAs_mapM hks).oldVars hv
  exact Scope.capture_oldVarOf hread

/-! ### cases that read each other's variables -/

theorem ne_nil_of_mem_words {s w : Text} (h : w ∈ words s) : w ≠ [] := by
  rcases mem_words_cases h with hname | ⟨n, rfl, -⟩
  · rintro rfl
    cases hname
  · exact List.cons_ne_nil _ _

/-- In a declared contract of several cases, every case finds the old variables captured that its
postconditions read, in every state it applies to, exactly if the late ones among them belong to cases
that cannot fail or apply there too. -/
theorem capturedWhenApplied_iff {d : Declaration} {r : DeclaredContract} {c : Contract}
    {oracle : Oracle} {plan : Plan} (h : d.contract = .ok r) (hc : d.plainContract = .ok c)
    (hsize : 2 ≤ r.contract.pre.size) (hplan : Plan.extract r.contract oracle = .ok plan)
    {State : Type} (holds : State → Text → Prop) :
    (∀ k i v pre, c.ReadsOldVar k i v → c.pre.get? k = some pre →
        ∀ σ, holds σ pre → plan.Assigns (holds σ) v) ↔
      ∀ k i v pre pre', c.ReadsOldVar k i v → c.pre.get? k = some pre →
        c.pre.get? i = some pre' → assertable pre' = true → c.readsEarly v = false →
        ∀ σ, holds σ pre → holds σ pre' := by
  obtain ⟨c', hc', hr⟩ := Declaration.contract_eq_ok h
  obtain rfl : c = c' := Except.ok.inj (hc.symm.trans hc')
  obtain ⟨m, nss, -, hcases, hclosed⟩ := Declaration.plainContract_cases hc
  rw [hr, Contract.pre_guardCaptures] at hsize
  rw [hr] at hplan
  have hassigns : ∀ {k i v}, c.ReadsOldVar k i v → ∃ pre', c.pre.get? i = some pre' ∧
      ∀ P : Text → Prop, plan.Assigns P v ↔
        (assertable pre' = true → c.readsEarly v = false → P pre') := by
    rintro k i v ⟨hv, s, -, hread⟩
    obtain ⟨vs, hvs, -⟩ := CaseTable.mem_list hv
    have hi : i ∈ c.oldVars.indices := List.mem_map.2 ⟨_, hvs, rfl⟩
    obtain ⟨pre', hpre'⟩ := c.pre.mem_indices_iff.1 (hclosed.oldVars i hi)
    have hname : v.name ≠ [] := ne_nil_of_mem_words (mem_words_of_mem_namesIn hread)
    exact ⟨pre', hpre', Plan.assigns_iff hplan hsize hpre' hv hname
      (hcases.capture_ne_nil hpre' hv)⟩
  constructor
  · intro hleft k i v pre pre' hreads hpre hpre' hassert hlate σ hσ
    obtain ⟨pre'', hpre'', hiff⟩ := hassigns hreads
    obtain rfl : pre' = pre'' := Option.some.inj (hpre'.symm.trans hpre'')
    exact (hiff _).1 (hleft k i v pre hreads hpre σ hσ) hassert hlate
  · intro hright k i v pre hreads hpre σ hσ
    obtain ⟨pre', hpre', hiff⟩ := hassigns hreads
    exact (hiff _).2 fun hassert hlate => hright k i v pre pre' hreads hpre hpre' hassert hlate σ hσ

/-- a declaration of two cases with the given preconditions, where both read the variable that the
first one captures -/
def drainDeclaration (first second : Text) : Declaration where
  package := "tank"
  name := "Drain"
  params := [{ name := "hot", type := "bool" }, { name := "n", type := "int" }]
  directives := [
    { kind := .requires, text := first },
    { kind := .old, text := "left int = n" },
    { kind := .ensures, text := "left > 0" },
    { kind := .also },
    { kind := .requires, text := second },
    { kind := .ensures, text := "left > 1" }]
  eval := .ofFacts []

theorem exists_drain (first second : Text) {p : Contract → Bool}
    (h : ((drainDeclaration first second).plainContract.toOption.any fun c => p c &&
      decide (2 ≤ c.pre.size) && (Plan.extract c.guardCaptures (.scanning [])).toOption.isSome) = true)
    (hcontract : (drainDeclaration first second).contract.toOption.isSome = true) :
    ∃ r c plan, (drainDeclaration first second).contract = .ok r ∧
      (drainDeclaration first second).plainContract = .ok c ∧ r.contract = c.guardCaptures ∧
      2 ≤ c.pre.size ∧ Plan.extract c.guardCaptures (.scanning []) = .ok plan ∧ p c = true := by
  obtain ⟨c, hc, hchecks⟩ := exists_eq_ok h
  rw [Bool.and_eq_true, Bool.and_eq_true, decide_eq_true_eq] at hchecks
  obtain ⟨⟨hp, hsize⟩, hextract⟩ := hchecks
  cases hplan : Plan.extract c.guardCaptures (.scanning []) with
  | error e =>
    rw [hplan] at hextract
    cases hextract
  | ok plan =>
    cases hr : (drainDeclaration first second).contract with
    | error e =>
      rw [hr] at hcontract
      cases hcontract
    | ok r =>
      obtain ⟨c', hc', hguard⟩ := Declaration.contract_eq_ok hr
      obtain rfl : c = c' := Except.ok.inj (hc.symm.trans hc')
      exact ⟨r, c, plan, rfl, hc, hguard, hsize, hplan, hp⟩

theorem capturedWhenApplied_drain : ∃ r c plan, (drainDeclaration "hot" "hot").contract = .ok r ∧
    (drainDeclaration "hot" "hot").plainContract = .ok c ∧ 2 ≤ r.contract.pre.size ∧
    Plan.extract r.contract (.scanning []) = .ok plan ∧
    ∀ (State : Type) (holds : State → Text → Prop) k i v pre, c.ReadsOldVar k i v →
      c.pre.get? k = some pre → ∀ σ, holds σ pre → plan.Assigns (holds σ) v := by
  obtain ⟨r, c, plan, hr, hc, hguard, hsize, hplan, hsame⟩ := exists_drain "hot" "hot"
    (p := fun c => c.pre.entries.all fun e => e.2 = "hot")
    (by decide +kernel) (by decide +kernel)
  rw [← hguard] at hplan
  have hsize' : 2 ≤ r.contract.pre.size := by
    rw [hguard, Contract.pre_guardCaptures]
    exact hsize
  have hpre : ∀ {k pre}, c.pre.get? k = some pre → pre = "hot" := by
    intro k pre hk
    simpa using List.all_eq_true.1 hsame _ (c.pre.mem_entries_iff.2 hk)
  refine ⟨r, c, plan, hr, hc, hsize', hplan, fun State holds => ?_⟩
  refine (capturedWhenApplied_iff hr hc hsize' hplan holds).2 ?_
  intro k i v pre pre' _ hk hi _ _ σ hσ
  rw [hpre hi, ← hpre hk]
  exact hσ

/-- if the second case applies and the first does not, the variable is not captured -/
theorem drain_not_captured : ∃ r c plan v, (drainDeclaration "hot" "!hot").contract = .ok r ∧
    (drainDeclaration "hot" "!hot").plainContract = .ok c ∧ 2 ≤ r.contract.pre.size ∧
    Plan.extract r.contract (.scanning []) = .ok plan ∧
    c.ReadsOldVar 1 0 v ∧ c.pre.get? 1 = some "!hot" ∧ ¬plan.Assigns (fun pre => pre = "!hot") v := by
  obtain ⟨r, c, plan, hr, hc, hguard, hsize, hplan, hchecks⟩ := exists_drain "hot" "!hot"
    (p := fun c => c.pre.get? 0 = some "hot" && c.pre.get? 1 = some "!hot"
      && c.oldVars.list 0 = [⟨"left int/left = n"⟩] && c.post.get? 1 = some "left > 1"
      && !c.readsEarly ⟨"left int/left = n"⟩)
    (by decide +kernel) (by decide +kernel)
  simp only [Bool.and_eq_true, decide_eq_true_eq, Bool.not_eq_true'] at hchecks
  obtain ⟨⟨⟨⟨hfirst, hsecond⟩, hvars⟩, hpost⟩, hlate⟩ := hchecks
  have hv : (⟨"left int/left = n"⟩ : OldVar) ∈ c.oldVars.list 0 := by
    rw [hvars]
    exact List.mem_singleton.2 rfl
  refine ⟨r, c, plan, ⟨"left int/left = n"⟩, hr, hc, ?_, hguard ▸ hplan, ⟨hv, "left > 1", ?_, ?_⟩,
    hsecond, ?_⟩
  · rw [hguard, Contract.pre_guardCaptures]
    exact hsize
  · exact List.mem_append_left _ (c.post.mem_entries_iff.2 hpost)
  · decide +kernel
  · intro hassigns
    have hholds := (Plan.assigns_iff hplan hsize hfirst hv (by decide +kernel) (by decide +kernel)
      _).1 hassigns (by decide +kernel) hlate
    exact absurd hholds (by decide)

end ContractChecks
