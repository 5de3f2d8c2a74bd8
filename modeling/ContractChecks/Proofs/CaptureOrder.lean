import Mathlib.Data.List.Pairwise
import ContractChecks.Proofs.LexemeBoundary
import ContractChecks.Proofs.RenamingCapture
import ContractChecks.Wrapper.Synthesis

/-!
# Old state is captured before it is read

What runs before the checked method is invoked: early captures, pre-expressions, the check of the
precondition, and the late captures with the old expressions of their spec cases.

* `CaptureStep`, `timeline c plan`: these steps in order;
* `CapturedInTime steps bs`: no step reads an old variable before its capture;
* `Grouped is bs`: the bindings stand in the order of their spec cases;
* `EarlyClosed bs`: no early capture reads a variable that is captured late;
* `ReadsBack c bs`: no old expression reads a late variable of a later spec case;
* `capturedInTime_iff`: these two are what it takes.
-/

namespace ContractChecks

/-! ### steps -/

inductive CaptureStep where
  | capture (b : Binding)
  | preExpr (s : Text)
  | check (pre : Text)
  | oldExpr (index : Int) (s : Text)

namespace CaptureStep

def text : CaptureStep → Text
  | .capture b => b.var.capture
  | .preExpr s => s
  | .check pre => pre
  | .oldExpr _ s => s

/-- the step reads the variable, which is not the one it captures itself -/
def Reads : CaptureStep → Binding → Prop
  | .capture a, b => a.name ≠ b.name ∧ b.name ∈ namesIn a.var.capture
  | st, b => b.name ∈ namesIn st.text

end CaptureStep

def captureSteps (bs : List Binding) : List CaptureStep :=
  (bs.filter fun b => b.var.capture != []).map .capture

def lateSteps (c : Contract) (bs : List Binding) (i : Int) : List CaptureStep :=
  captureSteps (bs.filter fun b => b.index = i && !b.early)
    ++ (c.oldExprs.list i).map (.oldExpr i)

def checkSteps (c : Contract) (plan : Plan) : List CaptureStep :=
  if checksPrecondition c plan then [.check c.precondition] else []

def timeline (c : Contract) (plan : Plan) : List CaptureStep :=
  captureSteps (plan.bindings.filter Binding.early) ++ (plan.preExprs.map .preExpr
    ++ (checkSteps c plan ++ c.pre.indices.flatMap (lateSteps c plan.bindings)))

/-- whenever a step reads an old variable that has a capture, the capture is done -/
def CapturedInTime (steps : List CaptureStep) (bs : List Binding) : Prop :=
  ∀ done st todo, steps = done ++ st :: todo →
    ∀ b ∈ bs, b.var.capture ≠ [] → st.Reads b → .capture b ∈ done

/-- no early capture reads a variable that is captured late -/
def EarlyClosed (bs : List Binding) : Prop :=
  ∀ a ∈ bs, a.early = true → ∀ b ∈ bs, b.early = false → b.var.capture ≠ [] →
    b.name ∉ namesIn a.var.capture

instance (bs : List Binding) : Decidable (EarlyClosed bs) :=
  inferInstanceAs (Decidable (∀ a ∈ bs, a.early = true → ∀ b ∈ bs, b.early = false →
    b.var.capture ≠ [] → b.name ∉ namesIn a.var.capture))

/-- no old expression reads a late variable of a later spec case -/
def ReadsBack (c : Contract) (bs : List Binding) : Prop :=
  c.pre.indices.Pairwise fun i j => ∀ s ∈ c.oldExprs.list i, ∀ b ∈ bs, b.index = j →
    b.early = false → b.var.capture ≠ [] → b.name ∉ namesIn s

/-! ### bindings in the order of their spec cases -/

/-- the bindings stand in groups, one for each spec case -/
inductive Grouped : List Int → List Binding → Prop where
  | nil : Grouped [] []
  | cons {i : Int} {is : List Int} {g bs : List Binding} (index : ∀ b ∈ g, b.index = i)
    (rest : Grouped is bs) : Grouped (i :: is) (g ++ bs)

theorem Grouped.index_mem {is : List Int} {bs : List Binding} (h : Grouped is bs) :
    ∀ b ∈ bs, b.index ∈ is := by
  induction h with
  | nil =>
    intro b hb
    cases hb
  | cons hindex _ ih =>
    intro b hb
    rcases List.mem_append.1 hb with hb | hb
    · rw [hindex b hb]
      exact List.mem_cons_self
    · exact List.mem_cons_of_mem _ (ih b hb)

/-- what holds of every two bindings in order holds of the bindings of two spec cases in order -/
theorem Grouped.pairwise {R : Binding → Binding → Prop} {is : List Int} {bs : List Binding}
    (h : Grouped is bs) (hnodup : is.Nodup) (hR : bs.Pairwise R) :
    is.Pairwise fun i j => ∀ a ∈ bs, a.index = i → ∀ b ∈ bs, b.index = j → R a b := by
  induction h with
  | nil => exact .nil
  | @cons i is g bs hindex hrest ih =>
    rw [List.nodup_cons] at hnodup
    obtain ⟨-, hbs, hcross⟩ := List.pairwise_append.1 hR
    -- a binding of another spec case stands after the group
    have hlater : ∀ a ∈ g ++ bs, a.index ≠ i → a ∈ bs := by
      intro a ha hne
      exact (List.mem_append.1 ha).resolve_left fun hg => hne (hindex a hg)
    have hnot : ∀ j ∈ is, j ≠ i := by
      rintro j hj rfl
      exact hnodup.1 hj
    refine List.pairwise_cons.2 ⟨?_, ?_⟩
    · intro j hj a ha hai b hb hbj
      have hag : a ∈ g := by
        rcases List.mem_append.1 ha with ha | ha
        · exact ha
        · exact absurd (hai ▸ hrest.index_mem a ha) hnodup.1
      exact hcross a hag b (hlater b hb (hbj ▸ hnot j hj))
    · refine (List.Pairwise.and_mem.1 (ih hnodup.2 hbs)).imp ?_
      rintro j k ⟨hj, hk, hjk⟩ a ha haj b hb hbk
      exact hjk a (hlater a ha (haj ▸ hnot j hj)) haj b (hlater b hb (hbk ▸ hnot k hk)) hbk

/-- what the oracle says of a binding -/
def Scanned (c : Contract) (oracle : Oracle) (b : Binding) : Prop :=
  b.inPrecondition = oracle.inPrecondition c b.name ∧ b.inPreExpr = oracle.inPreExpr c b.name

namespace Plan

theorem addBinding_eq_ok {c : Contract} {oracle : Oracle} {bs bs' : List Binding}
    {e : Int × OldVar} (h : addBinding c oracle bs e = .ok bs') :
    ∃ g, bs' = bs ++ g ∧ ∀ b ∈ g, b.index = e.1 ∧ Scanned c oracle b := by
  simp only [addBinding] at h
  split at h
  · cases h
  split at h
  · split at h
    · cases h
      exact ⟨[], (List.append_nil _).symm, by simp⟩
    · cases h
  · cases h
    refine ⟨_, rfl, fun b hb => ?_⟩
    rw [List.mem_singleton.1 hb]
    exact ⟨rfl, rfl, rfl⟩

theorem foldlM_addBinding {c : Contract} {oracle : Oracle} {i : Int} {vs : List OldVar}
    {bs bs' : List Binding}
    (h : (vs.map fun v => (i, v)).foldlM (addBinding c oracle) bs = .ok bs') :
    ∃ g, bs' = bs ++ g ∧ ∀ b ∈ g, b.index = i ∧ Scanned c oracle b := by
  induction vs generalizing bs with
  | nil =>
    cases h
    exact ⟨[], (List.append_nil _).symm, by simp⟩
  | cons v vs ih =>
    rw [List.map_cons, List.foldlM_cons] at h
    obtain ⟨bs₁, h₁, h⟩ := except_bind_eq_ok h
    obtain ⟨g₁, rfl, hg₁⟩ := addBinding_eq_ok h₁
    obtain ⟨g₂, rfl, hg₂⟩ := ih h
    refine ⟨g₁ ++ g₂, List.append_assoc .., fun b hb => ?_⟩
    rcases List.mem_append.1 hb with hb | hb
    · exact hg₁ b hb
    · exact hg₂ b hb

theorem grouped_foldlM {c : Contract} {oracle : Oracle} (is : List Int) {bs bs' : List Binding}
    (h : (is.flatMap fun i => (c.oldVars.list i).map fun v => (i, v)).foldlM
      (addBinding c oracle) bs = .ok bs') :
    ∃ new, bs' = bs ++ new ∧ Grouped is new ∧ ∀ b ∈ new, Scanned c oracle b := by
  induction is generalizing bs with
  | nil =>
    cases h
    exact ⟨[], (List.append_nil _).symm, .nil, by simp⟩
  | cons i is ih =>
    rw [List.flatMap_cons, List.foldlM_append] at h
    obtain ⟨bs₁, h₁, h⟩ := except_bind_eq_ok h
    obtain ⟨g, rfl, hg⟩ := foldlM_addBinding h₁
    obtain ⟨new, rfl, hgrouped, hnew⟩ := ih h
    refine ⟨g ++ new, List.append_assoc .., .cons (fun b hb => (hg b hb).1) hgrouped, ?_⟩
    intro b hb
    rcases List.mem_append.1 hb with hb | hb
    · exact (hg b hb).2
    · exact hnew b hb

/-- the bindings of old variables: one for each name, in which no two variables differ -/
structure Binds (vs : List (Int × OldVar)) (bs : List Binding) : Prop where
  bound : ∀ e ∈ vs, ∃ b ∈ bs, b.var = e.2
  source : ∀ b ∈ bs, (b.index, b.var) ∈ vs ∧ b.name = b.var.name ∧ b.name ≠ []
  nodup : (bs.map Binding.name).Nodup

theorem Binds.addBinding {c : Contract} {oracle : Oracle} {vs : List (Int × OldVar)}
    {bs bs' : List Binding} {e : Int × OldVar} (hbs : Binds vs bs)
    (h : addBinding c oracle bs e = .ok bs') : Binds (vs ++ [e]) bs' := by
  have hgrow : ∀ b ∈ bs, (b.index, b.var) ∈ vs ++ [e] ∧ b.name = b.var.name ∧ b.name ≠ [] :=
    fun b hb => ⟨List.mem_append_left _ (hbs.source b hb).1, (hbs.source b hb).2⟩
  simp only [Plan.addBinding] at h
  split at h
  · cases h
  rename_i hne
  split at h
  · rename_i b hfind
    split at h
    · rename_i hsame
      cases h
      refine ⟨?_, hgrow, hbs.nodup⟩
      intro d hd
      rcases List.mem_append.1 hd with hd | hd
      · exact hbs.bound d hd
      · rw [List.mem_singleton.1 hd]
        exact ⟨b, List.mem_of_find?_eq_some hfind, hsame⟩
    · cases h
  · rename_i hfind
    cases h
    refine ⟨?_, ?_, ?_⟩
    · intro d hd
      rcases List.mem_append.1 hd with hd | hd
      · obtain ⟨b, hb, hvar⟩ := hbs.bound d hd
        exact ⟨b, List.mem_append_left _ hb, hvar⟩
      · rw [List.mem_singleton.1 hd]
        exact ⟨_, List.mem_append_right _ List.mem_cons_self, rfl⟩
    · intro b hb
      rcases List.mem_append.1 hb with hb | hb
      · exact hgrow b hb
      · rw [List.mem_singleton.1 hb]
        exact ⟨List.mem_append_right _ List.mem_cons_self, rfl, hne⟩
    · rw [List.map_append, List.map_singleton, List.nodup_append]
      refine ⟨hbs.nodup, List.nodup_singleton _, ?_⟩
      intro a ha d hd heq
      obtain ⟨b, hb, rfl⟩ := List.mem_map.1 ha
      have hnew := List.find?_eq_none.1 hfind b hb
      rw [List.mem_singleton.1 hd] at heq
      exact hnew (decide_eq_true heq)

theorem Binds.foldlM {c : Contract} {oracle : Oracle} {vs ws : List (Int × OldVar)}
    {bs bs' : List Binding} (hbs : Binds vs bs)
    (h : ws.foldlM (Plan.addBinding c oracle) bs = .ok bs') : Binds (vs ++ ws) bs' := by
  induction ws generalizing vs bs with
  | nil =>
    cases h
    rw [List.append_nil]
    exact hbs
  | cons e ws ih =>
    obtain ⟨bs₁, h₁, h⟩ := except_bind_eq_ok h
    have hrest := ih (hbs.addBinding h₁) h
    rw [List.append_assoc] at hrest
    exact hrest

theorem binds_extract {c : Contract} {oracle : Oracle} {plan : Plan}
    (h : extract c oracle = .ok plan) : Binds (oldVarsInOrder c) plan.bindings := by
  obtain ⟨-, -, h⟩ := except_bind_eq_ok h
  obtain ⟨-, -, h⟩ := except_bind_eq_ok h
  obtain ⟨bs, hbs, h⟩ := except_bind_eq_ok h
  cases h
  have hnil : Binds [] [] := ⟨by simp, by simp, List.nodup_nil⟩
  exact hnil.foldlM hbs

/-- the bindings of a plan stand in the order of their spec cases, and are early or late as the
oracle says -/
theorem extract_eq_ok {c : Contract} {oracle : Oracle} {plan : Plan}
    (h : extract c oracle = .ok plan) :
    plan = ofBindings c plan.bindings ∧ Grouped c.pre.indices plan.bindings ∧
      ∀ b ∈ plan.bindings, Scanned c oracle b := by
  obtain ⟨-, -, h⟩ := except_bind_eq_ok h
  obtain ⟨-, -, h⟩ := except_bind_eq_ok h
  obtain ⟨bs, hbs, h⟩ := except_bind_eq_ok h
  cases h
  obtain ⟨new, rfl, hgrouped, hscanned⟩ := grouped_foldlM _ hbs
  exact ⟨rfl, hgrouped, hscanned⟩

end Plan

theorem texts_captureSteps (bs : List Binding) :
    (captureSteps bs).map CaptureStep.text = Plan.captures Binding.var bs := by
  rw [captureSteps, Plan.captures, List.map_map, List.filter_map]
  rfl

theorem texts_timeline {c : Contract} {oracle : Oracle} {plan : Plan}
    (h : Plan.extract c oracle = .ok plan) :
    (timeline c plan).map CaptureStep.text = plan.early ++ (plan.preExprs
      ++ ((if checksPrecondition c plan then [c.precondition] else []) ++ plan.late)) := by
  have hlate : ∀ i, (lateSteps c plan.bindings i).map CaptureStep.text
      = Plan.lateOf c plan.bindings i := by
    intro i
    rw [lateSteps, List.map_append, texts_captureSteps, List.map_map]
    exact congrArg _ (List.map_id _)
  have hcheck : (checkSteps c plan).map CaptureStep.text
      = if checksPrecondition c plan then [c.precondition] else [] := by
    unfold checkSteps
    split <;> rfl
  have hpre : (plan.preExprs.map CaptureStep.preExpr).map CaptureStep.text = plan.preExprs := by
    rw [List.map_map]
    exact List.map_id _
  rw [timeline, List.map_append, List.map_append, List.map_append, texts_captureSteps, hpre, hcheck,
    List.map_flatMap]
  simp only [hlate]
  obtain ⟨hplan, -, -⟩ := Plan.extract_eq_ok h
  rw [hplan]
  rfl

/-! ### what the oracle sees -/

theorem mem_words_of_mem_namesIn {s n : Text} (h : n ∈ namesIn s) : n ∈ words s := by
  obtain ⟨o, ho, rfl⟩ := List.mem_map.1 h
  rw [← references_iff, references, List.any_eq_true]
  exact ⟨o, (List.mem_filter.1 ho).1, beq_self_eq_true _⟩

theorem words_disjunction {ps : List Text} (hne : ps ≠ []) (h : ∀ p ∈ ps, LiteralsClosed p) :
    words (Contract.disjunction ps) = ps.flatMap words := by
  match ps with
  | [] => exact absurd rfl hne
  | [p] => exact (List.flatMap_singleton ..).symm
  | p :: q :: ps =>
    have hsep : ∀ d ∈ (") || (" : Text), isMark d = true := List.all_eq_true.1 (by decide)
    have hopen : ∀ d ∈ ("(" : Text), isMark d = true := List.all_eq_true.1 (by decide)
    have hclose : ∀ d ∈ (")" : Text), isMark d = true := List.all_eq_true.1 (by decide)
    have hclosed := literalsClosed_join (literalsClosed_of_isMark hsep) (p :: q :: ps) h
    have hfresh := startsFresh_marks (by decide) hclose []
    rw [List.append_nil] at hfresh
    show words (("(" : Text) ++ Text.join ") || (" (p :: q :: ps) ++ (")" : Text)) = _
    rw [List.append_assoc, words_marks_append hopen, words_append hclosed hfresh, words_marks hclose,
      words_join (by decide) hsep (p :: q :: ps) h, List.append_nil]

/-- the precondition that is checked reads no variable that is captured late -/
theorem not_mem_precondition {c : Contract} {crosscut : List Text} {b : Binding}
    (hb : Scanned c (Oracle.scanning crosscut) b) (hlate : b.early = false)
    (hclosed : ∀ e ∈ c.pre.entries, LiteralsClosed e.2)
    (hassert : assertable c.precondition = true) :
    b.name ∉ namesIn c.precondition := by
  intro hmem
  have hword := mem_words_of_mem_namesIn hmem
  have htrue : assertable ("true" : Text) = false := by decide +kernel
  unfold Contract.precondition at hassert hword
  simp only at hassert hword
  split at hassert
  case isFalse =>
    rw [htrue] at hassert
    cases hassert
  case isTrue hall =>
    rw [if_pos hall] at hword
    have hne : c.pre.entries.map Prod.snd ≠ [] := by
      intro hnil
      rw [hnil, Contract.disjunction, htrue] at hassert
      cases hassert
    have htexts : ∀ p ∈ c.pre.entries.map Prod.snd, LiteralsClosed p := by
      intro p hp
      obtain ⟨e, he, rfl⟩ := List.mem_map.1 hp
      exact hclosed e he
    rw [words_disjunction hne htexts] at hword
    obtain ⟨p, hp, hword⟩ := List.mem_flatMap.1 hword
    obtain ⟨e, he, rfl⟩ := List.mem_map.1 hp
    have hearly : b.inPrecondition = true := by
      rw [hb.1]
      exact List.any_eq_true.2 ⟨e, he, references_iff.2 hword⟩
    rw [Binding.early, hearly] at hlate
    cases hlate

/-- pre-expressions read no variable that is captured late -/
theorem not_mem_preExpr {c : Contract} {crosscut : List Text} {b : Binding}
    (hb : Scanned c (Oracle.scanning crosscut) b) (hlate : b.early = false)
    (hclosed : ∀ s ∈ c.preExprs, LiteralsClosed s) {s : Text} (hs : s ∈ c.preExprs) :
    b.name ∉ namesIn s := by
  intro hmem
  have hsep : ∀ d ∈ ("\n" : Text), isMark d = true := List.all_eq_true.1 (by decide)
  have hword : b.name ∈ words (Text.join "\n" c.preExprs) := by
    rw [words_join (by decide) hsep _ hclosed]
    exact List.mem_flatMap.2 ⟨s, hs, mem_words_of_mem_namesIn hmem⟩
  have hearly : b.inPreExpr = true := by
    rw [hb.2]
    exact references_iff.2 hword
  rw [Binding.early, hearly, Bool.or_true] at hlate
  cases hlate

/-! ### steps in order -/

theorem mem_captureSteps {bs : List Binding} {x : CaptureStep} :
    x ∈ captureSteps bs ↔ ∃ b ∈ bs, b.var.capture ≠ [] ∧ x = .capture b := by
  rw [captureSteps, List.mem_map]
  constructor
  · rintro ⟨b, hb, rfl⟩
    obtain ⟨hmem, hcapture⟩ := List.mem_filter.1 hb
    exact ⟨b, hmem, bne_iff_ne.1 hcapture, rfl⟩
  · rintro ⟨b, hmem, hcapture, rfl⟩
    exact ⟨b, List.mem_filter.2 ⟨hmem, bne_iff_ne.2 hcapture⟩, rfl⟩

theorem mem_lateSteps {c : Contract} {bs : List Binding} {i : Int} {x : CaptureStep} :
    x ∈ lateSteps c bs i ↔
      (∃ b ∈ bs, b.index = i ∧ b.early = false ∧ b.var.capture ≠ [] ∧ x = .capture b) ∨
        ∃ s ∈ c.oldExprs.list i, x = .oldExpr i s := by
  rw [lateSteps, List.mem_append, mem_captureSteps, List.mem_map]
  simp only [List.mem_filter, Bool.and_eq_true, decide_eq_true_eq, Bool.not_eq_true', and_assoc]
  refine or_congr_right ?_
  exact exists_congr fun s => and_congr_right fun _ => eq_comm

/-- the step does not read what the later step captures -/
def Independent (x y : CaptureStep) : Prop := ∀ b, y = .capture b → ¬x.Reads b

theorem capturedInTime_of_pairwise {steps : List CaptureStep} {bs : List Binding}
    (h : steps.Pairwise Independent) (hall : ∀ b ∈ bs, b.var.capture ≠ [] → .capture b ∈ steps) :
    CapturedInTime steps bs := by
  rintro done st todo rfl b hb hcapture hreads
  rcases List.mem_append.1 (hall b hb hcapture) with hmem | hmem
  · exact hmem
  rcases List.mem_cons.1 hmem with rfl | hmem
  · exact absurd rfl hreads.1
  · obtain ⟨-, hlater, -⟩ := List.pairwise_append.1 h
    exact absurd hreads ((List.pairwise_cons.1 hlater).1 _ hmem b rfl)

theorem pairwise_captureSteps {bs : List Binding}
    (h : bs.Pairwise fun a b => b.name ∉ namesIn a.var.capture) :
    (captureSteps bs).Pairwise Independent := by
  rw [captureSteps, List.pairwise_map]
  refine (h.filter _).imp ?_
  intro a b hab d hd hreads
  cases hd
  exact hab hreads.2

/-- steps before which nothing has to be captured -/
theorem pairwise_of_no_captures {steps : List CaptureStep} (h : ∀ b, .capture b ∉ steps) :
    steps.Pairwise Independent :=
  List.pairwise_of_forall_mem_list fun _ _ _ hy b hb => absurd (hb ▸ hy) (h b)

section
variable {c : Contract} {crosscut : List Text} {plan : Plan}

theorem capture_not_mem_preExprs (b : Binding) :
    .capture b ∉ plan.preExprs.map CaptureStep.preExpr ++ checkSteps c plan := by
  intro hmem
  rcases List.mem_append.1 hmem with hmem | hmem
  · obtain ⟨s, -, hs⟩ := List.mem_map.1 hmem
    cases hs
  · unfold checkSteps at hmem
    split at hmem
    · cases List.mem_singleton.1 hmem
    · cases hmem

theorem capture_mem_timeline (hgrouped : Grouped c.pre.indices plan.bindings) {b : Binding}
    (hb : b ∈ plan.bindings) (hcapture : b.var.capture ≠ []) : .capture b ∈ timeline c plan := by
  cases hearly : b.early with
  | true =>
    refine List.mem_append_left _ (mem_captureSteps.2 ⟨b, ?_, hcapture, rfl⟩)
    exact List.mem_filter.2 ⟨hb, hearly⟩
  | false =>
    refine List.mem_append_right _ (List.mem_append_right _ (List.mem_append_right _ ?_))
    exact List.mem_flatMap.2 ⟨b.index, hgrouped.index_mem b hb,
      mem_lateSteps.2 (.inl ⟨b, hb, rfl, hearly, hcapture, rfl⟩)⟩

theorem pairwise_lateSteps (hgrouped : Grouped c.pre.indices plan.bindings)
    (hdeclared : plan.bindings.Pairwise fun a b => b.name ∉ namesIn a.var.capture)
    (hback : ReadsBack c plan.bindings) :
    (c.pre.indices.flatMap (lateSteps c plan.bindings)).Pairwise Independent := by
  have hcases := hgrouped.pairwise c.pre.nodup_indices hdeclared
  rw [List.pairwise_flatMap]
  constructor
  · intro i _
    rw [lateSteps, List.pairwise_append]
    have hnone : ∀ b, .capture b ∉ (c.oldExprs.list i).map (CaptureStep.oldExpr i) := by
      intro b hb
      obtain ⟨s, -, hs⟩ := List.mem_map.1 hb
      cases hs
    refine ⟨pairwise_captureSteps (hdeclared.filter _), pairwise_of_no_captures hnone, ?_⟩
    intro x _ y hy b hb
    exact absurd (hb ▸ hy) (hnone b)
  · refine (hcases.and hback).imp ?_
    rintro i j ⟨hcapture, hold⟩ x hx y hy d rfl hreads
    rcases mem_lateSteps.1 hy with ⟨b, hb, hbj, hlate, hne, hd⟩ | ⟨s, -, hs⟩
    · cases hd
      rcases mem_lateSteps.1 hx with ⟨a, ha, hai, -, -, rfl⟩ | ⟨s, hs, rfl⟩
      · exact hcapture a ha hai d hb hbj hreads.2
      · exact hold s hs d hb hbj hlate hne hreads
    · cases hs

/-- what the early captures, the pre-expressions and the check leave to the late captures -/
theorem independent_late (hplan : plan = Plan.ofBindings c plan.bindings)
    (hscanned : ∀ b ∈ plan.bindings, Scanned c (Oracle.scanning crosscut) b)
    (hpre : ∀ e ∈ c.pre.entries, LiteralsClosed e.2) (hexprs : ∀ s ∈ c.preExprs, LiteralsClosed s)
    (hearly : EarlyClosed plan.bindings) {x : CaptureStep} {b : Binding}
    (hx : x ∈ captureSteps (plan.bindings.filter Binding.early)
      ++ (plan.preExprs.map .preExpr ++ checkSteps c plan))
    (hb : b ∈ plan.bindings) (hlate : b.early = false) (hcapture : b.var.capture ≠ []) :
    ¬x.Reads b := by
  intro hreads
  rcases List.mem_append.1 hx with hx | hx
  · obtain ⟨a, ha, -, rfl⟩ := mem_captureSteps.1 hx
    obtain ⟨ha, haearly⟩ := List.mem_filter.1 ha
    exact hearly a ha haearly b hb hlate hcapture hreads.2
  rcases List.mem_append.1 hx with hx | hx
  · obtain ⟨s, hs, rfl⟩ := List.mem_map.1 hx
    rw [hplan] at hs
    exact not_mem_preExpr (hscanned b hb) hlate hexprs hs hreads
  · unfold checkSteps at hx
    split at hx
    case isFalse => cases hx
    case isTrue hcheck =>
      cases List.mem_singleton.1 hx
      have hassert := (Bool.and_eq_true _ _).mp hcheck
      exact not_mem_precondition (hscanned b hb) hlate hpre hassert.2 hreads

theorem timeline_pairwise (hplan : plan = Plan.ofBindings c plan.bindings)
    (hgrouped : Grouped c.pre.indices plan.bindings)
    (hscanned : ∀ b ∈ plan.bindings, Scanned c (Oracle.scanning crosscut) b)
    (hdeclared : plan.bindings.Pairwise fun a b => b.name ∉ namesIn a.var.capture)
    (hpre : ∀ e ∈ c.pre.entries, LiteralsClosed e.2) (hexprs : ∀ s ∈ c.preExprs, LiteralsClosed s)
    (hearly : EarlyClosed plan.bindings) (hback : ReadsBack c plan.bindings) :
    (timeline c plan).Pairwise Independent := by
  have hsplit : timeline c plan = (captureSteps (plan.bindings.filter Binding.early)
      ++ (plan.preExprs.map .preExpr ++ checkSteps c plan))
      ++ c.pre.indices.flatMap (lateSteps c plan.bindings) := by
    rw [timeline, List.append_assoc, List.append_assoc]
  rw [hsplit, List.pairwise_append, List.pairwise_append]
  refine ⟨⟨pairwise_captureSteps (hdeclared.filter _),
    pairwise_of_no_captures capture_not_mem_preExprs, ?_⟩,
    pairwise_lateSteps hgrouped hdeclared hback, ?_⟩
  · intro x _ y hy b hb
    exact absurd (hb ▸ hy) (capture_not_mem_preExprs b)
  · rintro x hx y hy b rfl
    obtain ⟨i, -, hy⟩ := List.mem_flatMap.1 hy
    rcases mem_lateSteps.1 hy with ⟨d, hd, -, hlate, hne, he⟩ | ⟨s, -, hs⟩
    · cases he
      exact independent_late hplan hscanned hpre hexprs hearly hx hd hlate hne
    · cases hs

theorem earlyClosed_of_capturedInTime
    (hscanned : ∀ b ∈ plan.bindings, Scanned c (Oracle.scanning crosscut) b)
    (h : CapturedInTime (timeline c plan) plan.bindings) : EarlyClosed plan.bindings := by
  intro a ha haearly b hb hlate hcapture hmem
  have hne : a.var.capture ≠ [] := by
    intro hnil
    rw [hnil] at hmem
    exact absurd hmem (by simp [namesIn, occurrences, lexemes, occurrencesFrom])
  have hnames : a.name ≠ b.name := by
    intro hname
    -- whether a binding is early depends on its name alone
    have hsame : a.early = b.early := by
      rw [Binding.early, Binding.early, (hscanned a ha).1, (hscanned a ha).2, (hscanned b hb).1,
        (hscanned b hb).2, hname]
    rw [haearly, hlate] at hsame
    cases hsame
  have hstep : .capture a ∈ captureSteps (plan.bindings.filter Binding.early) :=
    mem_captureSteps.2 ⟨a, List.mem_filter.2 ⟨ha, haearly⟩, hne, rfl⟩
  obtain ⟨done, todo, hsplit⟩ := List.append_of_mem hstep
  have hdone := h done (.capture a) (todo ++ (plan.preExprs.map .preExpr
    ++ (checkSteps c plan ++ c.pre.indices.flatMap (lateSteps c plan.bindings))))
    (by rw [timeline, hsplit, List.append_assoc, List.cons_append]) b hb hcapture ⟨hnames, hmem⟩
  have hmem' : .capture b ∈ captureSteps (plan.bindings.filter Binding.early) := by
    rw [hsplit]
    exact List.mem_append_left _ hdone
  obtain ⟨d, hd, -, he⟩ := mem_captureSteps.1 hmem'
  cases he
  rw [(List.mem_filter.1 hd).2] at hlate
  cases hlate

theorem pairwise_of_split {α : Type} {R : α → α → Prop} {l : List α}
    (h : ∀ before x after, l = before ++ x :: after → ∀ y ∈ after, R x y) : l.Pairwise R := by
  induction l with
  | nil => exact .nil
  | cons x l ih =>
    refine List.pairwise_cons.2 ⟨h [] x l rfl, ih ?_⟩
    rintro before y after rfl
    exact h (x :: before) y after rfl

theorem readsBack_of_capturedInTime (h : CapturedInTime (timeline c plan) plan.bindings) :
    ReadsBack c plan.bindings := by
  refine pairwise_of_split ?_
  rintro before i after hindices j hj s hs b hb rfl hlate hcapture hmem
  have hnodup := c.pre.nodup_indices
  rw [hindices] at hnodup
  obtain ⟨-, hi, hbefore⟩ := List.nodup_append.1 hnodup
  obtain ⟨done, todo, hsplit⟩ := List.append_of_mem
    (show CaptureStep.oldExpr i s ∈ (c.oldExprs.list i).map (.oldExpr i) from
      List.mem_map_of_mem hs)
  have hcase : lateSteps c plan.bindings i
      = captureSteps (plan.bindings.filter fun b => b.index = i && !b.early)
        ++ (done ++ .oldExpr i s :: todo) := by
    rw [lateSteps, hsplit]
  -- the steps before the old expression, of which those of its own spec case come last
  have hdone := h (captureSteps (plan.bindings.filter Binding.early)
      ++ ((plan.preExprs.map .preExpr ++ checkSteps c plan)
      ++ (before.flatMap (lateSteps c plan.bindings)
      ++ (captureSteps (plan.bindings.filter fun b => b.index = i && !b.early) ++ done))))
    (.oldExpr i s) (todo ++ after.flatMap (lateSteps c plan.bindings))
    (by
      rw [timeline, hindices, List.flatMap_append, List.flatMap_cons, hcase]
      simp only [List.append_assoc, List.cons_append])
    b hb hcapture hmem
  rcases List.mem_append.1 hdone with hmem | hdone
  · obtain ⟨d, hd, -, he⟩ := mem_captureSteps.1 hmem
    cases he
    rw [(List.mem_filter.1 hd).2] at hlate
    cases hlate
  rcases List.mem_append.1 hdone with hmem | hdone
  · exact capture_not_mem_preExprs b hmem
  rcases List.mem_append.1 hdone with hmem | hdone
  · obtain ⟨k, hk, hmem⟩ := List.mem_flatMap.1 hmem
    rcases mem_lateSteps.1 hmem with ⟨d, -, hdk, -, -, he⟩ | ⟨u, -, hu⟩
    · cases he
      exact hbefore k hk b.index (List.mem_cons_of_mem i hj) hdk.symm
    · cases hu
  rcases List.mem_append.1 hdone with hmem | hmem
  · obtain ⟨d, hd, -, he⟩ := mem_captureSteps.1 hmem
    cases he
    have hindex := (List.mem_filter.1 hd).2
    rw [Bool.and_eq_true, decide_eq_true_eq] at hindex
    exact (List.nodup_cons.1 hi).1 (hindex.1 ▸ hj)
  · have hold : .capture b ∈ (c.oldExprs.list i).map (CaptureStep.oldExpr i) := by
      rw [hsplit]
      exact List.mem_append_left _ hmem
    obtain ⟨u, -, hu⟩ := List.mem_map.1 hold
    cases hu

end

/-- Let no capture of an old variable read one that is declared later, and let the literals of
preconditions and pre-expressions be closed.  In the order of execution every captured variable is
captured before it is read, exactly if no early capture reads a variable that is captured late and
no old expression reads a late variable of a later spec case. -/
theorem capturedInTime_iff {c : Contract} {crosscut : List Text} {plan : Plan}
    (h : Plan.extract c (Oracle.scanning crosscut) = .ok plan)
    (hdeclared : plan.bindings.Pairwise fun a b => b.name ∉ namesIn a.var.capture)
    (hpre : ∀ e ∈ c.pre.entries, LiteralsClosed e.2)
    (hexprs : ∀ s ∈ c.preExprs, LiteralsClosed s) :
    (timeline c plan).map CaptureStep.text = plan.early ++ (plan.preExprs
        ++ ((if checksPrecondition c plan then [c.precondition] else []) ++ plan.late)) ∧
      (CapturedInTime (timeline c plan) plan.bindings ↔
        EarlyClosed plan.bindings ∧ ReadsBack c plan.bindings) := by
  obtain ⟨hplan, hgrouped, hscanned⟩ := Plan.extract_eq_ok h
  refine ⟨texts_timeline h, ?_, ?_⟩
  · intro htime
    exact ⟨earlyClosed_of_capturedInTime hscanned htime, readsBack_of_capturedInTime htime⟩
  · rintro ⟨hearly, hback⟩
    have hpairwise := timeline_pairwise hplan hgrouped hscanned hdeclared hpre hexprs hearly hback
    exact capturedInTime_of_pairwise hpairwise fun b hb => capture_mem_timeline hgrouped hb

/-- the precondition reads the size, and the room left is computed from it -/
def growContract : Contract where
  method := { name := "Grow", owner := "Buffer", receiver := "s", visibility := .of .pub }
  pre := .set .empty 0 "size > 0"
  oldVars := .set .empty 0 [⟨"size int/size = s.size"⟩, ⟨"room int/room = s.limit - size"⟩]
  oldExprs := .set .empty 0 ["racOld0 = room"]
  oldExprDecls := .set .empty 0 ["var racOld0 int"]

def growBindings : List Binding :=
  [⟨0, "size", ⟨"size int/size = s.size"⟩, true, false⟩,
   ⟨0, "room", ⟨"room int/room = s.limit - size"⟩, false, false⟩]

theorem capturedInTime_grow :
    Plan.extract growContract (Oracle.scanning []) = .ok (Plan.ofBindings growContract growBindings) ∧
      (growBindings.Pairwise fun a b => b.name ∉ namesIn a.var.capture) ∧
      CapturedInTime (timeline growContract (Plan.ofBindings growContract growBindings))
        growBindings := by
  have hplan : Plan.extract growContract (Oracle.scanning [])
      = .ok (Plan.ofBindings growContract growBindings) := by decide +kernel
  have hdeclared : growBindings.Pairwise fun a b => b.name ∉ namesIn a.var.capture := by
    decide +kernel
  have hpre : ∀ e ∈ growContract.pre.entries, LiteralsClosed e.2 := by
    intro e he
    cases List.mem_singleton.1 he
    rfl
  have hexprs : ∀ s ∈ growContract.preExprs, LiteralsClosed s := by
    intro s hs
    cases hs
  have hiff := (capturedInTime_iff hplan hdeclared hpre hexprs).2
  have hback : ReadsBack growContract growBindings := List.pairwise_singleton _ 0
  exact ⟨hplan, hdeclared, hiff.2 ⟨by decide +kernel, hback⟩⟩

/-- the precondition reads a variable that is computed from another one -/
def chainContract : Contract where
  method := { name := "Grow", owner := "Buffer", receiver := "s", visibility := .of .pub }
  pre := .set .empty 0 "b > 0"
  oldVars := .set .empty 0 [⟨"a int/a = s.size"⟩, ⟨"b int/b = a + 1"⟩]

def chainBindings : List Binding :=
  [⟨0, "a", ⟨"a int/a = s.size"⟩, false, false⟩, ⟨0, "b", ⟨"b int/b = a + 1"⟩, true, false⟩]

/-- the early capture reads the other variable, which is captured late -/
theorem not_capturedInTime_chain :
    ∃ plan, Plan.extract chainContract (Oracle.scanning []) = .ok plan ∧
      plan.bindings = chainBindings ∧
      (chainBindings.Pairwise fun a b => b.name ∉ namesIn a.var.capture) ∧
      plan.early = ["b = a + 1"] ∧ plan.late = ["a = s.size"] ∧
      ¬CapturedInTime (timeline chainContract plan) plan.bindings := by
  have hplan : Plan.extract chainContract (Oracle.scanning [])
      = .ok (Plan.ofBindings chainContract chainBindings) := by decide +kernel
  refine ⟨_, hplan, rfl, by decide +kernel, by decide +kernel, by decide +kernel, ?_⟩
  intro htime
  have hclosed := earlyClosed_of_capturedInTime (Plan.extract_eq_ok hplan).2.2 htime
  exact absurd hclosed (by decide +kernel)

end ContractChecks
