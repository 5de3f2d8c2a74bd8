import ContractChecks.Directive.Expression
import ContractChecks.Proofs.InheritedParameters
import ContractChecks.Proofs.UsedTemporaries

/-!
# Old-state names of postconditions

A plan is made only if every old-state name of a postcondition is declared for its spec case.
Declarations and captures stand in tables of their own, and the captures are not looked at, so a name
can be declared that no statement assigns.

* `AssignsTo s t`: the statement `s` has the variable `t` as a target;
* `Contract.captureTexts c i`: the capture statements listed for the spec case `i`;
* `Plan.CapturesOld c plan`: every old-state name of a postcondition is assigned by a statement of
  its case that the plan runs;
* `mem_plan_of_captureTexts`: a plan runs every capture that is listed, also those of a variable that
  several cases declare;
* `capturesOld_iff`: so it captures all names exactly if each has a capture in the list of its case.
-/

namespace ContractChecks

/-- the statement has the variable as a target, at the top or under a guard -/
def AssignsTo (s t : Text) : Prop := (t, NameRole.target) ∈ rolesIn s

instance (s t : Text) : Decidable (AssignsTo s t) :=
  inferInstanceAs (Decidable ((t, NameRole.target) ∈ rolesIn s))

example : AssignsTo "if x == racOld1 \x7b\nracOld0 = x\n\x7d" "racOld0" ∧
    ¬AssignsTo "if x == racOld1 \x7b\nracOld0 = x\n\x7d" "racOld1" := by
  decide +kernel

def Contract.captureTexts (c : Contract) (i : Int) : List Text :=
  (c.oldVars.list i).map OldVar.capture ++ c.oldExprs.list i

/-- the capture statements of every case assign the old-state names that its postconditions use -/
def Contract.ListsCaptures (c : Contract) : Prop :=
  ∀ e ∈ Plan.postTexts c, ∀ t ∈ Plan.oldTokens e.2, ∃ s ∈ c.captureTexts e.1, AssignsTo s t

def Plan.CapturesOld (c : Contract) (plan : Plan) : Prop :=
  ∀ e ∈ Plan.postTexts c, ∀ t ∈ Plan.oldTokens e.2,
    ∃ s ∈ c.captureTexts e.1, s ∈ plan.early ++ plan.late ∧ AssignsTo s t

instance (c : Contract) : Decidable c.ListsCaptures :=
  inferInstanceAs (Decidable (∀ e ∈ Plan.postTexts c, ∀ t ∈ Plan.oldTokens e.2,
    ∃ s ∈ c.captureTexts e.1, AssignsTo s t))

theorem AssignsTo.ne_nil {s t : Text} (h : AssignsTo s t) : s ≠ [] := by
  rintro rfl
  have hnil : lexemes [] = [] := by rw [lexemes]
  unfold AssignsTo rolesIn at h
  rw [hnil] at h
  cases h

/-! ### declared names -/

/-- the declared names of a case are names, or nothing -/
theorem isName_of_mem_declaredOld {c : Contract} {i : Int} {t : Text}
    (h : t ∈ Plan.declaredOld c i) (hne : t ≠ []) : isName t = true := by
  rcases List.mem_append.1 h with h | h
  · obtain ⟨v, -, rfl⟩ := List.mem_map.1 h
    exact isName_leadingName hne
  · obtain ⟨d, -, rfl⟩ := List.mem_map.1 h
    exact isName_leadingName hne

theorem declaredOld_of_checkOld {c : Contract} (h : Plan.checkOld c = .ok ()) {e : Int × Text}
    (he : e ∈ Plan.postTexts c) {t : Text} (ht : t ∈ Plan.oldTokens e.2) :
    t ∈ Plan.declaredOld c e.1 := by
  have hcheck := forM_eq_ok h e he
  cases hfind : Plan.undeclaredOld? c e.1 e.2 with
  | some tok =>
    rw [hfind] at hcheck
    cases hcheck
  | none =>
    have hdeclared := List.find?_eq_none.1 hfind t ht
    rw [Bool.not_eq_true, Bool.not_eq_false'] at hdeclared
    exact List.contains_iff_mem.1 hdeclared

section
variable {c : Contract} {oracle : Oracle} {plan : Plan}

theorem Plan.closed_of_extract (h : Plan.extract c oracle = .ok plan) :
    c.Closed ∧ Plan.checkOld c = .ok () := by
  obtain ⟨_, hvalid, h⟩ := except_bind_eq_ok h
  obtain ⟨_, hcheck, -⟩ := except_bind_eq_ok h
  exact ⟨Contract.validate_eq_ok.1 hvalid, hcheck⟩

/-! ### captures -/

/-- a plan runs every capture that is listed for a case; that of a variable which an earlier case
declares with the same text stands with the earlier case -/
theorem mem_plan_of_captureTexts (h : Plan.extract c oracle = .ok plan) {i : Int} {s : Text}
    (hs : s ∈ c.captureTexts i) (hne : s ≠ []) : s ∈ plan.early ++ plan.late := by
  obtain ⟨hclosed, -⟩ := Plan.closed_of_extract h
  rw [List.mem_append]
  rcases List.mem_append.1 hs with hs | hs
  · obtain ⟨v, hv, rfl⟩ := List.mem_map.1 hs
    obtain ⟨vs, hvs, -⟩ := CaseTable.mem_list hv
    exact capture_mem h (hclosed.oldVars i (List.mem_map_of_mem hvs)) hv hne
  · obtain ⟨ss, hss, -⟩ := CaseTable.mem_list hs
    have hi := hclosed.oldExprs i (List.mem_map_of_mem hss)
    exact .inr (mem_late h hi (List.mem_append_right _ hs))

/-- The old-state names of the postconditions are declared for their cases, and none is an old
expression that was left over.  They are all captured exactly if each is assigned by a capture that
is listed for its case. -/
theorem capturesOld_iff (h : Plan.extract c oracle = .ok plan) :
    (∀ e ∈ Plan.postTexts c, ∀ t ∈ Plan.oldTokens e.2,
        t ∈ Plan.declaredOld c e.1 ∧ t ≠ oldKeyword) ∧
      (plan.CapturesOld c ↔ c.ListsCaptures) := by
  obtain ⟨-, hcheck⟩ := Plan.closed_of_extract h
  refine ⟨fun e he t ht => ?_, ?_, ?_⟩
  · have hdeclared := declaredOld_of_checkOld hcheck he ht
    refine ⟨hdeclared, ?_⟩
    rintro rfl
    exact not_isName_keyword _ (isName_of_mem_declaredOld hdeclared (List.cons_ne_nil _ _))
  · intro hcaptures e he t ht
    obtain ⟨s, hs, -, hassigns⟩ := hcaptures e he t ht
    exact ⟨s, hs, hassigns⟩
  · intro hlists e he t ht
    obtain ⟨s, hs, hassigns⟩ := hlists e he t ht
    exact ⟨s, hs, mem_plan_of_captureTexts h hs hassigns.ne_nil, hassigns⟩

end

/-- two cases that declare one old variable, where the second also captures an old expression -/
def fillContract : Contract where
  method := { name := "Fill", owner := "Buffer", receiver := "b", visibility := .of .pub }
  pre := .set (.set .empty 0 "n > 0") 1 "n <= 0"
  post := .set (.set .empty 0 "b.size > racOldSize") 1 "b.size == racOldSize && b.cap == racOld0"
  oldVars := .set (.set .empty 0 [⟨"racOldSize int/racOldSize = b.size"⟩]) 1
    [⟨"racOldSize int/racOldSize = b.size"⟩]
  oldExprDecls := .set .empty 1 ["var racOld0 int"]
  oldExprs := .set .empty 1 ["if n <= 0 \x7b\nracOld0 = b.cap\n\x7d"]

def fillCaptures : List Text := [
  "racOldSize = b.size",
  "if n <= 0 \x7b\nracOld0 = b.cap\n\x7d"]

theorem capturesOld_fillContract : ∃ plan, Plan.extract fillContract (.scanning []) = .ok plan ∧
    plan.early ++ plan.late = fillCaptures ∧ plan.CapturesOld fillContract := by
  obtain ⟨plan, hplan, hlate⟩ := exists_eq_ok (x := Plan.extract fillContract (.scanning []))
    (p := fun plan => decide (plan.early ++ plan.late = fillCaptures)) (by
      -- the kernel is slow in reading the characters of a literal, so they are put in its place
      unfold fillContract fillCaptures
      repeat rw [String.toList_ofList]
      decide +kernel)
  refine ⟨plan, hplan, of_decide_eq_true hlate, (capturesOld_iff hplan).2.2 ?_⟩
  unfold fillContract
  repeat rw [String.toList_ofList]
  decide +kernel

/-- a case that declares the variable of an old expression and does not capture it -/
def swellContract : Contract where
  method := { name := "Swell", owner := "Buffer", receiver := "b", visibility := .of .pub }
  pre := .set .empty 0 "true"
  post := .set .empty 0 "b.size > racOld0"
  oldExprDecls := .set .empty 0 ["var racOld0 int"]

/-- there is a plan for it, which leaves the variable as it is declared -/
theorem declared_not_captured : ∃ plan, Plan.extract swellContract (.scanning []) = .ok plan ∧
    plan.temps.contains "racOld0" = true ∧ plan.early ++ plan.late = [] ∧
    ∃ e ∈ Plan.postTexts swellContract, (Plan.oldTokens e.2).contains "racOld0" = true ∧
      ¬plan.CapturesOld swellContract := by
  obtain ⟨plan, hplan, hparts⟩ := exists_eq_ok (x := Plan.extract swellContract (.scanning []))
    (p := fun plan => plan.temps.contains "racOld0" && decide (plan.early ++ plan.late = []))
    (by decide +kernel)
  obtain ⟨htemps, hnone⟩ := Bool.and_eq_true_iff.1 hparts
  have hpost : ∃ e ∈ Plan.postTexts swellContract, (Plan.oldTokens e.2).contains "racOld0" = true := by
    decide +kernel
  obtain ⟨e, he, htoken⟩ := hpost
  refine ⟨plan, hplan, htemps, of_decide_eq_true hnone, e, he, htoken, ?_⟩
  intro hcaptures
  obtain ⟨s, -, hs, -⟩ := hcaptures e he _ (List.contains_iff_mem.1 htoken)
  rw [of_decide_eq_true hnone] at hs
  cases hs

end ContractChecks
