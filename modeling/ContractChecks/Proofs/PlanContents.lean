import Mathlib.Data.List.Flatten
import ContractChecks.Proofs.Lists
import ContractChecks.Proofs.PlanFaults

/-!
# What a capture plan holds

Several cases may declare one old variable.  It is bound for the first of them, captured early or late
as the oracle says, and the later cases add nothing.

* `firstDeclared seen es`, `Contract.distinctOldVars c`: the old variables without repetitions, each
  with the first case that declares it;
* `findBindings_eq`: these are what is bound;
* `Plan.Contents c oracle vars plan`: every capture and every old expression stands in the plan once,
  in its place;
* `extract_contents`: the contents of every plan.
-/

namespace ContractChecks

namespace Plan

/-! ### distinct variables -/

/-- the entries whose variable neither is among `seen` nor stands in an entry before them -/
def firstDeclared (seen : List OldVar) : List (Int × OldVar) → List (Int × OldVar)
  | [] => []
  | e :: es =>
    if seen.contains e.2 then firstDeclared seen es
    else e :: firstDeclared (seen ++ [e.2]) es

theorem firstDeclared_sublist (seen : List OldVar) (es : List (Int × OldVar)) :
    (firstDeclared seen es).Sublist es := by
  induction es generalizing seen with
  | nil => exact .slnil
  | cons e es ih =>
    rw [firstDeclared]
    split
    · exact (ih seen).cons e
    · exact (ih _).cons_cons e

theorem mem_firstDeclared (seen : List OldVar) (es : List (Int × OldVar)) {e : Int × OldVar}
    (he : e ∈ es) : e.2 ∈ seen ∨ e.2 ∈ (firstDeclared seen es).map Prod.snd := by
  induction es generalizing seen with
  | nil => cases he
  | cons d es ih =>
    rw [firstDeclared]
    split
    case isTrue hseen =>
      rcases List.mem_cons.1 he with rfl | he
      · exact .inl (List.contains_iff_mem.1 hseen)
      · exact ih seen he
    case isFalse =>
      rw [List.map_cons, List.mem_cons]
      rcases List.mem_cons.1 he with rfl | he
      · exact .inr (.inl rfl)
      · rcases ih (seen ++ [d.2]) he with hseen | hlater
        · rw [List.mem_append, List.mem_singleton] at hseen
          exact hseen.imp_right .inl
        · exact .inr (.inr hlater)

def bindingOf (c : Contract) (oracle : Oracle) (e : Int × OldVar) : Binding :=
  ⟨e.1, e.2.name, e.2, oracle.inPrecondition c e.2.name, oracle.inPreExpr c e.2.name⟩

/-- one more variable is bound unless it is bound already -/
theorem addBinding_eq_bindingOf {c : Contract} {oracle : Oracle} {bs bs' : List Binding}
    {e : Int × OldVar} (hbs : ∀ b ∈ bs, b.name = b.var.name)
    (h : addBinding c oracle bs e = .ok bs') :
    bs' = if (bs.map Binding.var).contains e.2 then bs else bs ++ [bindingOf c oracle e] := by
  simp only [addBinding] at h
  split at h
  · cases h
  split at h
  · rename_i b hfind
    split at h
    · rename_i hvar
      cases h
      have hmem : e.2 ∈ bs.map Binding.var :=
        hvar ▸ List.mem_map_of_mem (List.mem_of_find?_eq_some hfind)
      rw [if_pos (List.contains_iff_mem.2 hmem)]
    · cases h
  · rename_i hfind
    cases h
    have hnew : ¬(bs.map Binding.var).contains e.2 = true := by
      intro hmem
      obtain ⟨b, hb, hvar⟩ := List.mem_map.1 (List.contains_iff_mem.1 hmem)
      refine List.find?_eq_none.1 hfind b hb (decide_eq_true ?_)
      rw [hbs b hb, hvar]
    rw [if_neg hnew]
    rfl

theorem foldlM_addBinding_eq {c : Contract} {oracle : Oracle} {es : List (Int × OldVar)}
    (bs : List Binding) {bs' : List Binding} (hbs : ∀ b ∈ bs, b.name = b.var.name)
    (h : es.foldlM (addBinding c oracle) bs = .ok bs') :
    bs' = bs ++ (firstDeclared (bs.map Binding.var) es).map (bindingOf c oracle) := by
  induction es generalizing bs with
  | nil =>
    cases h
    exact (List.append_nil _).symm
  | cons e es ih =>
    obtain ⟨bs₁, h₁, h⟩ := except_bind_eq_ok h
    rw [addBinding_eq_bindingOf hbs h₁] at h
    rw [firstDeclared]
    split at h
    case isTrue hseen =>
      rw [if_pos hseen]
      exact ih bs hbs h
    case isFalse hnew =>
      have hgrown : ∀ b ∈ bs ++ [bindingOf c oracle e], b.name = b.var.name := by
        intro b hb
        rcases List.mem_append.1 hb with hb | hb
        · exact hbs b hb
        · rw [List.mem_singleton.1 hb]
          rfl
      rw [if_neg hnew, ih _ hgrown h, List.map_append, List.append_assoc]
      rfl

end Plan

/-- the old variables without repetitions, each with the first case that declares it -/
def Contract.distinctOldVars (c : Contract) : List (Int × OldVar) :=
  Plan.firstDeclared [] (Plan.oldVarsInOrder c)

theorem Plan.findBindings_eq {c : Contract} {oracle : Oracle} {bs : List Binding}
    (h : Plan.findBindings c oracle = .ok bs) :
    bs = c.distinctOldVars.map (Plan.bindingOf c oracle) :=
  foldlM_addBinding_eq [] (by simp) h

theorem Plan.bindings_extract {c : Contract} {oracle : Oracle} {plan : Plan}
    (h : Plan.extract c oracle = .ok plan) :
    plan = Plan.ofBindings c (c.distinctOldVars.map (Plan.bindingOf c oracle)) := by
  obtain ⟨_, _, h⟩ := except_bind_eq_ok h
  obtain ⟨_, _, h⟩ := except_bind_eq_ok h
  obtain ⟨bs, hbs, h⟩ := except_bind_eq_ok h
  cases h
  rw [Plan.findBindings_eq hbs]

/-! ### captures -/

theorem captures_snd_append (us vs : List (Int × OldVar)) :
    Plan.captures Prod.snd (us ++ vs) = Plan.captures Prod.snd us ++ Plan.captures Prod.snd vs := by
  rw [Plan.captures, List.map_append, List.filter_append]
  rfl

theorem captures_snd_flatMap {α : Type} (l : List α) (f : α → List (Int × OldVar)) :
    Plan.captures Prod.snd (l.flatMap f) = l.flatMap fun a => Plan.captures Prod.snd (f a) := by
  induction l with
  | nil => rfl
  | cons a l ih => rw [List.flatMap_cons, captures_snd_append, ih, List.flatMap_cons]

theorem captures_snd_perm {us vs : List (Int × OldVar)} (h : us.Perm vs) :
    (Plan.captures Prod.snd us).Perm (Plan.captures Prod.snd vs) :=
  (h.map _).filter _

theorem captures_map_bindingOf (c : Contract) (oracle : Oracle) (vars : List (Int × OldVar)) :
    Plan.captures Binding.var (vars.map (Plan.bindingOf c oracle)) = Plan.captures Prod.snd vars := by
  rw [Plan.captures, List.map_map]
  rfl

/-- the variables of a plan whose bindings satisfy a condition -/
theorem captures_filter_bindingOf {c : Contract} {oracle : Oracle} {vars : List (Int × OldVar)}
    {p : Binding → Bool} {r : Int × OldVar → Bool}
    (h : ∀ e, p (Plan.bindingOf c oracle e) = r e) :
    Plan.captures Binding.var ((vars.map (Plan.bindingOf c oracle)).filter p)
      = Plan.captures Prod.snd (vars.filter r) := by
  rw [List.filter_map, captures_map_bindingOf]
  congr 2
  funext e
  exact h e

/-- captures grouped by the cases of their variables are the captures in another order -/
theorem flatMap_captures_perm {is : List Int} (hnodup : is.Nodup) (vars : List (Int × OldVar))
    (hvars : ∀ e ∈ vars, e.1 ∈ is) :
    (is.flatMap fun i => Plan.captures Prod.snd (vars.filter fun e => e.1 = i)).Perm
      (Plan.captures Prod.snd vars) := by
  rw [← captures_snd_flatMap]
  exact captures_snd_perm (flatMap_filter_perm hnodup vars hvars)

/-! ### contents -/

structure Plan.Contents (c : Contract) (oracle : Oracle) (vars : List (Int × OldVar)) (plan : Plan) :
    Prop where
  order : vars.Sublist (Plan.oldVarsInOrder c)
  names : (vars.map fun e => e.2.name).Nodup
  declared : ∀ v, (∃ i, v ∈ c.oldVars.list i) ↔ v ∈ vars.map Prod.snd
  /-- every capture and every old expression stands in the plan as often as in the contract -/
  perm : (plan.early ++ plan.late).Perm
    (Plan.captures Prod.snd vars ++ c.oldExprs.entries.flatMap Prod.snd)
  early : plan.early = Plan.captures Prod.snd (vars.filter fun e => oracle.readEarly c e.2)
  late : plan.late = c.pre.indices.flatMap fun i =>
    Plan.captures Prod.snd (vars.filter fun e => e.1 = i && !oracle.readEarly c e.2)
      ++ c.oldExprs.list i
  /-- the place of a single capture -/
  placed : ∀ e ∈ vars, e.2.capture ≠ [] →
    e.2.capture ∈ if oracle.readEarly c e.2 then plan.early else plan.late
  /-- a statement stands among the early ones once for each variable read early that has it as its
  capture, and among the late ones once for each other variable and once for each old expression -/
  counted : ∀ s, s ≠ [] →
    plan.early.count s = vars.countP (fun e => e.2.capture = s && oracle.readEarly c e.2) ∧
      plan.late.count s = vars.countP (fun e => e.2.capture = s && !oracle.readEarly c e.2)
        + (c.oldExprs.entries.flatMap Prod.snd).count s
  preExprs : plan.preExprs = c.preExprs
  decls : plan.decls = (vars.map fun e => e.2.decl) ++ c.preExprDecls.map Plan.preExprDecl
    ++ c.pre.indices.flatMap c.oldExprDecls.list
  check : plan.checkPrecondition = true ↔
    (∃ e ∈ vars, oracle.readEarly c e.2 = true) ∨ c.preExprs ≠ []

theorem mem_captures_snd {vars : List (Int × OldVar)} {e : Int × OldVar} (he : e ∈ vars)
    (hne : e.2.capture ≠ []) : e.2.capture ∈ Plan.captures Prod.snd vars :=
  List.mem_filter.2 ⟨List.mem_map.2 ⟨e, he, rfl⟩, bne_iff_ne.2 hne⟩

theorem count_captures_snd (vars : List (Int × OldVar)) (r : Int × OldVar → Bool) {s : Text}
    (hs : s ≠ []) :
    (Plan.captures Prod.snd (vars.filter r)).count s = vars.countP fun e => e.2.capture = s && r e := by
  have hkept : (Plan.captures Prod.snd (vars.filter r)).count s
      = ((vars.filter r).map fun e => e.2.capture).count s :=
    List.count_filter (p := fun t : Text => t != []) (bne_iff_ne.2 hs)
  rw [hkept, List.count, List.countP_map, List.countP_filter]
  congr 1
  funext e
  rw [Function.comp_apply, beq_eq_decide]

theorem distinctOldVars_index {c : Contract} {e : Int × OldVar} (he : e ∈ c.distinctOldVars) :
    e.1 ∈ c.pre.indices :=
  (Plan.mem_oldVarsInOrder.1 ((Plan.firstDeclared_sublist _ _).subset he)).1

theorem late_perm {c : Contract} (hclosed : c.Closed) (oracle : Oracle) :
    (c.pre.indices.flatMap fun i =>
        Plan.captures Prod.snd (c.distinctOldVars.filter fun e => e.1 = i && !oracle.readEarly c e.2)
          ++ c.oldExprs.list i).Perm
      (Plan.captures Prod.snd (c.distinctOldVars.filter fun e => !oracle.readEarly c e.2)
        ++ c.oldExprs.entries.flatMap Prod.snd) := by
  have hgroups : ∀ i, (c.distinctOldVars.filter fun e => e.1 = i && !oracle.readEarly c e.2)
      = (c.distinctOldVars.filter fun e => !oracle.readEarly c e.2).filter fun e => e.1 = i := by
    intro i
    rw [List.filter_filter]
  have hexprs : (c.oldExprs.entries.flatMap Prod.snd).Perm (c.pre.indices.flatMap c.oldExprs.list) := by
    have hperm := c.oldExprs.flatMap_perm c.pre.nodup_indices hclosed.oldExprs id
    simp only [Option.map_id, id_eq] at hperm
    exact hperm
  have hcaptures := flatMap_captures_perm c.pre.nodup_indices
    (c.distinctOldVars.filter fun e => !oracle.readEarly c e.2)
    fun e he => distinctOldVars_index (List.mem_filter.1 he).1
  simp only [hgroups]
  exact (List.flatMap_append_perm _ _ _).symm.trans (hcaptures.append hexprs.symm)

theorem mem_distinctOldVars {c : Contract} (hclosed : c.Closed) (v : OldVar) :
    (∃ i, v ∈ c.oldVars.list i) ↔ v ∈ c.distinctOldVars.map Prod.snd := by
  constructor
  · rintro ⟨i, hv⟩
    have hmem := Plan.mem_firstDeclared [] _ (hclosed.mem_oldVarsInOrder hv)
    exact hmem.resolve_left List.not_mem_nil
  · intro hv
    obtain ⟨e, he, rfl⟩ := List.mem_map.1 hv
    exact ⟨e.1, (Plan.mem_oldVarsInOrder.1 ((Plan.firstDeclared_sublist _ _).subset he)).2⟩

/-- A plan binds every old variable once, for the first case that declares it.  Together, early and
late statements are the captures of these variables and the old expressions, none left out and none
twice. -/
theorem extract_contents {c : Contract} {oracle : Oracle} {plan : Plan}
    (h : Plan.extract c oracle = .ok plan) : plan.Contents c oracle c.distinctOldVars := by
  have hclosed := (Plan.exists_extract_iff.1 ⟨plan, h⟩).closed
  have hnames := (Plan.binds_extract h).nodup
  have hplan := Plan.bindings_extract h
  have hearly : plan.early
      = Plan.captures Prod.snd (c.distinctOldVars.filter fun e => oracle.readEarly c e.2) := by
    rw [hplan]
    exact captures_filter_bindingOf fun _ => rfl
  have hlate : plan.late = c.pre.indices.flatMap fun i =>
      Plan.captures Prod.snd (c.distinctOldVars.filter fun e => e.1 = i && !oracle.readEarly c e.2)
        ++ c.oldExprs.list i := by
    rw [hplan]
    refine List.flatMap_congr fun i _ => congrArg (· ++ c.oldExprs.list i) ?_
    exact captures_filter_bindingOf fun _ => rfl
  have hlatePerm := late_perm hclosed oracle
  refine ⟨Plan.firstDeclared_sublist _ _, ?_, mem_distinctOldVars hclosed, ?_, hearly, hlate, ?_, ?_,
    ?_, ?_, ?_⟩
  · rw [hplan] at hnames
    change ((c.distinctOldVars.map _).map Binding.name).Nodup at hnames
    rw [List.map_map] at hnames
    exact hnames
  · -- the early variables, then the others, are all of them
    have hsplit := captures_snd_perm
      (List.filter_append_perm (fun e => oracle.readEarly c e.2) c.distinctOldVars)
    rw [captures_snd_append] at hsplit
    rw [hearly, hlate]
    refine (hlatePerm.append_left _).trans ?_
    rw [← List.append_assoc]
    exact hsplit.append_right _
  · intro e he hne
    split
    case isTrue hread =>
      rw [hearly]
      exact mem_captures_snd (List.mem_filter.2 ⟨he, hread⟩) hne
    case isFalse hread =>
      rw [hlate]
      refine List.mem_flatMap.2 ⟨e.1, distinctOldVars_index he, List.mem_append_left _ ?_⟩
      exact mem_captures_snd (List.mem_filter.2 ⟨he, by simpa using hread⟩) hne
  · intro s hs
    rw [hearly, hlate, hlatePerm.count_eq, List.count_append, count_captures_snd _ _ hs,
      count_captures_snd _ _ hs]
    exact ⟨rfl, rfl⟩
  · rw [hplan]
    rfl
  · rw [hplan]
    show (_ ++ _) ++ _ = _
    rw [List.map_map]
    rfl
  · rw [hplan]
    simp [Plan.ofBindings, Binding.early, Plan.bindingOf, Oracle.readEarly]

/-- a variable that the precondition reads, one that two cases declare, and one without a capture -/
def siphonContract : Contract where
  method := { name := "Siphon", owner := "Tank", receiver := "t", visibility := .of .pub }
  pre := .set (.set .empty 4 "racOldLevel > 0") 2 "n == 0"
  oldVars := .set (.set .empty 2 [⟨"racOldTop int/racOldTop = t.top"⟩, ⟨"racOldFlag bool"⟩]) 4
    [⟨"racOldTop int/racOldTop = t.top"⟩, ⟨"racOldLevel int/racOldLevel = t.level"⟩]
  oldExprDecls := .set .empty 2 ["var racOld0 int"]
  oldExprs := .set (.set .empty 2 ["racOld0 = t.size"]) 4 ["t.log()"]

theorem extract_contents_siphon : ∃ plan, Plan.extract siphonContract (.scanning []) = .ok plan ∧
    plan.early = ["racOldLevel = t.level"] ∧
    plan.late = ["racOldTop = t.top", "t.log()", "racOld0 = t.size"] ∧
    plan.Contents siphonContract (.scanning []) siphonContract.distinctOldVars := by
  obtain ⟨plan, hplan, hparts⟩ := exists_eq_ok (x := Plan.extract siphonContract (.scanning []))
    (p := fun plan => decide (plan.early = ["racOldLevel = t.level"]) &&
      decide (plan.late = ["racOldTop = t.top", "t.log()", "racOld0 = t.size"])) (by
      -- the kernel is slow in reading the characters of a literal, so they are put in its place
      unfold siphonContract
      repeat rw [String.toList_ofList]
      decide +kernel)
  obtain ⟨hearly, hlate⟩ := Bool.and_eq_true_iff.1 hparts
  exact ⟨plan, hplan, of_decide_eq_true hearly, of_decide_eq_true hlate, extract_contents hplan⟩

end ContractChecks
