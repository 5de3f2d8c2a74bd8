import ContractChecks.Proofs.ForeignReads
import ContractChecks.Proofs.PlanContents

/-!
# Plans of guarded contracts

A guard is put into the text of an old variable, which is then read again: cut at its first slash,
with `var` before the declaration.  What comes back is the variable it was, except for its capture.
So the plan of a guarded contract is that of the contract without guards, up to the guards on the late
captures.  But a variable that several cases declare gets the guard of each of them, and its texts
agree no longer if these differ.

* `OldVar.Recaptured v s w`: `w` is `v` with the capture `s`; `recaptured_guardVar`;
* `Plan.firstDeclared_map`: the distinct variables of a guarded contract;
* `Plan.GuardedFrom`, `extract_guardCaptures`: the two plans side by side;
* `extract_guardCaptures_iff`: when the guarded contract still has a plan.
-/

namespace ContractChecks

/-! ### an old variable read again -/

namespace OldVar

/-- the same variable with the same declaration, but another capture -/
structure Recaptured (v : OldVar) (s : Text) (w : OldVar) : Prop where
  name : w.name = v.name
  decl : w.decl = v.decl
  capture : w.capture = s

theorem startsWith_decl (v : OldVar) : Text.startsWith v.decl "var " = true := by
  unfold decl
  split
  case isTrue hvar => exact hvar
  case isFalse => exact List.isPrefixOf_iff_prefix.2 (List.prefix_append _ _)

/-- a declaration statement with a capture behind it reads as the variable it declares -/
theorem recaptured_append {v : OldVar} (hv : v.name ≠ []) (s : Text) :
    v.Recaptured s.trim ⟨v.decl ++ "/" ++ s⟩ := by
  have hsplit := split_decl (split_ne_nil hv) s
  refine ⟨name_decl (split_ne_nil hv) s, ?_, congrArg Prod.snd hsplit⟩
  generalize (⟨v.decl ++ "/" ++ s⟩ : OldVar) = w at hsplit ⊢
  show (if Text.startsWith w.split.1 "var " then w.split.1 else ("var " : Text) ++ w.split.1) = _
  rw [hsplit, startsWith_decl]
  rfl

end OldVar

/-- a guard changes nothing about a variable but its capture, and that only if it is a late one -/
theorem Contract.recaptured_guardVar (c : Contract) (i : Int) {v : OldVar} (hv : v.name ≠ []) :
    v.Recaptured (if c.readsEarly v || v.capture = [] then v.capture
      else c.withGuard guardedBy i v.capture) (c.guardVar i v) := by
  unfold guardVar withGuard
  cases c.guardOf? i with
  | none => exact ⟨rfl, rfl, (ite_self _).symm⟩
  | some pre =>
    show v.Recaptured _ (c.guardOldVar pre v)
    unfold guardOldVar
    split
    · exact ⟨rfl, rfl, rfl⟩
    · have hagain := OldVar.recaptured_append hv (guardedBy pre v.capture)
      rw [trim_guardedBy] at hagain
      exact hagain

/-! ### the variables that are bound -/

namespace Plan

/-- entries that are changed without bringing together or taking apart any two variables are first
declared where they were -/
theorem firstDeclared_map {g : Int × OldVar → Int × OldVar} (seen es : List (Int × OldVar))
    (h : ∀ d ∈ seen ++ es, ∀ e ∈ seen ++ es, (g d).2 = (g e).2 ↔ d.2 = e.2) :
    firstDeclared ((seen.map g).map Prod.snd) (es.map g)
      = (firstDeclared (seen.map Prod.snd) es).map g := by
  induction es generalizing seen with
  | nil => rfl
  | cons e es ih =>
    have hseen : ((seen.map g).map Prod.snd).contains (g e).2 = (seen.map Prod.snd).contains e.2 := by
      rw [Bool.eq_iff_iff, List.contains_iff_mem, List.contains_iff_mem, List.map_map, List.mem_map,
        List.mem_map]
      refine exists_congr fun d => and_congr_right fun hd => ?_
      exact h d (List.mem_append_left _ hd) e (by simp)
    rw [List.map_cons, firstDeclared, firstDeclared, hseen]
    split
    · have hmore : ∀ {a}, a ∈ seen ++ es → a ∈ seen ++ e :: es := by
        intro a ha
        rw [List.mem_append] at ha ⊢
        exact ha.imp_right (List.mem_cons_of_mem e)
      exact ih seen fun a ha b hb => h a (hmore ha) b (hmore hb)
    · have hnext := ih (seen ++ [e]) (by rwa [← List.append_cons])
      rw [List.map_append, List.map_append, List.map_append] at hnext
      rw [List.map_cons]
      exact congrArg (g e :: ·) hnext

def guardBinding (c : Contract) (b : Binding) : Binding := { b with var := c.guardVar b.index b.var }

theorem oldVarsInOrder_guardCaptures (c : Contract) :
    oldVarsInOrder c.guardCaptures
      = (oldVarsInOrder c).map fun e => (e.1, c.guardVar e.1 e.2) := by
  unfold oldVarsInOrder
  rw [c.pre_guardCaptures, List.map_flatMap]
  refine List.flatMap_congr fun i _ => ?_
  rw [c.oldVars_guardCaptures, List.map_map, List.map_map]
  rfl

theorem distinctOldVars_guardCaptures {c : Contract} (hc : c.Plannable)
    (hg : c.guardCaptures.Plannable) :
    c.guardCaptures.distinctOldVars = c.distinctOldVars.map fun e => (e.1, c.guardVar e.1 e.2) := by
  have hkept : ∀ {e}, e ∈ oldVarsInOrder c → (c.guardVar e.1 e.2).name = e.2.name := fun he =>
    (c.recaptured_guardVar _ (hc.named _ _ (mem_oldVarsInOrder.1 he).2)).name
  have hmem : ∀ {e}, e ∈ oldVarsInOrder c →
      c.guardVar e.1 e.2 ∈ c.guardCaptures.oldVars.list e.1 := by
    intro e he
    rw [c.oldVars_guardCaptures]
    exact List.mem_map_of_mem (mem_oldVarsInOrder.1 he).2
  unfold Contract.distinctOldVars
  rw [oldVarsInOrder_guardCaptures]
  refine firstDeclared_map [] (oldVarsInOrder c) fun d hd e he => ?_
  -- in both contracts a name has one variable, and guards keep the names
  constructor
  · intro heq
    have hname : d.2.name = e.2.name := by
      rw [← hkept hd, ← hkept he]
      exact congrArg OldVar.name heq
    exact congrArg OldVar.mk (hc.agree d.1 e.1 d.2 (mem_oldVarsInOrder.1 hd).2 e.2
      (mem_oldVarsInOrder.1 he).2 hname)
  · intro heq
    have hname : (c.guardVar d.1 d.2).name = (c.guardVar e.1 e.2).name := by
      rw [hkept hd, hkept he, heq]
    exact congrArg OldVar.mk (hg.agree d.1 e.1 _ (hmem hd) _ (hmem he) hname)

theorem bindings_guardCaptures {c : Contract} {names : List Text} {plain guarded : Plan}
    (hplain : extract c (.scanning names) = .ok plain)
    (hguarded : extract c.guardCaptures (.scanning names) = .ok guarded) :
    guarded.bindings = plain.bindings.map (guardBinding c) := by
  have hc := exists_extract_iff.1 ⟨plain, hplain⟩
  have hg := exists_extract_iff.1 ⟨guarded, hguarded⟩
  rw [bindings_extract hplain, bindings_extract hguarded]
  show c.guardCaptures.distinctOldVars.map _ = (c.distinctOldVars.map _).map _
  rw [distinctOldVars_guardCaptures hc hg, List.map_map, List.map_map]
  refine List.map_congr_left fun e he => ?_
  have hmem := (mem_oldVarsInOrder.1 ((firstDeclared_sublist _ _).subset he)).2
  have hname := (c.recaptured_guardVar e.1 (hc.named e.1 e.2 hmem)).name
  show bindingOf c.guardCaptures (.scanning names) (e.1, c.guardVar e.1 e.2) = guardBinding c _
  unfold bindingOf
  rw [hname]
  unfold guardBinding Oracle.scanning
  rw [Contract.guardCaptures_eq]

/-! ### the two plans -/

def lateByCase (c : Contract) (plan : Plan) : List (Int × Text) :=
  c.pre.indices.flatMap fun i => (lateOf c plan.bindings i).map (Prod.mk i)

/-- a late capture with its case, and what becomes of it: in a single case or one whose precondition
cannot fail it stays, otherwise it runs only if the precondition holds -/
def GuardedAs (c : Contract) (e : Int × Text) (s : Text) : Prop :=
  ((c.pre.size < 2 ∨ c.caseGuard? e.1 = none) ∧ s = e.2) ∨
    2 ≤ c.pre.size ∧ ∃ pre, c.pre.get? e.1 = some pre ∧ assertable pre = true ∧
      s = guardedBy pre e.2

/-- the plan of the contract with guards, beside that of the contract without them -/
structure GuardedFrom (c : Contract) (plain guarded : Plan) : Prop where
  bindings : List.Forall₂ (fun b b' : Binding => b'.index = b.index ∧ b'.name = b.name ∧
    b'.inPrecondition = b.inPrecondition ∧ b'.inPreExpr = b.inPreExpr ∧
    b'.var.decl = b.var.decl) plain.bindings guarded.bindings
  decls : guarded.decls = plain.decls
  early : guarded.early = plain.early
  preExprs : guarded.preExprs = plain.preExprs
  checkPrecondition : guarded.checkPrecondition = plain.checkPrecondition
  late : plain.late = (lateByCase c plain).map Prod.snd ∧
    List.Forall₂ (GuardedAs c) (lateByCase c plain) guarded.late

theorem guardedAs_withGuard (c : Contract) (e : Int × Text) :
    GuardedAs c e (c.withGuard guardedBy e.1 e.2) := by
  unfold Contract.withGuard Contract.guardOf?
  by_cases hsize : c.pre.size < 2
  · rw [if_pos hsize]
    exact .inl ⟨.inl hsize, rfl⟩
  · rw [if_neg hsize]
    cases hguard : c.caseGuard? e.1 with
    | none => exact .inl ⟨.inr hguard, rfl⟩
    | some pre =>
      obtain ⟨hpre, hassert⟩ := Option.filter_eq_some_iff.1 hguard
      exact .inr ⟨Nat.le_of_not_lt hsize, pre, hpre, hassert, rfl⟩

theorem withGuard_ne_nil (c : Contract) (i : Int) {s : Text} (hs : s ≠ []) :
    c.withGuard guardedBy i s ≠ [] := by
  unfold Contract.withGuard
  cases c.guardOf? i with
  | none => exact hs
  | some pre => exact guardedBy_ne_nil pre s

/-- captures that are changed one by one -/
theorem captures_map {g : Binding → Binding} {h : Text → Text} (hh : ∀ s, s ≠ [] → h s ≠ [])
    (bs : List Binding) (hg : ∀ b ∈ bs,
      (g b).var.capture = if b.var.capture = [] then [] else h b.var.capture) :
    captures Binding.var (bs.map g) = (captures Binding.var bs).map h := by
  induction bs with
  | nil => rfl
  | cons b bs ih =>
    rw [List.forall_mem_cons] at hg
    have hrest := ih hg.2
    unfold captures at hrest ⊢
    rw [List.map_cons, List.map_cons, List.map_cons, hg.1, List.filter_cons, List.filter_cons, hrest]
    by_cases hnil : b.var.capture = []
    · rw [if_pos hnil, hnil]
      rfl
    · rw [if_neg hnil, if_pos (bne_iff_ne.2 hnil), if_pos (bne_iff_ne.2 (hh _ hnil)), List.map_cons]

section
variable {c : Contract} {bs : List Binding}

theorem captures_early_guardBinding (hbs : ∀ b ∈ bs, b.var.name ≠ [] ∧ b.early = c.readsEarly b.var) :
    captures Binding.var ((bs.map (guardBinding c)).filter Binding.early)
      = captures Binding.var (bs.filter Binding.early) := by
  have hkept : ∀ b ∈ bs.filter Binding.early, (guardBinding c b).var.capture
      = if b.var.capture = [] then [] else id b.var.capture := by
    intro b hb
    obtain ⟨hb, hearly⟩ := List.mem_filter.1 hb
    obtain ⟨hname, hreads⟩ := hbs b hb
    have hcapture := (c.recaptured_guardVar b.index hname).capture
    rw [← hreads, hearly, Bool.true_or] at hcapture
    refine hcapture.trans ?_
    split <;> simp_all
  rw [List.filter_map]
  show captures Binding.var ((bs.filter Binding.early).map (guardBinding c)) = _
  rw [captures_map (fun s hs => hs) _ hkept, List.map_id']

theorem lateOf_guardBinding (hbs : ∀ b ∈ bs, b.var.name ≠ [] ∧ b.early = c.readsEarly b.var)
    (i : Int) :
    lateOf c.guardCaptures (bs.map (guardBinding c)) i
      = (lateOf c bs i).map (c.withGuard guardedBy i) := by
  have hguarded : ∀ b ∈ bs.filter (fun b => b.index = i && !b.early),
      (guardBinding c b).var.capture
        = if b.var.capture = [] then [] else c.withGuard guardedBy i b.var.capture := by
    intro b hb
    obtain ⟨hb, hlate⟩ := List.mem_filter.1 hb
    obtain ⟨hindex, hearly⟩ : b.index = i ∧ b.early = false := by simpa using hlate
    obtain ⟨hname, hreads⟩ := hbs b hb
    have hcapture := (c.recaptured_guardVar b.index hname).capture
    rw [← hreads, hearly, Bool.false_or, hindex] at hcapture
    show (c.guardVar b.index b.var).capture = _
    rw [hindex, hcapture]
    by_cases hnil : b.var.capture = [] <;> simp [hnil]
  unfold lateOf
  rw [List.map_append, c.oldExprs_guardCaptures, List.filter_map]
  show captures Binding.var ((bs.filter fun b => b.index = i && !b.early).map (guardBinding c)) ++ _ = _
  rw [captures_map (fun s hs => withGuard_ne_nil c i hs) _ hguarded]

end

theorem late_eq_lateByCase {c : Contract} {oracle : Oracle} {plan : Plan}
    (h : extract c oracle = .ok plan) : plan.late = (lateByCase c plan).map Prod.snd := by
  unfold lateByCase
  rw [List.map_flatMap, (extract_eq_ok h).1]
  refine List.flatMap_congr fun i _ => ?_
  rw [List.map_map]
  exact (List.map_id _).symm

end Plan

/-- **The plan of a guarded contract.**  It binds the same variables for the same cases, declares and
captures early what the plan without guards does, and checks the precondition if that does.  Its late
captures are those of the plan without guards, each under the precondition of its case unless there is
a single case or the precondition cannot fail. -/
theorem extract_guardCaptures {c : Contract} {names : List Text} {plain guarded : Plan}
    (hplain : Plan.extract c (.scanning names) = .ok plain)
    (hguarded : Plan.extract c.guardCaptures (.scanning names) = .ok guarded) :
    Plan.GuardedFrom c plain guarded := by
  have hc := Plan.exists_extract_iff.1 ⟨plain, hplain⟩
  have hbindings := Plan.bindings_guardCaptures hplain hguarded
  obtain ⟨hplainEq, -, -⟩ := Plan.extract_eq_ok hplain
  obtain ⟨hguardedEq, -, -⟩ := Plan.extract_eq_ok hguarded
  have hbs : ∀ b ∈ plain.bindings, b.var.name ≠ [] ∧ b.early = c.readsEarly b.var := by
    intro b hb
    rw [Plan.bindings_extract hplain] at hb
    obtain ⟨e, he, rfl⟩ := List.mem_map.1 hb
    have hmem := (Plan.mem_oldVarsInOrder.1 ((Plan.firstDeclared_sublist _ _).subset he)).2
    exact ⟨hc.named e.1 e.2 hmem, rfl⟩
  have hrecaptured : ∀ b ∈ plain.bindings, (Plan.guardBinding c b).var.decl = b.var.decl :=
    fun b hb => (c.recaptured_guardVar b.index (hbs b hb).1).decl
  rw [hbindings] at hguardedEq
  refine ⟨?_, ?_, ?_, ?_, ?_, Plan.late_eq_lateByCase hplain, ?_⟩
  · rw [hbindings, List.forall₂_map_right_iff, List.forall₂_same]
    exact fun b hb => ⟨rfl, rfl, rfl, rfl, hrecaptured b hb⟩
  · rw [hplainEq, hguardedEq]
    show List.map _ _ ++ _ ++ _ = List.map _ _ ++ _ ++ _
    rw [List.map_map, List.map_congr_left (g := fun b => b.var.decl) hrecaptured,
      c.guardCaptures_eq]
  · rw [hplainEq, hguardedEq]
    exact Plan.captures_early_guardBinding hbs
  · rw [hplainEq, hguardedEq, c.guardCaptures_eq]
    rfl
  · rw [hplainEq, hguardedEq, c.guardCaptures_eq]
    show (List.any _ _ || _) = (List.any _ _ || _)
    rw [List.any_map]
    rfl
  · have hlate : guarded.late
        = (Plan.lateByCase c plain).map fun e => c.withGuard guardedBy e.1 e.2 := by
      rw [hguardedEq]
      show c.guardCaptures.pre.indices.flatMap _ = _
      unfold Plan.lateByCase
      rw [c.pre_guardCaptures, List.map_flatMap]
      refine List.flatMap_congr fun i _ => ?_
      rw [Plan.lateOf_guardBinding hbs, List.map_map]
      rfl
    rw [hlate, List.forall₂_map_right_iff, List.forall₂_same]
    exact fun e _ => Plan.guardedAs_withGuard c e

/-- a late variable, one that a precondition reads, and old expressions of two cases, of which the last
can always be applied -/
def ladleContract : Contract where
  method := { name := "Ladle", owner := "Tank", receiver := "t", visibility := .of .pub }
  pre := .set (.set (.set .empty 3 "n > 0") 1 "limit > 2") 5 "true"
  oldVars := .set (.set .empty 3 [⟨"racOldTop int/racOldTop = t.top / 2"⟩,
    ⟨" var limit int / limit = t.limit"⟩]) 5 [⟨"racOldFlag bool"⟩]
  oldExprDecls := .set .empty 1 ["var racOld0 int"]
  oldExprs := .set (.set .empty 5 ["t.log()"]) 1 ["racOld0 = t.size"]

theorem extract_guardCaptures_ladle : ∃ plain guarded,
    Plan.extract ladleContract (.scanning []) = .ok plain ∧
      Plan.extract ladleContract.guardCaptures (.scanning []) = .ok guarded ∧
      plain.late = ["racOldTop = t.top / 2", "racOld0 = t.size", "t.log()"] ∧
      guarded.late = ["if n > 0 \x7b\nracOldTop = t.top / 2\n\x7d",
        "if limit > 2 \x7b\nracOld0 = t.size\n\x7d", "t.log()"] ∧
      guarded.early = ["limit = t.limit"] ∧ Plan.GuardedFrom ladleContract plain guarded := by
  obtain ⟨plain, hplain, hlate⟩ := exists_eq_ok (x := Plan.extract ladleContract (.scanning []))
    (p := fun plan => decide (plan.late = ["racOldTop = t.top / 2", "racOld0 = t.size", "t.log()"]) &&
      decide (plan.early = ["limit = t.limit"])) (by
      -- the kernel is slow in reading the characters of a literal, so they are put in its place
      unfold ladleContract
      repeat rw [String.toList_ofList]
      decide +kernel)
  obtain ⟨guarded, hguarded, hlate'⟩ := exists_eq_ok
    (x := Plan.extract ladleContract.guardCaptures (.scanning []))
    (p := fun plan => decide (plan.late = ["if n > 0 \x7b\nracOldTop = t.top / 2\n\x7d",
      "if limit > 2 \x7b\nracOld0 = t.size\n\x7d", "t.log()"])) (by
      unfold ladleContract
      repeat rw [String.toList_ofList]
      decide +kernel)
  obtain ⟨hlate, hearly⟩ := Bool.and_eq_true_iff.1 hlate
  have hboth := extract_guardCaptures hplain hguarded
  exact ⟨plain, guarded, hplain, hguarded, of_decide_eq_true hlate, of_decide_eq_true hlate',
    hboth.early.trans (of_decide_eq_true hearly), hboth⟩

/-! ### variables of several cases -/

namespace Contract

section
variable {c : Contract} {i j : Int}

/-- one capture under two guards tells the guards -/
theorem guardOf?_eq_of_withGuard {s : Text}
    (h : c.withGuard guardedBy i s = c.withGuard guardedBy j s) : c.guardOf? i = c.guardOf? j := by
  unfold withGuard at h
  cases hi : c.guardOf? i with
  | none =>
    cases hj : c.guardOf? j with
    | none => rfl
    | some q =>
      rw [hi, hj] at h
      exact absurd h.symm (guardedBy_ne_self q s)
  | some p =>
    cases hj : c.guardOf? j with
    | none =>
      rw [hi, hj] at h
      exact absurd h (guardedBy_ne_self p s)
    | some q =>
      rw [hi, hj] at h
      exact congrArg some (guardedBy_injective h)

/-- in a single case nothing is guarded, and there are no two cases -/
theorem guardOf?_eq_iff (hi : i ∈ c.pre.indices) (hj : j ∈ c.pre.indices) :
    c.guardOf? i = c.guardOf? j ↔ c.caseGuard? i = c.caseGuard? j := by
  unfold guardOf?
  split
  case isFalse => exact Iff.rfl
  case isTrue hsize =>
    have hlength : c.pre.indices.length < 2 := by
      rw [CaseTable.indices, List.length_map]
      exact hsize
    have hsame : i = j := by
      match his : c.pre.indices with
      | [] =>
        rw [his] at hi
        cases hi
      | [k] =>
        rw [his, List.mem_singleton] at hi hj
        rw [hi, hj]
      | k :: l :: is =>
        rw [his, List.length_cons, List.length_cons] at hlength
        omega
    rw [hsame]
    exact iff_of_true rfl rfl

/-- a variable that two cases declare still agrees with itself if it is captured early or not at all,
or under one guard -/
theorem guardVar_eq_iff {v : OldVar} (hv : v.name ≠ []) :
    c.guardVar i v = c.guardVar j v ↔
      (c.readsEarly v = false → v.capture ≠ [] → c.guardOf? i = c.guardOf? j) := by
  constructor
  · intro heq hlate hcapture
    have hi := (c.recaptured_guardVar i hv).capture
    have hj := (c.recaptured_guardVar j hv).capture
    rw [hlate, Bool.false_or, if_neg (by simpa using hcapture)] at hi hj
    rw [heq, hj] at hi
    exact guardOf?_eq_of_withGuard hi.symm
  · intro h
    by_cases hguarded : c.readsEarly v = false ∧ v.capture ≠ []
    · unfold guardVar withGuard
      rw [h hguarded.1 hguarded.2]
    · -- then the variable stays as it is in both cases
      have hunguarded : (c.readsEarly v || decide (v.capture = [])) = true := by
        by_contra hnot
        rw [Bool.not_eq_true, Bool.or_eq_false_iff, decide_eq_false_iff_not] at hnot
        exact hguarded hnot
      have hkept : ∀ k, c.guardVar k v = v := by
        intro k
        unfold guardVar withGuard
        cases c.guardOf? k with
        | none => rfl
        | some pre => exact if_pos hunguarded
      rw [hkept, hkept]

end

theorem dangling_guardCaptures {c : Contract} (hc : c.Plannable) (e : Int × Occurrence) :
    Plan.Dangling c.guardCaptures e ↔ Plan.Dangling c e := by
  have hdecls : c.guardCaptures.oldExprDecls = c.oldExprDecls := by rw [guardCaptures_eq]
  have hnames : (∀ v ∈ c.guardCaptures.oldVars.list e.1, v.name ≠ e.2.text) ↔
      ∀ v ∈ c.oldVars.list e.1, v.name ≠ e.2.text := by
    rw [oldVars_guardCaptures, List.forall_mem_map]
    refine forall₂_congr fun v hv => ?_
    rw [(c.recaptured_guardVar e.1 (hc.named e.1 v hv)).name]
  unfold Plan.Dangling
  rw [hnames, hdecls]

/-- what keeps a guarded contract from having a plan: the variables of several cases -/
theorem plannable_guardCaptures_iff {c : Contract} (hc : c.Plannable) :
    c.guardCaptures.Plannable ↔
      ∀ i j, ∀ v ∈ c.oldVars.list i, v ∈ c.oldVars.list j → c.guardVar i v = c.guardVar j v := by
  have hkept : ∀ {i v}, v ∈ c.oldVars.list i → (c.guardVar i v).name = v.name := fun hv =>
    (c.recaptured_guardVar _ (hc.named _ _ hv)).name
  constructor
  · intro hg i j v hi hj
    have hmem : ∀ {k}, v ∈ c.oldVars.list k → c.guardVar k v ∈ c.guardCaptures.oldVars.list k := by
      intro k hk
      rw [oldVars_guardCaptures]
      exact List.mem_map_of_mem hk
    exact congrArg OldVar.mk
      (hg.agree i j _ (hmem hi) _ (hmem hj) ((hkept hi).trans (hkept hj).symm))
  · intro hsame
    have hpost : Plan.postOccurrences c.guardCaptures = Plan.postOccurrences c := by
      rw [guardCaptures_eq]
      rfl
    refine ⟨hc.closed.guardCaptures, ?_, ?_, ?_⟩
    · rw [hpost]
      exact fun e he hdangling => hc.resolved e he ((dangling_guardCaptures hc e).1 hdangling)
    · intro i v hv
      rw [oldVars_guardCaptures] at hv
      obtain ⟨u, hu, rfl⟩ := List.mem_map.1 hv
      rw [hkept hu]
      exact hc.named i u hu
    · intro i j v hv w hw hname
      rw [oldVars_guardCaptures] at hv hw
      obtain ⟨a, ha, rfl⟩ := List.mem_map.1 hv
      obtain ⟨b, hb, rfl⟩ := List.mem_map.1 hw
      -- equal names have one text in the contract, and so are one variable of both cases
      rw [hkept ha, hkept hb] at hname
      obtain rfl : a = b := congrArg OldVar.mk (hc.agree i j a ha b hb hname)
      rw [hsame i j a ha hb]

end Contract

/-- **When a guarded contract still has a plan.**  A contract that has one keeps it under guards
exactly if every old variable that is captured late by several cases has the same guard in all of them:
the same precondition, or none that can fail. -/
theorem extract_guardCaptures_iff {c : Contract} {names : List Text} {plain : Plan}
    (hplain : Plan.extract c (.scanning names) = .ok plain) :
    (∃ guarded, Plan.extract c.guardCaptures (.scanning names) = .ok guarded) ↔
      ∀ i j, ∀ v ∈ c.oldVars.list i, v ∈ c.oldVars.list j → c.readsEarly v = false →
        v.capture ≠ [] → c.caseGuard? i = c.caseGuard? j := by
  have hc := Plan.exists_extract_iff.1 ⟨plain, hplain⟩
  have hindex : ∀ {k v}, v ∈ c.oldVars.list k → k ∈ c.pre.indices := by
    intro k v hv
    obtain ⟨vs, hvs, -⟩ := CaseTable.mem_list hv
    exact hc.closed.oldVars k (List.mem_map_of_mem hvs)
  rw [Plan.exists_extract_iff, Contract.plannable_guardCaptures_iff hc]
  refine forall₂_congr fun i j => forall₂_congr fun v hi => forall_congr' fun hj => ?_
  rw [Contract.guardVar_eq_iff (hc.named i v hi), Contract.guardOf?_eq_iff (hindex hi) (hindex hj)]

/-- two cases that capture the level under the same name, with the preconditions given -/
def simmerContract (first second : Text) : Contract where
  method := { name := "Simmer", owner := "Tank", receiver := "t", visibility := .of .pub }
  pre := .set (.set .empty 0 first) 1 second
  post := .set (.set .empty 0 "t.level <= racOldLevel") 1 "t.level == racOldLevel"
  oldVars := .set (.set .empty 0 [⟨"racOldLevel int/racOldLevel = t.level"⟩]) 1
    [⟨"racOldLevel int/racOldLevel = t.level"⟩]

theorem extract_guardCaptures_iff_simmer :
    ∃ plain, Plan.extract (simmerContract "n > 0" "n > 0") (.scanning []) = .ok plain ∧
      (∃ guarded, Plan.extract (simmerContract "n > 0" "n > 0").guardCaptures (.scanning [])
        = .ok guarded) ∧
      ∀ i j, ∀ v ∈ (simmerContract "n > 0" "n > 0").oldVars.list i,
        v ∈ (simmerContract "n > 0" "n > 0").oldVars.list j →
        (simmerContract "n > 0" "n > 0").readsEarly v = false → v.capture ≠ [] →
        (simmerContract "n > 0" "n > 0").caseGuard? i
          = (simmerContract "n > 0" "n > 0").caseGuard? j := by
  obtain ⟨plain, hplain, -⟩ := exists_eq_ok
    (x := Plan.extract (simmerContract "n > 0" "n > 0") (.scanning []))
    (p := fun _ => true) (by
      unfold simmerContract
      repeat rw [String.toList_ofList]
      decide +kernel)
  obtain ⟨guarded, hguarded, -⟩ := exists_eq_ok
    (x := Plan.extract (simmerContract "n > 0" "n > 0").guardCaptures (.scanning []))
    (p := fun _ => true) (by
      unfold simmerContract
      repeat rw [String.toList_ofList]
      decide +kernel)
  exact ⟨plain, hplain, ⟨guarded, hguarded⟩,
    (extract_guardCaptures_iff hplain).1 ⟨guarded, hguarded⟩⟩

/-- with preconditions of their own the two cases no longer agree about the variable -/
theorem not_extract_guardCaptures_simmer :
    (∃ plain, Plan.extract (simmerContract "n > 0" "n <= 0") (.scanning []) = .ok plain) ∧
      Plan.extract (simmerContract "n > 0" "n <= 0").guardCaptures (.scanning [])
        = .error (.clause 1 (.oldVarTwice "racOldLevel")) := by
  obtain ⟨plain, hplain, -⟩ := exists_eq_ok
    (x := Plan.extract (simmerContract "n > 0" "n <= 0") (.scanning []))
    (p := fun _ => true) (by
      unfold simmerContract
      repeat rw [String.toList_ofList]
      decide +kernel)
  refine ⟨⟨plain, hplain⟩, ?_⟩
  unfold simmerContract
  repeat rw [String.toList_ofList]
  decide +kernel

end ContractChecks
