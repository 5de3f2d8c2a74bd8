import ContractChecks.Proofs.ClosureNumbers
import ContractChecks.Proofs.InheritedRenaming
import ContractChecks.Proofs.NestedClosures

/-!
# Scopes of closures

A closure declares those of the quantifiers in its filters and in its body, in its innermost loop
and before the tests that call them.

* `textWithCalls stem n s`: the text with calls in place of its outermost quantifiers;
  `ExpandsAt.outer`: an expansion declares one closure for each of them;
* `ClosureFamily`: closures together with those inside of them; `ExpandsAt.family`;
* `Closure.Scoped`: what a closure declares in its innermost loop, and where; `ExpandsAt.scoped`;
* `ExpandCall`, `Expander.calls`: a sequence of expansions with one numbering, some of which may fail;
* `Expander.closures_scoped`: names are never used twice, and every closure is in scope where it is
  called.
-/

namespace ContractChecks

/-! ### outermost quantifiers -/

/-- the text with the call of a closure in place of each outermost quantifier -/
def textWithCalls (stem : Text) (n : Nat) (s : Text) : Text :=
  (outermost n s).flatMap (fun p => p.1.head ++ (stem ++ Text.ofNat p.2 ++ ("()" : Text)))
    ++ afterQuantifiers s

/-- an expansion declares one closure for each outermost quantifier, and calls it in its place -/
theorem ExpandsAt.outer {stem : Text} {n : Nat} {s : Text} (h : ExpandsAt stem n s) :
    (expansionAt stem n s).decls = (outerClosures n s).map (Closure.decl stem) ∧
      (expansionAt stem n s).text = textWithCalls stem n s ∧
      (outerClosures n s).map Closure.number = (outermost n s).map Prod.snd := by
  refine ExpandsAt.induction (motive := fun n s =>
    (expansionAt stem n s).decls = (outerClosures n s).map (Closure.decl stem) ∧
      (expansionAt stem n s).text = textWithCalls stem n s ∧
      (outerClosures n s).map Closure.number = (outermost n s).map Prod.snd) ?_ ?_ h
  · intro n s hspan hx
    rw [hx, textWithCalls, (closures_plain hspan n).1, (outermost_plain hspan n).1,
      (outermost_plain hspan n).2]
    exact ⟨rfl, rfl, rfl⟩
  · rintro n s p q hspan hread - hx ⟨hdecls, htext, hnumbers⟩
    obtain ⟨hcons, hafter⟩ := outermost_span hspan n
    rw [QuantifierSpan.closureCount_eq hread] at hcons
    refine ⟨?_, ?_, ?_⟩
    · rw [hx, outerClosures_span hspan hread, List.map_cons, ← hdecls]
    · rw [hx, htext, textWithCalls, textWithCalls, hcons, hafter, List.flatMap_cons]
      simp only [Closure.name, List.append_assoc]
    · rw [outerClosures_span hspan hread, hcons, List.map_cons, List.map_cons, hnumbers]

def Closure.call (stem : Text) (c : Closure) : Text := c.name stem ++ "()"

theorem call_infix {stem : Text} {n : Nat} {s : Text} (h : ExpandsAt stem n s) {c : Closure}
    (hc : c ∈ outerClosures n s) : c.call stem <:+: textWithCalls stem n s := by
  have hmem : c.number ∈ (outermost n s).map Prod.snd := by
    rw [← h.outer.2.2]
    exact List.mem_map_of_mem hc
  obtain ⟨p, hp, hnumber⟩ := List.mem_map.1 hmem
  have hcall : c.call stem <:+: p.1.head ++ (stem ++ Text.ofNat p.2 ++ ("()" : Text)) := by
    rw [Closure.call, Closure.name, ← hnumber]
    exact (List.suffix_append _ _).isInfix
  have hpiece := List.infix_of_mem_flatten
    (List.mem_map_of_mem (f := fun p => p.1.head ++ (stem ++ Text.ofNat p.2 ++ ("()" : Text))) hp)
  exact (hcall.trans hpiece).trans (List.prefix_append _ _).isInfix

/-! ### closures inside of others -/

namespace Closure

def filterClosures (c : Closure) : List Closure := c.filters.flatMap fun g => outerClosures g.1 g.2

def bodyClosures (c : Closure) : List Closure := outerClosures c.body.1 c.body.2

def inner (c : Closure) : List Closure := c.filterClosures ++ c.bodyClosures

theorem inner_eq (c : Closure) : c.inner = c.parts.flatMap fun g => outerClosures g.1 g.2 := by
  rw [parts, List.flatMap_append, List.flatMap_singleton]
  rfl

end Closure

/-- some closures, together with those inside of them, those inside of these, and no others -/
structure ClosureFamily (outer all : List Closure) : Prop where
  outer_mem : ∀ c ∈ outer, c ∈ all
  inner_mem : ∀ c ∈ all, ∀ d ∈ c.inner, d ∈ all
  origin : ∀ d ∈ all, d ∈ outer ∨ ∃ c ∈ all, d ∈ c.inner

theorem ClosureFamily.append {outer all outer' all' : List Closure} (h : ClosureFamily outer all)
    (h' : ClosureFamily outer' all') : ClosureFamily (outer ++ outer') (all ++ all') where
  outer_mem := by
    intro c hc
    rcases List.mem_append.1 hc with hc | hc
    · exact List.mem_append_left _ (h.outer_mem c hc)
    · exact List.mem_append_right _ (h'.outer_mem c hc)
  inner_mem := by
    intro c hc d hd
    rcases List.mem_append.1 hc with hc | hc
    · exact List.mem_append_left _ (h.inner_mem c hc d hd)
    · exact List.mem_append_right _ (h'.inner_mem c hc d hd)
  origin := by
    intro d hd
    rcases List.mem_append.1 hd with hd | hd
    · rcases h.origin d hd with hd | ⟨c, hc, hd⟩
      · exact .inl (List.mem_append_left _ hd)
      · exact .inr ⟨c, List.mem_append_left _ hc, hd⟩
    · rcases h'.origin d hd with hd | ⟨c, hc, hd⟩
      · exact .inl (List.mem_append_right _ hd)
      · exact .inr ⟨c, List.mem_append_right _ hc, hd⟩

theorem closureFamily_nil : ClosureFamily [] [] := ⟨by simp, by simp, by simp⟩

theorem closureFamily_flatMap {gs : List (Nat × Text)}
    (h : ∀ g ∈ gs, ClosureFamily (outerClosures g.1 g.2) (allClosures g.1 g.2)) :
    ClosureFamily (gs.flatMap fun g => outerClosures g.1 g.2)
      (gs.flatMap fun g => allClosures g.1 g.2) := by
  induction gs with
  | nil => exact closureFamily_nil
  | cons g gs ih =>
    rw [List.forall_mem_cons] at h
    rw [List.flatMap_cons, List.flatMap_cons]
    exact h.1.append (ih h.2)

/-- a closure in front of those inside of it -/
theorem ClosureFamily.cons {c : Closure} {all : List Closure} (h : ClosureFamily c.inner all) :
    ClosureFamily [c] (c :: all) where
  outer_mem := by simp
  inner_mem := by
    intro d hd e he
    rcases List.mem_cons.1 hd with rfl | hd
    · exact List.mem_cons_of_mem _ (h.outer_mem e he)
    · exact List.mem_cons_of_mem _ (h.inner_mem d hd e he)
  origin := by
    intro d hd
    rcases List.mem_cons.1 hd with rfl | hd
    · exact .inl List.mem_cons_self
    · rcases h.origin d hd with hd | ⟨e, he, hd⟩
      · exact .inr ⟨c, List.mem_cons_self, hd⟩
      · exact .inr ⟨e, List.mem_cons_of_mem _ he, hd⟩

theorem ExpandsAt.family {stem : Text} {n : Nat} {s : Text} (h : ExpandsAt stem n s) :
    ClosureFamily (outerClosures n s) (allClosures n s) := by
  refine ExpandsAt.induction (motive := fun n s =>
    ClosureFamily (outerClosures n s) (allClosures n s)) ?_ ?_ h
  · intro n s hspan _
    rw [(closures_plain hspan n).1, (closures_plain hspan n).2]
    exact closureFamily_nil
  · intro n s p q hspan hread hparts _ hrest
    have hinner := closureFamily_flatMap fun g hg => (hparts g hg).2
    rw [← Closure.inner_eq] at hinner
    rw [outerClosures_span hspan hread, allClosures_span hspan hread]
    exact hinner.cons.append hrest

/-! ### what a closure declares -/

namespace Closure

variable (stem : Text) (c : Closure)

/-- the declaration up to the innermost loop -/
def loopStart : Text :=
  c.quantified.opening (c.name stem)
    ++ Quantified.onLines (c.quantified.loops.map fun l => l.header ++ " \x7b")

/-- the test that passes over values which a filter rejects -/
def filterTest : Text :=
  Quantified.skipUnless (c.filters.map fun g => textWithCalls stem g.1 g.2)

def bodyTest : Text := c.quantified.step (textWithCalls stem c.body.1 c.body.2)

def loopEnd : Text :=
  Quantified.onLines (c.quantified.loops.map fun _ => ("\x7d" : Text))
    ++ (c.quantified.closing ++ "\x7d")

/-- the closures inside of a closure are declared in its innermost loop: first those of the filters,
before the test that calls them, then those of the body, before the test that calls these -/
structure Scoped : Prop where
  named : ∃ t, c.decl stem = c.name stem ++ (" := func()" ++ t)
  layout : c.decl stem = c.loopStart stem
    ++ (Quantified.onLines (c.filterClosures.map (decl stem)) ++ c.filterTest stem
      ++ Quantified.onLines (c.bodyClosures.map (decl stem)) ++ c.bodyTest stem)
    ++ c.loopEnd
  loops : Nests 0 (1 + c.quantified.loops.length) (c.loopStart stem)
  inside : (∀ d ∈ c.inner, WellNested (d.decl stem)) ∧ WellNested (c.filterTest stem) ∧
    WellNested (c.bodyTest stem)
  filterCalls : ∀ d ∈ c.filterClosures, d.call stem <:+: c.filterTest stem
  bodyCalls : ∀ d ∈ c.bodyClosures, d.call stem <:+: c.bodyTest stem

/-- the quantifier is well nested, and its parts can be expanded -/
structure Valid : Prop where
  nested : c.quantified.Parts WellNested
  parts : ∀ g ∈ c.parts, ExpandsAt stem g.1 g.2

end Closure

theorem ExpandsAt.valid {stem : Text} {n : Nat} {s : Text} (h : ExpandsAt stem n s) :
    ∀ c ∈ allClosures n s, c.Valid stem := by
  refine ExpandsAt.induction (motive := fun n s => ∀ c ∈ allClosures n s, c.Valid stem) ?_ ?_ h
  · intro n s hspan _
    rw [(closures_plain hspan n).2]
    simp
  · intro n s p q hspan hread hparts _ hrest
    have hown : (Closure.mk n q).Valid stem :=
      ⟨wellNested_partProperty.parse hread (inner_wellNested hspan).2, fun g hg => (hparts g hg).1⟩
    have hinner : ∀ c ∈ (Closure.mk n q).parts.flatMap fun g => allClosures g.1 g.2,
        c.Valid stem := by
      intro c hc
      obtain ⟨g, hg, hc⟩ := List.mem_flatMap.1 hc
      exact (hparts g hg).2 c hc
    rw [allClosures_span hspan hread]
    exact List.forall_mem_append.2 ⟨List.forall_mem_cons.2 ⟨hown, hinner⟩, hrest⟩

theorem opening_eq (q : Quantified) (name : Text) :
    ∃ t, q.opening name = name ++ (" := func()" ++ t) := by
  unfold Quantified.opening
  cases q.kind
  case all => exact ⟨" bool \x7b\n", rfl⟩
  case any => exact ⟨" bool \x7b\n", rfl⟩
  case count => exact ⟨" (racCount int64) \x7b\n", rfl⟩
  case sum =>
    refine ⟨" (racSum " ++ q.type ++ ") \x7b\n", ?_⟩
    simp only [List.append_assoc]
    rfl

theorem infix_join {t : Text} {ts : List Text} (h : t ∈ ts) : t <:+: Text.join " && " ts := by
  match ts with
  | [] => cases h
  | [u] =>
    rw [Text.join_singleton, List.mem_singleton.1 h]
  | u :: v :: ts =>
    rw [Text.join_cons_cons]
    rcases List.mem_cons.1 h with rfl | h
    · exact List.infix_append' [] t _
    · exact (infix_join h).trans ((List.suffix_append _ _).trans (List.suffix_append _ _)).isInfix

theorem infix_skipUnless {t : Text} {ts : List Text} (h : t ∈ ts) :
    t <:+: Quantified.skipUnless ts := by
  have hne : ts.isEmpty = false := by
    cases ts with
    | nil => cases h
    | cons u ts => rfl
  rw [Quantified.skipUnless, hne]
  exact (infix_join h).trans (List.infix_append _ _ _)

theorem infix_step (q : Quantified) (body : Text) : body <:+: q.step body := by
  unfold Quantified.step
  cases q.kind <;> exact List.infix_append _ _ _

section
variable {stem : Text} {c : Closure}

/-- the expansions of the filters -/
theorem Closure.Valid.filters_eq (h : c.Valid stem) :
    (c.filters.map fun g => expansionAt stem g.1 g.2).flatMap Expansion.decls
        = c.filterClosures.map (Closure.decl stem) ∧
      (c.filters.map fun g => expansionAt stem g.1 g.2).map Expansion.text
        = c.filters.map fun g => textWithCalls stem g.1 g.2 := by
  have hparts := (Closure.forall_mem_parts.1 h.parts).1
  rw [Closure.filterClosures, List.flatMap_map, List.map_flatMap, List.map_map]
  exact ⟨List.flatMap_congr fun g hg => (hparts g hg).outer.1,
    List.map_congr_left fun g hg => (hparts g hg).outer.2.1⟩

/-- the declaration of a closure, with the tests in its innermost loop and the closures before them -/
theorem Closure.Valid.decl_eq (h : c.Valid stem) :
    c.decl stem = c.loopStart stem
      ++ (Quantified.onLines (c.filterClosures.map (Closure.decl stem)) ++ c.filterTest stem
        ++ Quantified.onLines (c.bodyClosures.map (Closure.decl stem)) ++ c.bodyTest stem)
      ++ c.loopEnd := by
  have hbody := (Closure.forall_mem_parts.1 h.parts).2.outer
  rw [Closure.decl, closureOf_eq, h.filters_eq.1, h.filters_eq.2, hbody.1, hbody.2.1]
  simp only [Closure.loopStart, Closure.filterTest, Closure.bodyTest, Closure.loopEnd,
    Closure.bodyClosures, List.append_assoc]

/-- the parts of a closure are well nested after their expansion -/
theorem Closure.Valid.part_nested (h : c.Valid stem) (hstem : isName stem = true) {g : Nat × Text}
    (hg : g ∈ c.parts) : (∀ d ∈ outerClosures g.1 g.2, WellNested (d.decl stem)) ∧
      WellNested (textWithCalls stem g.1 g.2) := by
  have hexpands := h.parts g hg
  obtain ⟨hdecls, htext, -⟩ := hexpands.outer
  obtain ⟨x, m, hrun⟩ := hexpands
  have hkeeps := Expanded.keepsNesting hstem ⟨g.1, m, hrun⟩
  have hpart : WellNested g.2 := by
    rcases Closure.mem_parts hg with hmem | heq
    · exact h.nested.filters g.2 hmem
    · rw [heq]
      exact h.nested.body
  rw [expansionAt_eq hrun] at hdecls htext
  rw [← htext]
  refine ⟨fun d hd => hkeeps.decls _ ?_, hkeeps.text 0 0 hpart⟩
  rw [hdecls]
  exact List.mem_map_of_mem hd

theorem Closure.Valid.scoped (h : c.Valid stem) (hstem : isName stem = true) : c.Scoped stem where
  named := by
    obtain ⟨t, ht⟩ := opening_eq c.quantified (c.name stem)
    rw [Closure.decl, closureOf_eq, ht]
    simp only [List.append_assoc]
    exact ⟨_, rfl⟩
  layout := h.decl_eq
  loops := loops_nests h.nested (closureName_spec hstem c.number).1
  inside := by
    have hnested := Closure.forall_mem_parts.1 fun g hg => h.part_nested hstem hg
    refine ⟨?_, ?_, step_wellNested _ hnested.2.2⟩
    · intro d hd
      rw [Closure.inner_eq] at hd
      obtain ⟨g, hg, hd⟩ := List.mem_flatMap.1 hd
      exact (h.part_nested hstem hg).1 d hd
    · refine skipUnless_wellNested fun t ht => ?_
      obtain ⟨g, hg, rfl⟩ := List.mem_map.1 ht
      exact (hnested.1 g hg).2
  filterCalls := by
    intro d hd
    obtain ⟨g, hg, hd⟩ := List.mem_flatMap.1 hd
    have hcall := call_infix ((Closure.forall_mem_parts.1 h.parts).1 g hg) hd
    exact hcall.trans (infix_skipUnless (List.mem_map_of_mem hg))
  bodyCalls := by
    intro d hd
    have hcall := call_infix (Closure.forall_mem_parts.1 h.parts).2 hd
    exact hcall.trans (infix_step c.quantified _)

end

/-! ### sequences of expansions -/

/-- one expansion of a sequence: the numbers it uses up are those from `start` on, before `stop` -/
structure ExpandCall where
  start : Nat
  /-- the predicate after it has been renamed -/
  text : Text
  result : Except QuantifierFault Expansion
  stop : Nat

/-- the closures that an expansion declares, with those inside of others; none if it fails -/
def ExpandCall.closures (c : ExpandCall) : List Closure :=
  match c.result with
  | .ok _ => allClosures c.start c.text
  | .error _ => []

/-- expansions of predicates one after the other, with one numbering -/
def Expander.calls (e : Expander) : List (Text × Renaming) → List ExpandCall
  | [] => []
  | (pred, f) :: cs =>
    ⟨e.next, rename f pred, (e.expand pred f).1, (e.expand pred f).2.next⟩
      :: (e.expand pred f).2.calls cs

/-- every expansion of a sequence is a run of its own -/
theorem Expander.run_of_mem_calls {e : Expander} {cs : List (Text × Renaming)} {c : ExpandCall}
    (h : c ∈ e.calls cs) : (expandFrom e.stem c.text).run c.start = (c.result, c.stop) := by
  induction cs generalizing e with
  | nil => cases h
  | cons p cs ih =>
    rcases List.mem_cons.1 h with rfl | h
    · rfl
    · exact ih (e := (e.expand p.1 p.2).2) h

section
variable {stem : Text} {c : ExpandCall} (h : (expandFrom stem c.text).run c.start = (c.result, c.stop))
include h

theorem ExpandCall.start_le_stop : c.start ≤ c.stop := by
  have hclimbs := climbs_expandFrom stem c.text c.start
  rw [h] at hclimbs
  exact hclimbs

/-- a closure has one of the numbers that its expansion has used up -/
theorem ExpandCall.numbers : ∃ k, c.start + k ≤ c.stop ∧
    c.closures.map Closure.number = List.range' c.start k := by
  cases hr : c.result with
  | error f =>
    refine ⟨0, ExpandCall.start_le_stop h, ?_⟩
    rw [ExpandCall.closures, hr]
    rfl
  | ok x =>
    rw [hr] at h
    refine ⟨closureCount c.text, Nat.le_of_eq (expandFrom_closureCount h).symm, ?_⟩
    rw [ExpandCall.closures, hr]
    exact ExpandsAt.numbers ⟨x, c.stop, h⟩

theorem ExpandCall.number_mem : ∀ d ∈ c.closures, c.start ≤ d.number ∧ d.number < c.stop := by
  intro d hd
  obtain ⟨k, hk, hnumbers⟩ := ExpandCall.numbers h
  have hmem : d.number ∈ List.range' c.start k := hnumbers ▸ List.mem_map_of_mem hd
  rw [List.mem_range'_1] at hmem
  omega

end

/-- the numbers of one expansion come after those of the expansions before it -/
theorem Expander.calls_pairwise (e : Expander) (cs : List (Text × Renaming)) :
    (e.calls cs).Pairwise (fun c d => c.stop ≤ d.start) ∧ ∀ c ∈ e.calls cs, e.next ≤ c.start := by
  induction cs generalizing e with
  | nil => exact ⟨.nil, by simp [calls]⟩
  | cons p cs ih =>
    obtain ⟨hpairwise, hnext⟩ := ih (e.expand p.1 p.2).2
    have hclimbs : e.next ≤ (e.expand p.1 p.2).2.next :=
      climbs_expandFrom e.stem (rename p.2 p.1) e.next
    exact ⟨.cons hnext hpairwise, List.forall_mem_cons.2
      ⟨Nat.le_refl _, fun c hc => Nat.le_trans hclimbs (hnext c hc)⟩⟩

/-- the closures of a sequence are numbered upwards -/
theorem Expander.numbers_calls (e : Expander) (cs : List (Text × Renaming)) :
    (((e.calls cs).flatMap ExpandCall.closures).map Closure.number).Pairwise (· < ·) := by
  have hruns : ∀ c ∈ e.calls cs, (expandFrom e.stem c.text).run c.start = (c.result, c.stop) :=
    fun c hc => run_of_mem_calls hc
  have horder := (e.calls_pairwise cs).1
  generalize e.calls cs = calls at hruns horder
  induction calls with
  | nil => exact .nil
  | cons c calls ih =>
    rw [List.forall_mem_cons] at hruns
    rw [List.pairwise_cons] at horder
    rw [List.flatMap_cons, List.map_append, List.pairwise_append]
    refine ⟨?_, ih hruns.2 horder.2, ?_⟩
    · obtain ⟨k, -, hnumbers⟩ := ExpandCall.numbers hruns.1
      rw [hnumbers]
      exact List.pairwise_lt_range'
    · intro m hm k hk
      obtain ⟨a, ha, rfl⟩ := List.mem_map.1 hm
      obtain ⟨b, hb, rfl⟩ := List.mem_map.1 hk
      obtain ⟨d, hd, hb⟩ := List.mem_flatMap.1 hb
      have hfirst := ExpandCall.number_mem hruns.1 a ha
      have hlater := ExpandCall.number_mem (hruns.2 d hd) b hb
      have hbetween := horder.1 d hd
      omega

theorem Expander.names_nodup (e : Expander) (cs : List (Text × Renaming)) :
    (((e.calls cs).flatMap ExpandCall.closures).map (Closure.name e.stem)).Nodup := by
  have hnumbers : (((e.calls cs).flatMap ExpandCall.closures).map Closure.number).Nodup :=
    (e.numbers_calls cs).imp Nat.ne_of_lt
  have hinjective : Function.Injective fun n : Nat => e.stem ++ Text.ofNat n :=
    fun m n h => ofNat_injective (List.append_cancel_left h)
  have hnames := hnumbers.map hinjective
  rw [List.map_map] at hnames
  exact hnames

/-- no closure has a number that an expansion which failed has used up -/
theorem Expander.number_of_failed {e : Expander} {cs : List (Text × Renaming)} {c : ExpandCall}
    (hc : c ∈ e.calls cs) {f : QuantifierFault} (hf : c.result = .error f) :
    ∀ d ∈ (e.calls cs).flatMap ExpandCall.closures, d.number < c.start ∨ c.stop ≤ d.number := by
  intro d hd
  obtain ⟨b, hb, hd⟩ := List.mem_flatMap.1 hd
  have hnumber := ExpandCall.number_mem (run_of_mem_calls hb) d hd
  obtain ⟨as, bs, hsplit⟩ := List.append_of_mem hc
  have horder := (e.calls_pairwise cs).1
  rw [hsplit, List.pairwise_append, List.pairwise_cons] at horder
  rw [hsplit, List.mem_append, List.mem_cons] at hb
  rcases hb with hb | rfl | hb
  · have hbefore := horder.2.2 b hb c List.mem_cons_self
    omega
  · rw [ExpandCall.closures, hf] at hd
    cases hd
  · have hafter := horder.2.1.1 b hb
    omega

/-- one closure is declared for each outermost quantifier, in the order of the text, and called in
its place -/
structure ExpandCall.Declares (stem : Text) (c : ExpandCall) (x : Expansion) : Prop where
  cut : CutAtQuantifiers c.text (outermost c.start c.text) (afterQuantifiers c.text)
  numbers : (outerClosures c.start c.text).map Closure.number
    = (outermost c.start c.text).map Prod.snd
  decls : x.decls = (outerClosures c.start c.text).map (Closure.decl stem)
  text : x.text = textWithCalls stem c.start c.text

/-- in a sequence of expansions with one numbering, no two closures have the same name, also inside
of others, and none has a number that a failed expansion has used up.  An expansion that succeeds
declares one closure for each outermost quantifier, and each closure declares those of the
quantifiers inside of it in its innermost loop, before the tests that call them. -/
theorem Expander.closures_scoped {e : Expander} (hstem : isName e.stem = true)
    (cs : List (Text × Renaming)) :
    (((e.calls cs).flatMap ExpandCall.closures).map (Closure.name e.stem)).Nodup ∧
      (∀ c ∈ e.calls cs, ∀ f, c.result = .error f →
        ∀ d ∈ (e.calls cs).flatMap ExpandCall.closures, d.number < c.start ∨ c.stop ≤ d.number) ∧
      ∀ c ∈ e.calls cs, ∀ x, c.result = .ok x →
        c.Declares e.stem x ∧ ClosureFamily (outerClosures c.start c.text) c.closures ∧
          ∀ d ∈ c.closures, d.Scoped e.stem := by
  refine ⟨e.names_nodup cs, fun c hc f hf => number_of_failed hc hf, fun c hc x hx => ?_⟩
  have hrun := run_of_mem_calls hc
  rw [hx] at hrun
  have hexpands : ExpandsAt e.stem c.start c.text := ⟨x, c.stop, hrun⟩
  have hclosures : c.closures = allClosures c.start c.text := by rw [ExpandCall.closures, hx]
  obtain ⟨hdecls, htext, hnumbers⟩ := hexpands.outer
  rw [expansionAt_eq hrun] at hdecls htext
  rw [hclosures]
  refine ⟨⟨?_, hnumbers, hdecls, htext⟩, hexpands.family, fun d hd => ?_⟩
  · exact Expanded.cutAtQuantifiers ⟨c.start, c.stop, hrun⟩ c.start
  · exact (hexpands.valid d hd).scoped hstem

/-- a quantifier in a body, one that cannot be read after one that can, and one in a filter -/
def predicateSequence : List (Text × Renaming) :=
  [("(\\forall i int; 0 <= i && i < n; (\\exists k := range m; k == i)) || (\\exists v := range m; v)",
      []),
    ("(\\forall i int; 0 <= i && i < n; p(i)) && (\\exists j int; 0 <= j; p(j))", []),
    ("(\\num_of r := range xs; (\\exists j int; 0 <= j && j < n; q(j)); r > 0)", [])]

/-- the failed expansion uses up two numbers; the third one declares `racQuant6` in the loop of
`racQuant5`, before the test that calls it -/
theorem closures_scoped_predicateSequence :
    isName defaultStem = true ∧
      (({} : Expander).calls predicateSequence).map
          (fun c => (c.start, c.stop, c.result.isOk, c.closures.map Closure.number))
        = [(0, 3, true, [0, 1, 2]), (3, 5, false, []), (5, 7, true, [5, 6])] ∧
      (((({} : Expander).calls predicateSequence).flatMap ExpandCall.closures).map
        (Closure.name defaultStem)).Nodup ∧
      ∀ c ∈ ({} : Expander).calls predicateSequence, ∀ x, c.result = .ok x →
        c.Declares defaultStem x ∧ ∀ d ∈ c.closures, d.Scoped defaultStem := by
  have hstem : isName defaultStem = true := by decide
  obtain ⟨hnames, -, hcalls⟩ := Expander.closures_scoped (e := {}) hstem predicateSequence
  refine ⟨hstem, ?_, hnames, fun c hc x hx => ?_⟩
  · -- the kernel is slow in reading the characters of a literal, so they are put in its place
    unfold predicateSequence
    repeat rw [String.toList_ofList]
    decide +kernel
  · obtain ⟨hdeclares, -, hscoped⟩ := hcalls c hc x hx
    exact ⟨hdeclares, hscoped⟩

end ContractChecks
