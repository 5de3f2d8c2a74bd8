import ContractChecks.Proofs.BracketDepth
import ContractChecks.Proofs.ExpandedNames
import ContractChecks.Proofs.StandaloneCalls

/-!
# Nesting of closures

A closure is put together from pieces of a quantifier that were cut out at depth zero, so it closes
every bracket that it opens, and so does each of its parts.

* `inner_wellNested`: a quantifier, and what stands between its keyword and the bracket that closes
  it;
* `wellNested_partProperty`: the parts of a quantifier are well nested if the quantifier is;
* `loops_nests`, `closureOf_wellNested`: up to its innermost loop, a closure opens one bracket for
  itself and one for each loop, and it closes them at its end;
* `Expanded.keepsNesting`: the closures of an expansion are well nested, and its text nests as the text
  that was expanded.
-/

namespace ContractChecks

/-! ### spans -/

theorem isInert_of_keyword (k : QuantifierKind) : ∀ c ∈ k.keyword, isInert c = true := by
  have hall : k.keyword.all isInert = true := by cases k <;> decide
  exact List.all_eq_true.1 hall

/-- the text of a quantifier and what stands after its keyword -/
theorem inner_wellNested {s : Text} {p : QuantifierSpan} (h : firstSpan? s = .ok (some p)) :
    WellNested p.text ∧ WellNested p.inner := by
  obtain ⟨x, gap, close, hp⟩ := firstSpan?_layout h
  obtain ⟨inside, hinside, hnests⟩ := cutClose_wellNested rfl hp.matched
  obtain ⟨-, rfl⟩ := List.cons.inj hinside
  have hgap : ∀ c ∈ gap, isInert c = true := fun c hc =>
    isInert_of_isBlank (isBlank_of_isLayout (hp.layout c hc))
  constructor
  · have hpair := hnests.brackets hp.closing
    rw [hp.text]
    simpa only [List.append_assoc] using hpair
  · exact (hnests.of_inert_left hgap).of_inert_left (hp.keyword ▸ isInert_of_keyword x.kind)

/-! ### parts of a quantifier -/

/-- a list of names has no brackets -/
theorem wellNested_of_names {lhs : Text} (h : (splitTop "," lhs).all isName = true) :
    ∀ c ∈ lhs, isInert c = true := by
  intro c hc
  by_cases hcomma : c ∈ (",".toList)
  · rw [List.mem_singleton.1 hcomma]
    decide
  · cases hblank : isBlank c with
    | true => exact isInert_of_isBlank hblank
    | false => exact isInert_of_isNamePart (isNamePart_of_mem_names h hc hcomma hblank)

theorem wellNested_partProperty : PartProperty WellNested where
  closed := Nests.closed
  trim := WellNested.trim
  top := by
    intro m s hm hs
    have hsep : m.all isInert = true := by
      revert m
      decide
    exact hs.cutTop hsep
  relation := fun h hs => hs.cutRelation h
  binding := by
    intro lhs rhs hnames hs
    have hinert := wellNested_of_names hnames
    have hsign : ":=".toList.all isInert = true := by decide
    exact ⟨wellNested_of_inert hinert,
      (hs.of_inert_left hinert).of_inert_left (List.all_eq_true.1 hsign)⟩
  comma := by
    intro r hs
    have hsign : [','].all isInert = true := by decide
    exact hs.of_inert_left (List.all_eq_true.1 hsign)
  name := by
    intro n rest hn _ hs
    exact ⟨wellNested_of_isName hn,
      hs.of_inert_left fun c hc => isInert_of_isNamePart (isNamePart_of_isName hn c hc)⟩
  append := fun ha hb _ => ha.append hb
  parens := fun hs => hs.brackets (c := ')') rfl
  nil := wellNested_nil
  fixed := by
    intro t ht
    refine wellNested_of_all ?_
    revert t
    decide

/-! ### closures -/

theorem onLines_wellNested {ts : List Text} (h : ∀ t ∈ ts, WellNested t) :
    WellNested (Quantified.onLines ts) := by
  induction ts with
  | nil => exact wellNested_nil
  | cons t ts ih =>
    rw [List.forall_mem_cons] at h
    have hline : WellNested (t ++ ['\n']) := h.1.append (nests_of_check (by decide))
    exact hline.append (ih h.2)

theorem join_wellNested {ts : List Text} (h : ∀ t ∈ ts, WellNested t) :
    WellNested (Text.join " && " ts) := by
  match ts with
  | [] => exact wellNested_nil
  | [t] =>
    rw [Text.join_singleton]
    exact h t List.mem_cons_self
  | t :: u :: ts =>
    rw [List.forall_mem_cons] at h
    have hsep : WellNested " && " := nests_of_check (by decide)
    rw [Text.join_cons_cons]
    exact h.1.append (hsep.append (join_wellNested h.2))

/-- a part between a fixed text that opens brackets and one that closes them -/
theorem wellNested_between {start s stop : Text} (depth : Int)
    (hstart : checkNests 0 depth .code 0 start = true) (hs : WellNested s)
    (hstop : checkNests (-depth) (-depth) .code 0 stop = true) : WellNested (start ++ s ++ stop) := by
  have hopen := nests_of_check hstart
  have h := (hopen.append hs (by
    have hdepth := hopen.above start (List.prefix_refl start)
    rw [hopen.ends] at hdepth
    omega)).append (nests_of_check hstop) (by omega)
  have hzero : depth + 0 + -depth = 0 := by omega
  rw [hzero] at h
  exact h

theorem skipUnless_wellNested {ts : List Text} (h : ∀ t ∈ ts, WellNested t) :
    WellNested (Quantified.skipUnless ts) := by
  unfold Quantified.skipUnless
  split
  · exact wellNested_nil
  · exact wellNested_between 1 (by decide) (join_wellNested h) (by decide)

theorem step_wellNested (q : Quantified) {body : Text} (h : WellNested body) :
    WellNested (q.step body) := by
  unfold Quantified.step
  cases q.kind
  case all => exact wellNested_between 1 (by decide) h (by decide)
  case any => exact wellNested_between 0 (by decide) h (by decide)
  case count => exact wellNested_between 0 (by decide) h (by decide)
  case sum => exact wellNested_between 0 (by decide) h (by decide)

theorem opening_nests {q : Quantified} (hq : q.Parts WellNested) {name : Text}
    (hname : isName name = true) : Nests 0 1 (q.opening name) := by
  have hnamed : ∀ t : Text, checkNests 0 1 .code 0 t = true → Nests 0 1 (name ++ t) := fun t ht =>
    Nests.append (wellNested_of_isName hname) (nests_of_check ht) (Int.le_refl 0)
  unfold Quantified.opening
  cases q.kind
  case all => exact hnamed " := func() bool \x7b\n" (by decide)
  case any => exact hnamed " := func() bool \x7b\n" (by decide)
  case count => exact hnamed " := func() (racCount int64) \x7b\n" (by decide)
  case sum =>
    have hstart := hnamed " := func() (racSum " (by decide)
    have hstop : Nests (-1) 0 ") \x7b\n" := nests_of_check (by decide)
    exact (hstart.append hq.type (by decide)).append hstop (by decide)

/-- every loop opens one bracket -/
theorem headers_nests {ls : List Loop} (h : ∀ l ∈ ls, WellNested l.header) :
    Nests 0 ls.length (Quantified.onLines (ls.map fun l => l.header ++ " \x7b")) := by
  induction ls with
  | nil => exact wellNested_nil
  | cons l ls ih =>
    rw [List.forall_mem_cons] at h
    have hbrace : Nests 0 1 (" \x7b" ++ ['\n']) := nests_of_check (by decide)
    have hline := Nests.append h.1 hbrace (by decide)
    rw [← List.append_assoc] at hline
    have hrest := hline.append (ih h.2) (by decide)
    have hcount : (0 + 1 + ls.length : Int) = (l :: ls).length := by
      rw [List.length_cons]
      omega
    rw [hcount] at hrest
    exact hrest

/-- up to its innermost loop, a closure has opened its own bracket and one for each loop -/
theorem loops_nests {q : Quantified} (hq : q.Parts WellNested) {name : Text}
    (hname : isName name = true) :
    Nests 0 (1 + q.loops.length)
      (q.opening name ++ Quantified.onLines (q.loops.map fun l => l.header ++ " \x7b")) :=
  (opening_nests hq hname).append (headers_nests hq.headers) (by decide)

/-- the braces after the innermost loop -/
theorem braces_nests (ls : List Loop) :
    Nests (-ls.length) (-ls.length) (Quantified.onLines (ls.map fun _ => ("\x7d" : Text))) := by
  induction ls with
  | nil => exact wellNested_nil
  | cons l ls ih =>
    have hline : Nests (-1) (-1) ("\x7d" ++ ['\n']) := nests_of_check (by decide)
    have hcount : (-1 + -ls.length : Int) = -(l :: ls).length := by
      rw [List.length_cons]
      omega
    have hall := (hline.mono (-(l :: ls).length) (by omega)).append ih (by omega)
    rw [hcount] at hall
    exact hall

structure Expansion.Nested (x : Expansion) : Prop where
  decls : ∀ d ∈ x.decls, WellNested d
  text : WellNested x.text

/-- what a closure does in its innermost loop -/
theorem innermost_wellNested (q : Quantified) {filters : List Expansion} {body : Expansion}
    (hfilters : ∀ e ∈ filters, e.Nested) (hbody : body.Nested) :
    WellNested (Quantified.onLines (filters.flatMap Expansion.decls)
      ++ Quantified.skipUnless (filters.map Expansion.text)
      ++ Quantified.onLines body.decls ++ q.step body.text) := by
  have hdecls : ∀ d ∈ filters.flatMap Expansion.decls, WellNested d := by
    intro d hd
    obtain ⟨e, he, hd⟩ := List.mem_flatMap.1 hd
    exact (hfilters e he).decls d hd
  have htexts : ∀ t ∈ filters.map Expansion.text, WellNested t := by
    intro t ht
    obtain ⟨e, he, rfl⟩ := List.mem_map.1 ht
    exact (hfilters e he).text
  exact (((onLines_wellNested hdecls).append (skipUnless_wellNested htexts)).append
    (onLines_wellNested hbody.decls)).append (step_wellNested q hbody.text)

theorem closureOf_wellNested {q : Quantified} (hq : q.Parts WellNested) {name : Text}
    (hname : isName name = true) {filters : List Expansion} {body : Expansion}
    (hfilters : ∀ e ∈ filters, e.Nested) (hbody : body.Nested) :
    WellNested (q.closureOf name filters body) := by
  have hlast : Nests (-1) (-1) (q.closing ++ "\x7d") := by
    unfold Quantified.closing
    cases q.kind <;> exact nests_of_check (by decide)
  have hinside := (loops_nests hq hname).append (innermost_wellNested q hfilters hbody) (by omega)
  have hall := (hinside.append (braces_nests q.loops) (by omega)).append hlast (by omega)
  have hzero : (1 + q.loops.length + 0 + -q.loops.length + -1 : Int) = 0 := by omega
  rw [hzero] at hall
  rw [closureOf_eq]
  simpa only [List.append_assoc] using hall

/-! ### expansions -/

/-- the texts nest alike: wherever the one stays between two depths, the other does -/
def NestsAs (s t : Text) : Prop := ∀ low final, Nests low final s → Nests low final t

/-- a well nested part replaced by another one -/
theorem NestsAs.replace {a m m' b b' : Text} (ha : LiteralsClosed a) (hm : WellNested m)
    (hm' : WellNested m') (hb : NestsAs b b') : NestsAs (a ++ (m ++ b)) (a ++ (m' ++ b')) := by
  intro low final h
  have hstart : Nests low (bracketDepth a) a :=
    ⟨ha, rfl, fun t ht => h.above t (ht.trans (List.prefix_append _ _))⟩
  have hrest := Nests.of_append hm.closed (Nests.of_append ha h)
  rw [hm.ends, Int.sub_zero, Int.sub_zero] at hrest
  have hlow := hstart.above a (List.prefix_refl a)
  have hmiddle := (hm'.mono (low - bracketDepth a) (by omega)).append (hb _ _ hrest)
    (by omega)
  have hall := hstart.append hmiddle (by omega)
  have hfinal : bracketDepth a + (0 + (final - bracketDepth a)) = final := by omega
  rw [hfinal] at hall
  exact hall

/-- what expanding `s` keeps: its closures are well nested, and its text nests as `s` -/
structure Expansion.KeepsNesting (s : Text) (x : Expansion) : Prop where
  decls : ∀ d ∈ x.decls, WellNested d
  text : NestsAs s x.text

theorem filters_nested {gs : List Text} {es : List Expansion}
    (h : List.Forall₂ Expansion.KeepsNesting gs es) (hgs : ∀ g ∈ gs, WellNested g) :
    ∀ e ∈ es, e.Nested := by
  intro e he
  obtain ⟨g, hg, hkeeps⟩ := exists_mem_of_forall₂ h e he
  exact ⟨hkeeps.decls, hkeeps.text 0 0 (hgs g hg)⟩

theorem keepsNesting_replaced {stem : Text} (hstem : isName stem = true) {s : Text}
    {p : QuantifierSpan} {q : Quantified} (n : Nat) {filters : List Expansion}
    {body rest : Expansion} (hspan : firstSpan? s = .ok (some p))
    (hread : Quantified.parse p.kind p.inner = .ok q)
    (hfilters : List.Forall₂ Expansion.KeepsNesting q.filters filters)
    (hbody : body.KeepsNesting q.body) (hrest : rest.KeepsNesting p.rest) :
    (p.replaced q (stem ++ Text.ofNat n) filters body rest).KeepsNesting s := by
  obtain ⟨htext, hinner⟩ := inner_wellNested hspan
  have hparts := wellNested_partProperty.parse hread hinner
  obtain ⟨hname, -⟩ := closureName_spec hstem n
  constructor
  · refine List.forall_mem_cons.2 ⟨?_, hrest.decls⟩
    exact closureOf_wellNested hparts hname (filters_nested hfilters hparts.filters)
      ⟨hbody.decls, hbody.text 0 0 hparts.body⟩
  · have hcall : WellNested (stem ++ Text.ofNat n ++ "()") :=
      (wellNested_of_isName hname).append (nests_of_check (by decide))
    have hreplace := NestsAs.replace (firstSpan?_spec hspan).1 htext hcall hrest.text
    rw [← (firstSpan?_text hspan).1] at hreplace
    simp only [QuantifierSpan.replaced, List.append_assoc] at hreplace ⊢
    exact hreplace

theorem Expanded.keepsNesting {stem : Text} (hstem : isName stem = true) {s : Text} {x : Expansion}
    (h : Expanded stem s x) : x.KeepsNesting s := by
  refine Expanded.induction (motive := Expansion.KeepsNesting) ?_ ?_ h
  · intro s _
    exact ⟨by simp, fun _ _ hs => hs⟩
  · intro s p q n filters body rest hspan hread hfilters hbody hrest
    exact keepsNesting_replaced hstem n hspan hread hfilters hbody hrest

end ContractChecks
