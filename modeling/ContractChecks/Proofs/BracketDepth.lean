import ContractChecks.Proofs.ClosedPieces

/-!
# Bracket depth

All bracket sorts are counted together and literals are passed over.  A text is well nested if its
literals are closed, it never closes a bracket that it has not opened, and it leaves none open.

* `Quoting.depthFrom`, `bracketDepth`: the depth that a scan reaches;
* `Nests low final s`: literals are closed, the depth stays at `low` or above and ends at `final`;
  `WellNested` is `Nests 0 0`;
* `Nests.append`: texts put together; `wellNested_of_inert`: texts without brackets;
* `WellNested.cutTop`, `WellNested.cutRelation`: the pieces between separators and the sides of a
  relation, both of which are found at depth zero only;
* `cutClose_wellNested`: what stands inside a pair of brackets;
* `checkNests`: nesting of a fixed text, by running through it.
-/

namespace ContractChecks

/-! ### depth -/

/-- the depth after a whole text, by the rule for one character -/
def Quoting.depthFrom (st : Quoting) (depth : Int) : Text → Int
  | [] => depth
  | c :: r => (st.next c).depthFrom (st.depthAfter depth c) r

theorem Quoting.depthFrom_cons (st : Quoting) (depth : Int) (c : Char) (r : Text) :
    st.depthFrom depth (c :: r) = (st.next c).depthFrom (st.depthAfter depth c) r := rfl

theorem Quoting.depthFrom_append (st : Quoting) (depth : Int) (s t : Text) :
    st.depthFrom depth (s ++ t) = (st.after s).depthFrom (st.depthFrom depth s) t := by
  induction s generalizing st depth with
  | nil => rfl
  | cons c s ih => exact ih (st.next c) (st.depthAfter depth c)

theorem Quoting.depthFrom_add (st : Quoting) (depth k : Int) (s : Text) :
    st.depthFrom (k + depth) s = k + st.depthFrom depth s := by
  induction s generalizing st depth with
  | nil => rfl
  | cons c s ih =>
    have hstep : st.depthAfter (k + depth) c = k + st.depthAfter depth c := by
      unfold Quoting.depthAfter
      split
      · rw [Int.add_assoc]
      · rfl
    rw [depthFrom_cons, depthFrom_cons, hstep, ih]

/-- the brackets that a text opens and does not close -/
def bracketDepth (s : Text) : Int := Quoting.code.depthFrom 0 s

theorem bracketDepth_append {a : Text} (ha : LiteralsClosed a) (b : Text) :
    bracketDepth (a ++ b) = bracketDepth a + bracketDepth b := by
  have hclosed : Quoting.code.after a = .code := ha
  have hadd := Quoting.depthFrom_add .code 0 (bracketDepth a) b
  rw [Int.add_zero] at hadd
  rw [bracketDepth, Quoting.depthFrom_append, hclosed]
  exact hadd

/-! ### nesting -/

/-- all literals are closed, the depth never falls below `low` and ends at `final` -/
structure Nests (low final : Int) (s : Text) : Prop where
  closed : LiteralsClosed s
  ends : bracketDepth s = final
  above : ∀ t, t <+: s → low ≤ bracketDepth t

/-- all literals are closed, no bracket is closed that is not open, and none is left open -/
abbrev WellNested (s : Text) : Prop := Nests 0 0 s

theorem Nests.append {low final low' final' : Int} {a b : Text} (ha : Nests low final a)
    (hb : Nests low' final' b) (hlow : low ≤ final + low') :
    Nests low (final + final') (a ++ b) where
  closed := ha.closed.append hb.closed
  ends := by rw [bracketDepth_append ha.closed, ha.ends, hb.ends]
  above := by
    rintro t ⟨r, hr⟩
    -- the text read so far ends in `a`, or it is `a` with a beginning of `b`
    rcases List.append_eq_append_iff.1 hr with ⟨u, hu, -⟩ | ⟨u, rfl, hu⟩
    · exact ha.above t ⟨u, hu.symm⟩
    · have hbelow := hb.above u ⟨r, hu.symm⟩
      rw [bracketDepth_append ha.closed, ha.ends]
      omega

theorem Nests.mono {low final : Int} {s : Text} (h : Nests low final s) (low' : Int)
    (hlow : low' ≤ low) : Nests low' final s :=
  ⟨h.closed, h.ends, fun t ht => Int.le_trans hlow (h.above t ht)⟩

theorem Nests.of_append {low final : Int} {a b : Text} (ha : LiteralsClosed a)
    (h : Nests low final (a ++ b)) : Nests (low - bracketDepth a) (final - bracketDepth a) b where
  closed := ha.of_append h.closed
  ends := by
    have hends := h.ends
    rw [bracketDepth_append ha] at hends
    omega
  above := by
    intro t ht
    have habove := h.above (a ++ t) ((List.prefix_append_right_inj a).2 ht)
    rw [bracketDepth_append ha] at habove
    omega

theorem WellNested.append {a b : Text} (ha : WellNested a) (hb : WellNested b) :
    WellNested (a ++ b) := Nests.append ha hb (Int.le_refl 0)

/-- a beginning that closes what it opens -/
theorem WellNested.of_append_left {a b : Text} (h : WellNested (a ++ b)) (ha : LiteralsClosed a)
    (hdepth : bracketDepth a = 0) : WellNested a ∧ WellNested b := by
  refine ⟨⟨ha, hdepth, fun t ht => h.above t (ht.trans (List.prefix_append a b))⟩, ?_⟩
  have hrest := Nests.of_append ha h
  rw [hdepth] at hrest
  exact hrest

theorem wellNested_nil : WellNested [] where
  closed := literalsClosed_nil
  ends := rfl
  above := by
    intro t ht
    rw [List.prefix_nil.1 ht]
    exact Int.le_refl 0

/-! ### texts without brackets -/

theorem depthFrom_inert {s : Text} (h : ∀ c ∈ s, isInert c = true) (depth : Int) :
    Quoting.code.depthFrom depth s = depth := by
  induction s generalizing depth with
  | nil => rfl
  | cons c s ih =>
    rw [List.forall_mem_cons] at h
    obtain ⟨hquote, hstep⟩ := isInert_spec h.1
    have hdepth : Quoting.code.depthAfter depth c = depth := by
      rw [Quoting.depthAfter, if_pos rfl, hstep, Int.add_zero]
    rw [Quoting.depthFrom_cons, next_code hquote, hdepth]
    exact ih h.2 depth

theorem wellNested_of_inert {s : Text} (h : ∀ c ∈ s, isInert c = true) : WellNested s where
  closed := literalsClosed_of_noQuote fun c hc => (isInert_spec (h c hc)).1
  ends := depthFrom_inert h 0
  above := by
    intro t ht
    have hzero : bracketDepth t = 0 := depthFrom_inert (fun c hc => h c (ht.subset hc)) 0
    exact Int.le_of_eq hzero.symm

theorem wellNested_of_all {s : Text} (h : s.all isInert = true) : WellNested s :=
  wellNested_of_inert (List.all_eq_true.1 h)

/-- an inert beginning can be left out -/
theorem WellNested.of_inert_left {u s : Text} (h : WellNested (u ++ s))
    (hu : ∀ c ∈ u, isInert c = true) : WellNested s :=
  (h.of_append_left (wellNested_of_inert hu).closed (wellNested_of_inert hu).ends).2

/-- an inert end can be left out -/
theorem WellNested.of_inert_right {s u : Text} (h : WellNested (s ++ u))
    (hu : ∀ c ∈ u, isInert c = true) : WellNested s := by
  have hclosed : LiteralsClosed s :=
    h.closed.of_append_right fun c hc => (isInert_spec (hu c hc)).1
  have hends := h.ends
  rw [bracketDepth_append hclosed, (wellNested_of_inert hu).ends, Int.add_zero] at hends
  exact (h.of_append_left hclosed hends).1

theorem isInert_of_isNamePart {c : Char} (h : isNamePart c = true) : isInert c = true :=
  isInert_of_class (by decide) h

theorem wellNested_of_isName {n : Text} (h : isName n = true) : WellNested n :=
  wellNested_of_inert fun c hc => isInert_of_isNamePart (isNamePart_of_isName h c hc)

theorem WellNested.trim {s : Text} (h : WellNested s) : WellNested s.trim := by
  have hstart : WellNested (Text.trimStart s) := by
    rw [← List.takeWhile_append_dropWhile (p := isBlank) (l := s)] at h
    exact h.of_inert_left fun c hc =>
      isInert_of_isBlank (List.all_eq_true.1 List.all_takeWhile c hc)
  obtain ⟨u, hu, hblank⟩ := exists_append_of_dropWhile_reverse isBlank (Text.trimStart s)
  rw [← hu] at hstart
  exact hstart.of_inert_right fun c hc => isInert_of_isBlank (hblank c hc)

/-! ### pieces at depth zero -/

/-- a text cut at an inert separator outside brackets and literals -/
theorem WellNested.cut {a m b : Text} (h : WellNested (a ++ (m ++ b))) (ha : LiteralsClosed a)
    (hdepth : bracketDepth a = 0) (hm : m.all isInert = true) : WellNested a ∧ WellNested b := by
  obtain ⟨hfirst, hrest⟩ := h.of_append_left ha hdepth
  exact ⟨hfirst, hrest.of_inert_left (List.all_eq_true.1 hm)⟩

/-- a piece that another one follows ends at depth zero -/
theorem depthFrom_cutTopFrom {sep : Text} {st : Quoting} {depth : Int} {s p q : Text}
    {ps : List Text} (h : cutTopFrom sep st depth 0 s = p :: q :: ps) :
    st.depthFrom depth p = 0 := by
  induction s generalizing st depth p with
  | nil => cases h
  | cons c r ih =>
    rw [cutTopFrom] at h
    split at h
    case isTrue hif =>
      obtain ⟨-, hsep⟩ := Bool.and_eq_true_iff.1 hif
      rw [← (List.cons.inj h).1]
      exact (separates_iff.1 hsep).2.2.1
    case isFalse =>
      cases hcut : cutTopFrom sep (st.next c) (st.depthAfter depth c) 0 r with
      | nil => exact absurd hcut (cutTopFrom_ne_nil _ _ _ _ _)
      | cons p' ps' =>
        rw [hcut] at h
        cases h
        show (st.next c).depthFrom (st.depthAfter depth c) p' = 0
        exact ih hcut

theorem WellNested.cutTop {sep : Text} (hsep : sep.all isInert = true) {s : Text}
    (hs : WellNested s) : ∀ p ∈ cutTop sep s, WellNested p := by
  generalize hcut : ContractChecks.cutTop sep s = ps
  induction ps generalizing s with
  | nil => simp
  | cons p ps ih =>
    rcases cutTopFrom_cases hcut with ⟨rfl, rfl⟩ | ⟨t, -, rfl, hp, rfl⟩
    · simpa using hs
    · have hdepth : bracketDepth p = 0 := by
        cases hrest : ContractChecks.cutTop sep t with
        | nil => exact absurd hrest (cutTopFrom_ne_nil _ _ _ _ _)
        | cons q qs =>
          rw [hrest] at hcut
          exact depthFrom_cutTopFrom hcut
      obtain ⟨hfirst, hlater⟩ := hs.cut hp hdepth hsep
      exact List.forall_mem_cons.2 ⟨hfirst, ih hlater rfl⟩

theorem depthFrom_cutRelationFrom {st : Quoting} {depth : Int} {s a b : Text} {rel : Relation}
    (h : cutRelationFrom st depth s = some (a, rel, b)) : st.depthFrom depth a = 0 := by
  have hzero : ∀ {st : Quoting} {depth : Int} {c : Char},
      (st = .code && depth = 0 && (c = '<' || c = '>')) = true →
        st = .code ∧ depth = 0 ∧ isInert c = true := by
    intro st depth c hsign
    simp only [Bool.and_eq_true, Bool.or_eq_true, decide_eq_true_eq] at hsign
    refine ⟨hsign.1.1, hsign.1.2, ?_⟩
    rcases hsign.2 with rfl | rfl <;> decide
  fun_induction cutRelationFrom st depth s generalizing a rel b with
  | case1 => cases h
  | case2 st depth hif =>
    cases h
    simp only [Bool.and_eq_true, decide_eq_true_eq] at hif
    exact hif.2
  | case3 st depth hif =>
    cases h
    simp only [Bool.and_eq_true, decide_eq_true_eq] at hif
    exact hif.2
  | case4 => cases h
  | case5 => cases h
  | case6 st depth c d r hsign hpass ih =>
    obtain ⟨⟨x, y, z⟩, hp, he⟩ := Option.map_eq_some_iff.1 h
    cases he
    obtain ⟨rfl, rfl, hc⟩ := hzero hsign
    have hd : isInert d = true := by
      simp only [Bool.or_eq_true, Bool.and_eq_true, decide_eq_true_eq] at hpass
      rcases hpass with rfl | ⟨-, rfl⟩
      · exact hc
      · decide
    have hpair : ∀ e ∈ [c, d], isInert e = true := by simp [hc, hd]
    have hclosed : Quoting.code.after [c, d] = .code := (wellNested_of_inert hpair).closed
    show Quoting.code.depthFrom 0 ([c, d] ++ x) = 0
    rw [Quoting.depthFrom_append, depthFrom_inert hpair, hclosed]
    exact ih hp
  | case7 st depth c r hsign hpass =>
    cases h
    exact (hzero hsign).2.1
  | case8 st depth c d r hsign hpass heq =>
    cases h
    exact (hzero hsign).2.1
  | case9 st depth c d r hsign ih =>
    obtain ⟨⟨x, y, z⟩, hp, he⟩ := Option.map_eq_some_iff.1 h
    cases he
    exact ih hp

theorem WellNested.cutRelation {s a b : Text} {rel : Relation}
    (h : cutRelationFrom .code 0 s = some (a, rel, b)) (hs : WellNested s) :
    WellNested a ∧ WellNested b := by
  obtain ⟨ha, -⟩ := cutRelationFrom_closed h hs.closed
  have hsign : rel.text.all isInert = true := by cases rel <;> decide
  rw [← cutRelationFrom_append h, List.append_assoc] at hs
  exact hs.cut ha (depthFrom_cutRelationFrom h) hsign

/-! ### pairs of brackets -/

theorem bracketStep_of_isClosing {c : Char} (h : isClosing c = true) : bracketStep c = -1 := by
  have hopening : isOpening c = false := by
    rcases isClosing_cases h with rfl | rfl | rfl <;> decide
  rw [bracketStep, hopening, h]
  rfl

theorem bracketDepth_of_isClosing {c : Char} (h : isClosing c = true) : bracketDepth [c] = -1 := by
  show Quoting.code.depthAfter 0 c = -1
  rw [Quoting.depthAfter, if_pos rfl, bracketStep_of_isClosing h]
  rfl

theorem bracketStep_nonneg {c : Char} (h : isClosing c = false) : 0 ≤ bracketStep c := by
  rw [bracketStep, h]
  cases isOpening c <;> decide

/-- a bracket stays open until one is found that closes it -/
theorem one_le_depthAfter {st : Quoting} {depth : Int} {c : Char} (hdepth : 1 ≤ depth)
    (h : ¬(st = .code && isClosing c && st.depthAfter depth c = 0) = true) :
    1 ≤ st.depthAfter depth c := by
  unfold Quoting.depthAfter at h ⊢
  split
  case isFalse => exact hdepth
  case isTrue hcode =>
    cases hclosing : isClosing c with
    | true =>
      simp only [hcode, hclosing, bracketStep_of_isClosing hclosing, Bool.and_eq_true,
        decide_eq_true_eq, if_true, true_and] at h ⊢
      omega
    | false =>
      have hstep := bracketStep_nonneg hclosing
      omega

/-- up to the bracket that closes it, an open bracket stays open -/
theorem cutCloseFrom_depth {st : Quoting} {depth : Int} {s a b : Text} (hdepth : 1 ≤ depth)
    (h : cutCloseFrom st depth s = some (a, b)) :
    st.depthFrom depth a = 1 ∧ ∀ t, t <+: a → 1 ≤ st.depthFrom depth t := by
  induction s generalizing st depth a b with
  | nil => cases h
  | cons c r ih =>
    rw [cutCloseFrom] at h
    split at h
    case isTrue hif =>
      cases h
      simp only [Bool.and_eq_true, decide_eq_true_eq] at hif
      obtain ⟨⟨rfl, hclosing⟩, hzero⟩ := hif
      have hone : depth = 1 := by
        rw [Quoting.depthAfter, if_pos rfl, bracketStep_of_isClosing hclosing] at hzero
        omega
      refine ⟨hone, fun t ht => ?_⟩
      rw [List.prefix_nil.1 ht]
      exact hdepth
    case isFalse hif =>
      obtain ⟨⟨x, y⟩, hp, he⟩ := Option.map_eq_some_iff.1 h
      cases he
      obtain ⟨hends, habove⟩ := ih (one_le_depthAfter hdepth hif) hp
      refine ⟨hends, fun t ht => ?_⟩
      cases t with
      | nil => exact hdepth
      | cons d t =>
        obtain ⟨rfl, htail⟩ := List.cons_prefix_cons.1 ht
        exact habove t htail

section opening

variable {c : Char} (hc : isOpening c = true)
include hc

theorem isOpening_cases : c = '(' ∨ c = '[' ∨ c = '\x7b' := by
  simpa [isOpening, or_assoc] using hc

theorem cutClose_opening (s : Text) :
    cutClose (c :: s) = (cutCloseFrom .code 1 s).map fun p => (c :: p.1, p.2) := by
  rcases isOpening_cases hc with rfl | rfl | rfl <;> rfl

/-- what stands between a bracket and the one that closes it -/
theorem cutClose_wellNested {s a b : Text} (h : cutClose (c :: s) = some (a, b)) :
    ∃ inside, a = c :: inside ∧ WellNested inside := by
  rw [cutClose_opening hc] at h
  obtain ⟨⟨inside, rest⟩, hp, he⟩ := Option.map_eq_some_iff.1 h
  cases he
  obtain ⟨hends, habove⟩ := cutCloseFrom_depth (Int.le_refl 1) hp
  have hone : ∀ t, Quoting.code.depthFrom 1 t = 1 + bracketDepth t :=
    Quoting.depthFrom_add .code 0 1
  refine ⟨inside, rfl, (cutCloseFrom_closed hp).1, ?_, fun t ht => ?_⟩
  · rw [hone] at hends
    omega
  · have hdepth := habove t ht
    rw [hone] at hdepth
    omega

end opening

/-! ### fixed texts -/

/-- whether a text, read from a depth on, stays at `low` or above and ends at `final` -/
def checkNests (low final : Int) (st : Quoting) (depth : Int) : Text → Bool
  | [] => low ≤ depth && depth = final && st = .code
  | c :: r => low ≤ depth && checkNests low final (st.next c) (st.depthAfter depth c) r

theorem checkNests_spec {low final : Int} {st : Quoting} {depth : Int} {s : Text}
    (h : checkNests low final st depth s = true) :
    st.after s = .code ∧ st.depthFrom depth s = final ∧
      ∀ t, t <+: s → low ≤ st.depthFrom depth t := by
  induction s generalizing st depth with
  | nil =>
    simp only [checkNests, Bool.and_eq_true, decide_eq_true_eq] at h
    refine ⟨h.2, h.1.2, fun t ht => ?_⟩
    rw [List.prefix_nil.1 ht]
    exact h.1.1
  | cons c s ih =>
    simp only [checkNests, Bool.and_eq_true, decide_eq_true_eq] at h
    obtain ⟨hclosed, hends, habove⟩ := ih h.2
    refine ⟨hclosed, hends, fun t ht => ?_⟩
    cases t with
    | nil => exact h.1
    | cons d t =>
      obtain ⟨rfl, htail⟩ := List.cons_prefix_cons.1 ht
      exact habove t htail

theorem nests_of_check {low final : Int} {s : Text} (h : checkNests low final .code 0 s = true) :
    Nests low final s :=
  ⟨(checkNests_spec h).1, (checkNests_spec h).2.1, (checkNests_spec h).2.2⟩

/-- a text put in brackets; the closing one may be of any sort -/
theorem WellNested.brackets {s : Text} (hs : WellNested s) {c : Char} (hc : isClosing c = true) :
    WellNested ('(' :: (s ++ [c])) := by
  have hopen : Nests 0 1 ['('] := nests_of_check (by decide)
  have hclose : Nests (-1) (-1) [c] := by
    rcases isClosing_cases hc with rfl | rfl | rfl <;> exact nests_of_check (by decide)
  exact (hopen.append hs (by decide)).append hclose (by decide)

end ContractChecks
