import ContractChecks.Proofs.BracketDepth

/-!
# Scans of joined texts

What a scan finds in a text put together from two parts is what it finds in the first part, or else
what it finds in the second part from where it stands then.  No operator and no separator reaches
over a quotation mark, so this holds of every scan at the opening mark of a literal.

* `Quoting.InLiterals st s`: every character of `s` belongs to a literal; such a text is passed over
  by every scan (`cutCloseFrom_inLiterals` and so on);
* `cutCloseFrom_joined`, `cutRelationFrom_joined`, `cutAssignFrom_joined`: the first place of all is
  in the first part or in the second;
* `cutTopFrom_joined`: the pieces of both parts, where the last one of the first part goes on with
  the first one of the second;
* `join_cutTopFrom`, `cutAssignFrom_text`: nothing is lost by cutting.
-/

namespace ContractChecks

/-! ### literals are passed over -/

/-- every character of the text belongs to a literal -/
def Quoting.InLiterals (st : Quoting) : Text → Prop
  | [] => True
  | c :: r => (st ≠ .code ∨ isQuoteMark c = true) ∧ (st.next c).InLiterals r

/-- the text put in front of the first piece -/
def prependPiece (s : Text) : List Text → List Text
  | [] => [s]
  | p :: ps => (s ++ p) :: ps

theorem prependPiece_nil {ps : List Text} (h : ps ≠ []) : prependPiece [] ps = ps := by
  cases ps with
  | nil => exact absurd rfl h
  | cons p ps => rfl

theorem consPiece_prependPiece (c : Char) (s : Text) (ps : List Text) :
    consPiece c (prependPiece s ps) = prependPiece (c :: s) ps := by
  cases ps <;> rfl

section step

variable {st : Quoting} {c : Char} (hc : st ≠ .code ∨ isQuoteMark c = true)
include hc

theorem depthAfter_inLiteral (depth : Int) : st.depthAfter depth c = depth := by
  unfold Quoting.depthAfter
  split
  case isFalse => rfl
  case isTrue hst =>
    have hstep : bracketStep c = 0 := by
      rcases isQuoteMark_cases (hc.resolve_left fun hne => hne hst) with rfl | rfl | rfl <;> rfl
    rw [hstep, Int.add_zero]

/-- no test for a character outside literals succeeds -/
theorem not_code_and {p : Bool} (hp : isQuoteMark c = true → p = false) :
    (decide (st = .code) && p) = false := by
  rcases hc with hst | hquote
  · rw [decide_eq_false hst, Bool.false_and]
  · rw [hp hquote, Bool.and_false]

theorem cutCloseFrom_cons_inLiteral (depth : Int) (r : Text) :
    cutCloseFrom st depth (c :: r)
      = (cutCloseFrom (st.next c) depth r).map fun p => (c :: p.1, p.2) := by
  have htest := not_code_and hc (p := isClosing c) fun hquote => by
    rcases isQuoteMark_cases hquote with rfl | rfl | rfl <;> rfl
  rw [cutCloseFrom, htest, depthAfter_inLiteral hc]
  rfl

theorem cutRelationFrom_cons_inLiteral (depth : Int) (r : Text) :
    cutRelationFrom st depth (c :: r)
      = (cutRelationFrom (st.next c) depth r).map fun p => (c :: p.1, p.2) := by
  have htest : (st = .code && depth = 0 && (c = '<' || c = '>')) = false := by
    rw [Bool.and_assoc]
    refine not_code_and hc fun hquote => ?_
    rcases isQuoteMark_cases hquote with rfl | rfl | rfl <;> exact Bool.and_false _
  rw [cutRelationFrom_cons htest, depthAfter_inLiteral hc]

theorem cutAssignFrom_cons_inLiteral (depth : Int) (last : Option Char) (r : Text) :
    cutAssignFrom st depth last (c :: r)
      = (cutAssignFrom (st.next c) depth (some c) r).map fun p => (c :: p.1, p.2) := by
  have htest : (st = .code && depth = 0 && c = '=') = false := by
    rw [Bool.and_assoc]
    refine not_code_and hc fun hquote => ?_
    rcases isQuoteMark_cases hquote with rfl | rfl | rfl <;> exact Bool.and_false _
  cases r with
  | nil =>
    rw [cutAssignFrom, cutAssignFrom, htest]
    rfl
  | cons d r =>
    rw [cutAssignFrom, htest, depthAfter_inLiteral hc]
    rfl

theorem separates_inLiteral (sep : Text) (depth : Int) (r : Text) :
    separates sep st depth c r = false := by
  refine Bool.eq_false_iff.2 fun hsep => ?_
  obtain ⟨hst, hinert, -⟩ := separates_iff.1 hsep
  have hquote := hc.resolve_left fun hne => hne hst
  rw [(isInert_spec hinert).1] at hquote
  cases hquote

theorem cutTopFrom_cons_inLiteral (sep : Text) (depth : Int) (r : Text) :
    cutTopFrom sep st depth 0 (c :: r) = consPiece c (cutTopFrom sep (st.next c) depth 0 r) := by
  rw [cutTopFrom_passed (separates_inLiteral hc sep depth r), depthAfter_inLiteral hc]

end step

section run

variable {st : Quoting} {s : Text} (hs : st.InLiterals s)
include hs

theorem depthFrom_inLiterals (depth : Int) : st.depthFrom depth s = depth := by
  induction s generalizing st with
  | nil => rfl
  | cons c s ih => rw [Quoting.depthFrom_cons, depthAfter_inLiteral hs.1, ih hs.2]

theorem cutCloseFrom_inLiterals (depth : Int) (t : Text) :
    cutCloseFrom st depth (s ++ t)
      = (cutCloseFrom (st.after s) depth t).map fun p => (s ++ p.1, p.2) := by
  induction s generalizing st with
  | nil => exact Option.map_id'.symm
  | cons c s ih =>
    rw [List.cons_append, cutCloseFrom_cons_inLiteral hs.1, ih hs.2, Option.map_map]
    rfl

theorem cutRelationFrom_inLiterals (depth : Int) (t : Text) :
    cutRelationFrom st depth (s ++ t)
      = (cutRelationFrom (st.after s) depth t).map fun p => (s ++ p.1, p.2) := by
  induction s generalizing st with
  | nil => exact Option.map_id'.symm
  | cons c s ih =>
    rw [List.cons_append, cutRelationFrom_cons_inLiteral hs.1, ih hs.2, Option.map_map]
    rfl

theorem cutAssignFrom_inLiterals (depth : Int) (last : Option Char) (t : Text) :
    cutAssignFrom st depth last (s ++ t)
      = (cutAssignFrom (st.after s) depth (s.getLast?.or last) t).map fun p => (s ++ p.1, p.2) := by
  induction s generalizing st last with
  | nil => exact Option.map_id'.symm
  | cons c s ih =>
    have hlast : (c :: s).getLast?.or last = s.getLast?.or (some c) := by
      rw [List.getLast?_cons]
      cases s.getLast? <;> rfl
    rw [List.cons_append, cutAssignFrom_cons_inLiteral hs.1, ih hs.2, Option.map_map, hlast]
    rfl

theorem cutTopFrom_inLiterals (sep : Text) (depth : Int) (t : Text) :
    cutTopFrom sep st depth 0 (s ++ t)
      = prependPiece s (cutTopFrom sep (st.after s) depth 0 t) := by
  induction s generalizing st with
  | nil => exact (prependPiece_nil (cutTopFrom_ne_nil _ _ _ _ _)).symm
  | cons c s ih =>
    rw [List.cons_append, cutTopFrom_cons_inLiteral hs.1, ih hs.2, consPiece_prependPiece]
    rfl

end run

/-! ### the first place in a joined text -/

theorem cutCloseFrom_joined (st : Quoting) (depth : Int) (s t : Text) :
    cutCloseFrom st depth (s ++ t)
      = ((cutCloseFrom st depth s).map fun p => (p.1, p.2 ++ t)).or
          ((cutCloseFrom (st.after s) (st.depthFrom depth s) t).map fun p => (s ++ p.1, p.2)) := by
  induction s generalizing st depth with
  | nil => exact Option.map_id'.symm
  | cons c s ih =>
    rw [List.cons_append, cutCloseFrom, cutCloseFrom]
    split
    · rfl
    · rw [ih, Option.map_or, Option.map_map, Option.map_map, Option.map_map]
      rfl

/-- characters other than quotation marks and brackets leave a scan where it stands -/
theorem after_inert {s : Text} (h : ∀ c ∈ s, isInert c = true) (depth : Int) (r : Text) :
    Quoting.code.after (s ++ r) = Quoting.code.after r ∧
      Quoting.code.depthFrom depth (s ++ r) = Quoting.code.depthFrom depth r := by
  have hclosed := (wellNested_of_inert h).closed
  rw [Quoting.after_append, Quoting.depthFrom_append, hclosed.after_eq, depthFrom_inert h]
  exact ⟨rfl, rfl⟩

section quoted

variable {q : Char} (hq : isQuoteMark q = true)
include hq

theorem cutRelationFrom_joined (st : Quoting) (depth : Int) (s t : Text) :
    cutRelationFrom st depth (s ++ q :: t)
      = ((cutRelationFrom st depth s).map fun p => (p.1, p.2.1, p.2.2 ++ q :: t)).or
          ((cutRelationFrom (st.after s) (st.depthFrom depth s) (q :: t)).map
            fun p => (s ++ p.1, p.2)) := by
  have hsign : q ≠ '<' ∧ q ≠ '>' ∧ q ≠ '-' ∧ q ≠ '=' := by
    rcases isQuoteMark_cases hq with rfl | rfl | rfl <;> decide
  fun_induction cutRelationFrom st depth s with
  | case1 => exact Option.map_id'.symm
  | case2 st depth hcode =>
    rw [List.singleton_append, cutRelationFrom]
    simp [hcode, hsign]
  | case3 st depth hcode hlt =>
    rw [List.singleton_append, cutRelationFrom]
    simp [hcode, hsign]
  | case4 st depth c hcode hlt hgt =>
    rw [List.singleton_append, cutRelationFrom, if_neg (by simp [hlt, hgt])]
    rfl
  | case5 st depth c hcode =>
    rw [List.singleton_append, cutRelationFrom, if_neg (by simp [hcode])]
    rfl
  | case6 st depth c d r hif hpass ih =>
    rw [List.cons_append, List.cons_append, cutRelationFrom, if_pos hif, if_pos hpass, ih,
      Option.map_or, Option.map_map, Option.map_map, Option.map_map]
    -- a shift or an arrow is passed over, which leaves the scan where it stands
    simp only [Bool.and_eq_true, Bool.or_eq_true, decide_eq_true_eq] at hif hpass
    obtain ⟨⟨rfl, rfl⟩, hc⟩ := hif
    have hpair : ∀ e ∈ [c, d], isInert e = true := by
      rcases hc with rfl | rfl <;> rcases hpass with rfl | ⟨hlt, rfl⟩ <;> simp <;> decide
    obtain ⟨hafter, hdepth⟩ := after_inert hpair 0 r
    rw [show c :: d :: r = [c, d] ++ r from rfl, hafter, hdepth]
    rfl
  | case7 st depth c r hif hpass =>
    rw [List.cons_append, List.cons_append, cutRelationFrom, if_pos hif, if_neg hpass, if_pos rfl]
    rfl
  | case8 st depth c d r hif hpass heq =>
    rw [List.cons_append, List.cons_append, cutRelationFrom, if_pos hif, if_neg hpass, if_neg heq]
    rfl
  | case9 st depth c d r hif ih =>
    rw [List.cons_append, List.cons_append, cutRelationFrom, if_neg hif, ← List.cons_append, ih,
      Option.map_or, Option.map_map, Option.map_map, Option.map_map]
    rfl

/-- before a quotation mark, it does not matter what stands before the text -/
theorem cutAssignFrom_quoted (st : Quoting) (depth : Int) (last last' : Option Char) (t : Text) :
    cutAssignFrom st depth last (q :: t) = cutAssignFrom st depth last' (q :: t) := by
  rw [cutAssignFrom_cons_inLiteral (.inr hq), cutAssignFrom_cons_inLiteral (.inr hq)]

theorem cutAssignFrom_joined (st : Quoting) (depth : Int) (last : Option Char) (s t : Text) :
    cutAssignFrom st depth last (s ++ q :: t)
      = ((cutAssignFrom st depth last s).map fun p => (p.1, p.2 ++ q :: t)).or
          ((cutAssignFrom (st.after s) (st.depthFrom depth s) none (q :: t)).map
            fun p => (s ++ p.1, p.2)) := by
  have hsign : q ≠ '=' := by rcases isQuoteMark_cases hq with rfl | rfl | rfl <;> decide
  fun_induction cutAssignFrom st depth last s with
  | case1 =>
    rw [List.nil_append, cutAssignFrom_quoted hq _ _ _ none]
    exact Option.map_id'.symm
  | case2 st depth last c hif =>
    simp only [Bool.and_eq_true, Bool.not_eq_true'] at hif
    rw [List.singleton_append, cutAssignFrom, if_pos (by simpa using hif.1), if_neg hsign,
      if_neg (by simp [hif.2])]
    rfl
  | case3 st depth last c hif =>
    rw [List.singleton_append, cutAssignFrom]
    by_cases hsigned : (st = .code && depth = 0 && c = '=') = true
    · rw [hsigned, Bool.true_and, Bool.not_eq_true', Bool.not_eq_false] at hif
      rw [if_pos hsigned, if_neg hsign, if_pos hif, cutAssignFrom_quoted hq _ _ _ none]
      simp only [Bool.and_eq_true, decide_eq_true_eq] at hsigned
      obtain ⟨⟨rfl, rfl⟩, rfl⟩ := hsigned
      rfl
    · rw [if_neg hsigned, cutAssignFrom_quoted hq _ _ _ none]
      rfl
  | case4 st depth last c r hif ih =>
    rw [List.cons_append, List.cons_append, cutAssignFrom, if_pos hif, if_pos rfl, ih,
      Option.map_or, Option.map_map, Option.map_map, Option.map_map]
    simp only [Bool.and_eq_true, decide_eq_true_eq] at hif
    obtain ⟨⟨rfl, rfl⟩, rfl⟩ := hif
    rfl
  | case5 st depth last c d r hif hd hlast ih =>
    rw [List.cons_append, List.cons_append, cutAssignFrom, if_pos hif, if_neg hd, if_pos hlast,
      ← List.cons_append, ih, Option.map_or, Option.map_map, Option.map_map, Option.map_map]
    simp only [Bool.and_eq_true, decide_eq_true_eq] at hif
    obtain ⟨⟨rfl, rfl⟩, rfl⟩ := hif
    rfl
  | case6 st depth last c d r hif hd hlast =>
    rw [List.cons_append, List.cons_append, cutAssignFrom, if_pos hif, if_neg hd, if_neg hlast]
    rfl
  | case7 st depth last c d r hif ih =>
    rw [List.cons_append, List.cons_append, cutAssignFrom, if_neg hif, ← List.cons_append, ih,
      Option.map_or, Option.map_map, Option.map_map, Option.map_map]
    rfl

end quoted

theorem cutAssignFrom_text {st : Quoting} {depth : Int} {last : Option Char} {s a b : Text}
    (h : cutAssignFrom st depth last s = some (a, b)) : a ++ '=' :: b = s := by
  fun_induction cutAssignFrom st depth last s generalizing a b with
  | case1 => cases h
  | case2 st depth last c hif =>
    cases h
    simp only [Bool.and_eq_true, decide_eq_true_eq] at hif
    rw [hif.1.2]
    rfl
  | case3 => cases h
  | case4 st depth last c r hif ih =>
    obtain ⟨⟨x, y⟩, hp, he⟩ := Option.map_eq_some_iff.1 h
    cases he
    rw [List.cons_append, List.cons_append, ih hp]
  | case5 st depth last c d r hif hd hlast ih =>
    obtain ⟨⟨x, y⟩, hp, he⟩ := Option.map_eq_some_iff.1 h
    cases he
    rw [List.cons_append, ih hp]
  | case6 st depth last c d r hif hd hlast =>
    cases h
    simp only [Bool.and_eq_true, decide_eq_true_eq] at hif
    rw [hif.2]
    rfl
  | case7 st depth last c d r hif ih =>
    obtain ⟨⟨x, y⟩, hp, he⟩ := Option.map_eq_some_iff.1 h
    cases he
    rw [List.cons_append, ih hp]

/-! ### the pieces of a joined text -/

/-- a separator does not reach over a character that it does not have -/
theorem isPrefixOf_append_of_not_mem {q : Char} {sep : Text} (h : q ∉ sep) (s t : Text) :
    sep.isPrefixOf (s ++ q :: t) = sep.isPrefixOf s := by
  induction sep generalizing s with
  | nil => cases s <;> rfl
  | cons d sep ih =>
    rw [List.mem_cons, not_or] at h
    cases s with
    | nil =>
      rw [List.nil_append, List.isPrefixOf_cons_cons, beq_eq_false_iff_ne.2 fun heq => h.1 heq.symm]
      rfl
    | cons c s =>
      rw [List.cons_append, List.isPrefixOf_cons_cons, List.isPrefixOf_cons_cons, ih h.2]

/-- a separator without quotation marks leaves no literal open -/
theorem after_drop_sep {sep : Text} (hsep : ∀ d ∈ sep, isQuoteMark d = false) {c : Char} {r : Text}
    (hquote : isQuoteMark c = false) (hinit : sep <+: c :: r) :
    Quoting.code.after (c :: r) = Quoting.code.after (r.drop (sep.length - 1)) := by
  have hpassed : LiteralsClosed (c :: r.take (sep.length - 1)) := by
    refine literalsClosed_of_noQuote (List.forall_mem_cons.2 ⟨hquote, fun d hd => ?_⟩)
    exact hsep d (mem_sep_of_take hinit hd)
  conv_lhs => rw [← List.take_append_drop (sep.length - 1) r, ← List.cons_append,
    Quoting.after_append]
  exact congrArg (Quoting.after · _) hpassed

/-- Between the parts the scan stands where it stands after the first part, at a depth for which the
brackets in separators do not count. -/
theorem cutTopFrom_joined {sep : Text} (hsep : ∀ d ∈ sep, isQuoteMark d = false) (st : Quoting)
    (depth : Int) (s : Text) :
    ∃ init front depth', cutTopFrom sep st depth 0 s = init ++ [front] ∧
      ∀ q t, isQuoteMark q = true → cutTopFrom sep st depth 0 (s ++ q :: t)
        = init ++ prependPiece front (cutTopFrom sep (st.after s) depth' 0 (q :: t)) := by
  match s with
  | [] =>
    exact ⟨[], [], depth, rfl, fun q t _ => (prependPiece_nil (cutTopFrom_ne_nil _ _ _ _ _)).symm⟩
  | c :: r =>
    have hreach : ∀ q t, isQuoteMark q = true →
        separates sep st depth c (r ++ q :: t) = separates sep st depth c r := by
      intro q t hq
      have hmem : q ∉ sep := by
        intro hmem
        rw [hsep q hmem] at hq
        cases hq
      rw [separates, ← List.cons_append, isPrefixOf_append_of_not_mem hmem]
      rfl
    by_cases hcut : (!sep.isEmpty && separates sep st depth c r) = true
    · obtain ⟨init, front, depth', hself, hjoined⟩ :=
        cutTopFrom_joined hsep .code 0 (r.drop (sep.length - 1))
      refine ⟨[] :: init, front, depth', ?_, fun q t hq => ?_⟩
      · rw [cutTopFrom, if_pos hcut, cutTopFrom_skip, hself]
        rfl
      · rw [List.cons_append, cutTopFrom, hreach q t hq, if_pos hcut, cutTopFrom_skip]
        obtain ⟨rfl, hinert, -, hinit⟩ := separates_iff.1 (Bool.and_eq_true_iff.1 hcut).2
        have hquote := (isInert_spec hinert).1
        have hlen := hinit.length_le
        rw [List.length_cons] at hlen
        rw [List.drop_append_of_le_length (by omega), hjoined q t hq,
          after_drop_sep hsep hquote hinit]
        rfl
    · obtain ⟨init, front, depth', hself, hjoined⟩ :=
        cutTopFrom_joined hsep (st.next c) (st.depthAfter depth c) r
      have hstep : ∀ t, separates sep st depth c t = separates sep st depth c r →
          cutTopFrom sep st depth 0 (c :: t)
            = consPiece c (cutTopFrom sep (st.next c) (st.depthAfter depth c) 0 t) := by
        intro t ht
        rw [cutTopFrom, ht, if_neg hcut]
      cases init with
      | nil =>
        refine ⟨[], c :: front, depth', ?_, fun q t hq => ?_⟩
        · rw [hstep r rfl, hself]
          rfl
        · rw [List.cons_append, hstep (r ++ q :: t) (hreach q t hq), hjoined q t hq,
            List.nil_append, List.nil_append, consPiece_prependPiece]
          rfl
      | cons p ps =>
        refine ⟨(c :: p) :: ps, front, depth', ?_, fun q t hq => ?_⟩
        · rw [hstep r rfl, hself]
          rfl
        · rw [List.cons_append, hstep (r ++ q :: t) (hreach q t hq), hjoined q t hq]
          rfl
termination_by s.length
decreasing_by
  · simp only [List.length_drop, List.length_cons]
    omega
  · simp

theorem join_cutTopFrom (sep : Text) (st : Quoting) (depth : Int) (s : Text) :
    Text.join sep (cutTopFrom sep st depth 0 s) = s := by
  cases hcut : cutTopFrom sep st depth 0 s with
  | nil => exact absurd hcut (cutTopFrom_ne_nil _ _ _ _ _)
  | cons p ps =>
    rcases cutTopFrom_cases hcut with ⟨rfl, rfl⟩ | ⟨t, hne, hs, -, rfl⟩
    · exact Text.join_singleton sep p
    · have hlen : t.length < s.length := by
        have hpos := List.length_pos_iff.2 hne
        rw [hs, List.length_append, List.length_append]
        omega
      have hrest := join_cutTopFrom sep .code 0 t
      cases htail : cutTop sep t with
      | nil => exact absurd htail (cutTopFrom_ne_nil _ _ _ _ _)
      | cons p' ps' =>
        rw [Text.join_cons_cons, ← htail, hs]
        exact congrArg (fun u => p ++ (sep ++ u)) hrest
termination_by s.length

end ContractChecks
