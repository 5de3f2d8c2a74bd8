import Mathlib.Data.List.Infix
import ContractChecks.Proofs.LexemeBoundary
import ContractChecks.Source.Bracket
import ContractChecks.Source.Operator

/-!
# Pieces of a text with closed literals

Separators, brackets and relations are found outside literals only, so every piece of a text whose
literals are closed has closed literals itself.

* `LiteralsClosed.of_append_right`: nothing but a quotation mark closes a literal;
* `cutTopFrom_cases`: the first piece before a separator;
* `cutClose_closed`: the text up to a closing bracket;
* `cutRelationFrom_closed`: both sides of a relation.
-/

namespace ContractChecks

theorem LiteralsClosed.of_append_right {a b : Text} (h : LiteralsClosed (a ++ b))
    (hb : ∀ c ∈ b, isQuoteMark c = false) : LiteralsClosed a := by
  unfold LiteralsClosed at h
  rw [Quoting.after_append] at h
  have hproper : Quoting.code.Proper := trivial
  exact eq_code_of_after (hproper.after a) hb h

/-! ### trimming -/

theorem LiteralsClosed.trim {s : Text} (h : LiteralsClosed s) : LiteralsClosed s.trim := by
  have hstart : LiteralsClosed (Text.trimStart s) :=
    h.dropWhile fun _ => not_isQuoteMark_of_isBlank
  obtain ⟨u, hu, hblank⟩ := exists_append_of_dropWhile_reverse isBlank (Text.trimStart s)
  rw [← hu] at hstart
  exact hstart.of_append_right fun c hc => not_isQuoteMark_of_isBlank (hblank c hc)

/-! ### brackets -/

theorem not_isQuoteMark_of_isClosing {c : Char} (h : isClosing c = true) :
    isQuoteMark c = false := by
  cases hq : isQuoteMark c with
  | false => rfl
  | true => rcases isQuoteMark_cases hq with rfl | rfl | rfl <;> revert h <;> decide

theorem isClosing_cases {c : Char} (h : isClosing c = true) : c = ')' ∨ c = ']' ∨ c = '\x7d' := by
  simpa [isClosing, or_assoc] using h

theorem isMark_of_isClosing {c : Char} (h : isClosing c = true) :
    isMark c = true ∧ isLayout c = false := by
  rcases isClosing_cases h with rfl | rfl | rfl <;> decide

theorem cutCloseFrom_closed {st : Quoting} {depth : Int} {s a b : Text}
    (h : cutCloseFrom st depth s = some (a, b)) :
    st.after a = .code ∧ ∃ c r, b = c :: r ∧ isClosing c = true := by
  induction s generalizing st depth a b with
  | nil => cases h
  | cons c r ih =>
    rw [cutCloseFrom] at h
    split at h
    case isTrue hif =>
      cases h
      simp only [Bool.and_eq_true, decide_eq_true_eq] at hif
      exact ⟨hif.1.1, c, r, rfl, hif.1.2⟩
    case isFalse =>
      obtain ⟨⟨x, y⟩, hp, he⟩ := Option.map_eq_some_iff.1 h
      cases he
      exact ih (a := x) hp

theorem cutClose_closed {s a b : Text} (h : cutClose s = some (a, b)) :
    LiteralsClosed a ∧ ∃ c r, b = c :: r ∧ isClosing c = true :=
  cutCloseFrom_closed h

/-! ### separators -/

theorem mem_sep_of_take {sep : Text} {c d : Char} {r : Text} (hinit : sep <+: c :: r)
    (hd : d ∈ r.take (sep.length - 1)) : d ∈ sep := by
  obtain ⟨u, hu⟩ := hinit
  cases sep with
  | nil => cases hd
  | cons e sep =>
    rw [List.cons_append] at hu
    rw [← (List.cons.inj hu).2] at hd
    have htake : (sep ++ u).take ((e :: sep).length - 1) = sep := by simp
    rw [htake] at hd
    exact List.mem_cons_of_mem e hd

theorem cutTopFrom_ne_nil (sep : Text) (st : Quoting) (depth : Int) (skip : Nat) (s : Text) :
    cutTopFrom sep st depth skip s ≠ [] := by
  induction s generalizing st depth skip with
  | nil => exact List.cons_ne_nil _ _
  | cons c r ih =>
    cases skip with
    | succ k => exact ih .code depth k
    | zero =>
      rw [cutTopFrom]
      split
      · exact List.cons_ne_nil _ _
      · cases cutTopFrom sep (st.next c) (st.depthAfter depth c) 0 r <;> exact List.cons_ne_nil _ _

/-- the characters of a separator are passed over -/
theorem cutTopFrom_skip (sep : Text) (depth : Int) (k : Nat) (s : Text) :
    cutTopFrom sep .code depth k s = cutTopFrom sep .code depth 0 (s.drop k) := by
  induction s generalizing k with
  | nil =>
    rw [List.drop_nil]
    rfl
  | cons c r ih =>
    cases k with
    | zero => rfl
    | succ k => exact ih k

theorem cutTopFrom_separated {sep : Text} (hne : sep ≠ []) {st : Quoting} {depth : Int} {c : Char}
    {r : Text} (h : separates sep st depth c r = true) :
    cutTopFrom sep st depth 0 (c :: r) = [] :: cutTop sep ((c :: r).drop sep.length) := by
  obtain ⟨d, sep, rfl⟩ := List.exists_cons_of_ne_nil hne
  have hif : (!(d :: sep).isEmpty && separates (d :: sep) st depth c r) = true := h
  rw [cutTopFrom, if_pos hif, cutTopFrom_skip]
  rfl

theorem cutTopFrom_passed {sep : Text} {st : Quoting} {depth : Int} {c : Char} {r : Text}
    (h : separates sep st depth c r = false) :
    cutTopFrom sep st depth 0 (c :: r)
      = consPiece c (cutTopFrom sep (st.next c) (st.depthAfter depth c) 0 r) := by
  rw [cutTopFrom, h, Bool.and_false]
  rfl

/-- the first piece is the whole text, or a separator outside literals follows it -/
theorem cutTopFrom_cases {sep : Text} {st : Quoting} {depth : Int} {s p : Text} {ps : List Text}
    (h : cutTopFrom sep st depth 0 s = p :: ps) :
    (p = s ∧ ps = []) ∨
      ∃ t, sep ≠ [] ∧ s = p ++ (sep ++ t) ∧ st.after p = .code ∧ ps = cutTop sep t := by
  induction s generalizing st depth p with
  | nil =>
    cases h
    exact .inl ⟨rfl, rfl⟩
  | cons c r ih =>
    rw [cutTopFrom] at h
    split at h
    case isTrue hif =>
      obtain ⟨hsome, hsep⟩ := Bool.and_eq_true_iff.1 hif
      obtain ⟨rfl, -, -, t, ht⟩ := separates_iff.1 hsep
      cases h
      right
      cases sep with
      | nil => cases hsome
      | cons d sep =>
        refine ⟨t, List.cons_ne_nil d sep, ht.symm, rfl, ?_⟩
        rw [cutTopFrom_skip]
        rw [List.cons_append] at ht
        rw [← (List.cons.inj ht).2, List.length_cons, Nat.add_sub_cancel, List.drop_left]
        rfl
    case isFalse =>
      cases hcut : cutTopFrom sep (st.next c) (st.depthAfter depth c) 0 r with
      | nil => exact absurd hcut (cutTopFrom_ne_nil _ _ _ _ _)
      | cons q qs =>
        rw [hcut] at h
        cases h
        rcases ih hcut with ⟨rfl, rfl⟩ | ⟨t, hne, rfl, hq, rfl⟩
        · exact .inl ⟨rfl, rfl⟩
        · exact .inr ⟨t, hne, rfl, hq, rfl⟩

/-- marks that are no layout -/
def isSeparator (sep : Text) : Bool := !sep.isEmpty && sep.all fun c => isMark c && !isLayout c

theorem isSeparator_spec {sep : Text} (h : isSeparator sep = true) :
    sep ≠ [] ∧ ∀ c ∈ sep, isMark c = true ∧ isLayout c = false := by
  rw [isSeparator, Bool.and_eq_true, List.all_eq_true] at h
  refine ⟨fun hnil => ?_, fun c hc => ?_⟩
  · rw [hnil] at h
    cases h.1
  · have hboth := h.2 c hc
    rw [Bool.and_eq_true, Bool.not_eq_true'] at hboth
    exact hboth

/-- no character but those of separators is lost between the pieces -/
theorem mem_cutTopFrom {sep : Text} (st : Quoting) (depth : Int) (skip : Nat) {s : Text}
    (hskip : ∀ c ∈ s.take skip, c ∈ sep) {d : Char} (hd : d ∉ sep) (h : d ∈ s) :
    ∃ p ∈ cutTopFrom sep st depth skip s, d ∈ p := by
  induction s generalizing st depth skip with
  | nil => cases h
  | cons c r ih =>
    cases skip with
    | succ k =>
      have hc : d ≠ c := by
        rintro rfl
        exact hd (hskip d List.mem_cons_self)
      have hr : d ∈ r := (List.mem_cons.1 h).resolve_left hc
      exact ih .code depth k (fun e he => hskip e (List.mem_cons_of_mem c he)) hr
    | zero =>
      rw [cutTopFrom]
      split
      case isTrue hif =>
        obtain ⟨hsome, hsep⟩ := Bool.and_eq_true_iff.1 hif
        obtain ⟨-, -, -, hinit⟩ := separates_iff.1 hsep
        have hc : d ≠ c := by
          rintro rfl
          obtain ⟨u, hu⟩ := hinit
          cases sep with
          | nil => cases hsome
          | cons e sep =>
            cases hu
            exact hd List.mem_cons_self
        obtain ⟨p, hp, hdp⟩ := ih .code 0 (sep.length - 1)
          (fun e he => mem_sep_of_take hinit he) ((List.mem_cons.1 h).resolve_left hc)
        exact ⟨p, List.mem_cons_of_mem _ hp, hdp⟩
      case isFalse =>
        rcases List.mem_cons.1 h with rfl | hr
        · cases cutTopFrom sep (st.next d) (st.depthAfter depth d) 0 r with
          | nil => exact ⟨[d], List.mem_cons_self, List.mem_cons_self⟩
          | cons p ps => exact ⟨d :: p, List.mem_cons_self, List.mem_cons_self⟩
        · obtain ⟨p, hp, hdp⟩ := ih (st.next c) (st.depthAfter depth c) 0 (by simp) hr
          cases hcut : cutTopFrom sep (st.next c) (st.depthAfter depth c) 0 r with
          | nil =>
            rw [hcut] at hp
            cases hp
          | cons q qs =>
            rw [hcut] at hp
            rcases List.mem_cons.1 hp with rfl | hp
            · exact ⟨c :: p, List.mem_cons_self, List.mem_cons_of_mem c hdp⟩
            · exact ⟨p, List.mem_cons_of_mem _ hp, hdp⟩

/-- a list of names holds commas, blanks and characters of names -/
theorem isNamePart_of_mem_names {lhs : Text} (h : (splitTop "," lhs).all isName = true) {d : Char}
    (hd : d ∈ lhs) (hcomma : d ∉ (",".toList)) (hblank : isBlank d = false) :
    isNamePart d = true := by
  obtain ⟨p, hp, hdp⟩ := mem_cutTopFrom .code 0 0 (by simp) hcomma hd
  have hname := List.all_eq_true.1 h p.trim (List.mem_map_of_mem hp)
  exact isNamePart_of_isName hname d (Text.mem_trim hblank hdp)

/-- what stands before and after a separator found anywhere -/
theorem cut?_append {sep s : Text} {p : Text × Text} (h : Text.cut? sep s = some p) :
    s = p.1 ++ (sep ++ p.2) := by
  induction s generalizing p with
  | nil =>
    rw [Text.cut?] at h
    split at h
    case isTrue hempty =>
      cases h
      rw [List.isEmpty_iff.1 hempty]
      rfl
    case isFalse => cases h
  | cons c r ih =>
    rw [Text.cut?] at h
    split at h
    case isTrue hinit =>
      cases h
      exact List.prefix_append_drop (List.isPrefixOf_iff_prefix.1 hinit)
    case isFalse =>
      obtain ⟨q, hq, rfl⟩ := Option.map_eq_some_iff.1 h
      rw [ih hq]
      rfl

/-! ### relations -/

theorem relationSign_spec {st : Quoting} {depth : Int} {c : Char}
    (h : (st = .code && depth = 0 && (c = '<' || c = '>')) = true) :
    st = .code ∧ isQuoteMark c = false := by
  simp only [Bool.and_eq_true, Bool.or_eq_true, decide_eq_true_eq] at h
  refine ⟨h.1.1, ?_⟩
  rcases h.2 with rfl | rfl <;> decide

theorem cutRelationFrom_closed {st : Quoting} {depth : Int} {s a b : Text} {rel : Relation}
    (h : cutRelationFrom st depth s = some (a, rel, b)) (hs : st.after s = .code) :
    st.after a = .code ∧ LiteralsClosed b := by
  fun_induction cutRelationFrom st depth s generalizing a rel b with
  | case1 => cases h
  | case2 st depth hif =>
    cases h
    simp only [Bool.and_eq_true, decide_eq_true_eq] at hif
    exact ⟨hif.1, literalsClosed_nil⟩
  | case3 st depth hif =>
    cases h
    simp only [Bool.and_eq_true, decide_eq_true_eq] at hif
    exact ⟨hif.1, literalsClosed_nil⟩
  | case4 => cases h
  | case5 => cases h
  | case6 st depth c d r hsign hpass ih =>
    obtain ⟨⟨x, y, z⟩, hp, he⟩ := Option.map_eq_some_iff.1 h
    cases he
    obtain ⟨rfl, hc⟩ := relationSign_spec hsign
    have hd : isQuoteMark d = false := by
      simp only [Bool.or_eq_true, Bool.and_eq_true, decide_eq_true_eq] at hpass
      rcases hpass with rfl | ⟨-, rfl⟩
      · exact hc
      · decide
    rw [Quoting.after_cons, Quoting.after_cons, next_code hc, next_code hd] at hs ⊢
    exact ih hp hs
  | case7 st depth c r hsign hpass =>
    cases h
    obtain ⟨rfl, hc⟩ := relationSign_spec hsign
    rw [Quoting.after_cons, Quoting.after_cons, next_code hc, next_code (by decide)] at hs
    exact ⟨rfl, hs⟩
  | case8 st depth c d r hsign hpass heq =>
    cases h
    obtain ⟨rfl, hc⟩ := relationSign_spec hsign
    rw [Quoting.after_cons, next_code hc] at hs
    exact ⟨rfl, hs⟩
  | case9 st depth c d r hsign ih =>
    obtain ⟨⟨x, y, z⟩, hp, he⟩ := Option.map_eq_some_iff.1 h
    cases he
    exact ih hp hs

end ContractChecks
