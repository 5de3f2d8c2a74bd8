import ContractChecks.Proofs.CaptureOrder
import ContractChecks.Proofs.NameOccurrences

/-!
# Names as whole words

Texts that are put together from arbitrary parts, such as the call of a method, need not be cut into
lexemes where the parts meet.  Still a name among their lexemes is a whole word of the characters,
and a whole word lies on one side of every other character.

* `StandsIn n s`: `n` occurs in `s` with no name character next to it;
* `standsIn_of_mem_namesIn`: the names of a text stand in it;
* `StandsIn.split`, `StandsIn.of_stem`, `StandsIn.of_join`: where a name stands in a text that is
  put together.
-/

namespace ContractChecks

def StandsIn (n s : Text) : Prop :=
  ∃ a b, s = a ++ (n ++ b) ∧ (∀ c ∈ a.getLast?, isNamePart c = false) ∧ EndsName b

/-! ### lexemes before a name -/

theorem getLast?_literalTail {q : Char} {s : Text} (h : (literalTail q s).2 ≠ []) :
    (literalTail q s).1.getLast? = some q := by
  fun_induction literalTail q s with
  | case1 => exact absurd rfl h
  | case2 c => exact absurd rfl h
  | case3 c d r hesc p ih =>
    have hlast := ih h
    show (c :: d :: p.1).getLast? = some q
    rw [List.getLast?_cons, List.getLast?_cons, hlast]
    rfl
  | case4 d r hesc => rfl
  | case5 c d r hesc hc p ih =>
    have hlast := ih h
    show (c :: p.1).getLast? = some q
    rw [List.getLast?_cons, hlast]
    rfl

/-- no name starts right after a name character -/
theorem getLast?_firstLexeme {c d : Char} {r t : Text} (hrest : (firstLexeme c r).2 = d :: t)
    (hd : isNamePart d = true) :
    ∀ e ∈ (firstLexeme c r).1.text.getLast?, isNamePart e = false := by
  have hstop : ∀ {p : Char → Bool}, p d = true → r.dropWhile p ≠ d :: t := by
    intro p hp heq
    have hnot := List.head?_dropWhile_not p r
    rw [heq] at hnot
    change p d = false at hnot
    rw [hp] at hnot
    cases hnot
  unfold firstLexeme at *
  by_cases hquote : isQuoteMark c = true
  · rw [if_pos hquote] at *
    have hne : (literalTail c r).2 ≠ [] := by
      intro hnil
      rw [hnil] at hrest
      cases hrest
    intro e he
    change (c :: (literalTail c r).1).getLast? = some e at he
    rw [List.getLast?_cons, getLast?_literalTail hne] at he
    obtain rfl : c = e := Option.some.inj he
    cases hpart : isNamePart c with
    | false => rfl
    | true =>
      rw [not_isQuoteMark_of_isNamePart hpart] at hquote
      cases hquote
  rw [if_neg hquote] at *
  split at hrest
  · exact absurd hrest (hstop hd)
  split at hrest
  · exact absurd hrest (hstop hd)
  split at hrest
  · exact absurd hrest (hstop (isNumberPart_of_isNamePart hd))
  · rename_i hkey hstart hdigit
    rw [if_neg hkey, if_neg hstart, if_neg hdigit]
    intro e he
    obtain rfl : c = e := Option.some.inj he
    rw [isNamePart, eq_false_of_ne_true hstart, eq_false_of_ne_true hdigit]
    rfl

theorem standsIn_of_lexeme {n s : Text} (hn : isName n = true) (h : .name n ∈ lexemes s) :
    StandsIn n s := by
  fun_induction lexemes s with
  | case1 => cases h
  | case2 c r ih =>
    have happend := firstLexeme_append c r
    rcases List.mem_cons.1 h with h | h
    · refine ⟨[], (firstLexeme c r).2, ?_, by simp, ?_⟩
      · rw [← happend, ← h]
        rfl
      · unfold firstLexeme at h ⊢
        split at h
        · cases h
        split at h
        · cases h
        split at h
        · rename_i hquote hkey hstart
          rw [if_neg hquote, if_neg hkey, if_pos hstart]
          exact endsName_dropWhile r
        split at h <;> cases h
    · obtain ⟨a, b, heq, hlast, hend⟩ := ih h
      refine ⟨(firstLexeme c r).1.text ++ a, b, ?_, ?_, hend⟩
      · rw [List.append_assoc, ← heq, happend]
      · cases a with
        | cons e a =>
          rw [List.getLast?_append]
          intro d hd
          refine hlast d ?_
          simpa using hd
        | nil =>
          -- the name follows the lexeme at once
          cases n with
          | nil => cases hn
          | cons d n =>
            rw [List.append_nil]
            exact getLast?_firstLexeme heq (isNamePart_of_isName hn d List.mem_cons_self)

theorem standsIn_of_mem_namesIn {n s : Text} (hn : isName n = true) (h : n ∈ namesIn s) :
    StandsIn n s := by
  obtain ⟨l, hl, hword⟩ := List.mem_filterMap.1 (mem_words_of_mem_namesIn h)
  cases l with
  | name raw =>
    cases hword
    exact standsIn_of_lexeme hn hl
  | keyword raw =>
    cases hword
    obtain ⟨w, rfl⟩ := keyword_of_mem_lexemes hl
    exact absurd hn (not_isName_keyword w)
  | literal raw => cases hword
  | number raw => cases hword
  | other c => cases hword

/-! ### texts put together -/

theorem EndsName.of_append {s t : Text} (h : EndsName (s ++ t)) : EndsName s :=
  h.mono (List.prefix_append s t)

/-- a whole word lies on one side of a character that is not in it -/
theorem StandsIn.split {n x y : Text} {c : Char} (hne : n ≠ []) (hc : c ∉ n)
    (h : StandsIn n (x ++ c :: y)) : StandsIn n x ∨ StandsIn n y := by
  obtain ⟨a, b, heq, hlast, hend⟩ := h
  rcases List.append_eq_append_iff.1 heq with ⟨u, rfl, hy⟩ | ⟨u, rfl, hb⟩
  · right
    cases u with
    | nil =>
      cases n with
      | nil => exact absurd rfl hne
      | cons d n =>
        cases hy
        exact absurd List.mem_cons_self hc
    | cons d u =>
      cases hy
      refine ⟨u, b, rfl, fun e he => hlast e ?_, hend⟩
      rw [List.getLast?_append, List.getLast?_cons]
      rw [Option.mem_def.1 he]
      rfl
  · left
    rcases List.append_eq_append_iff.1 hb with ⟨v, rfl, rfl⟩ | ⟨v, rfl, hv⟩
    · exact ⟨a, v, rfl, hlast, hend.of_append⟩
    · cases v with
      | nil =>
        rw [List.append_nil]
        exact ⟨a, [], by rw [List.append_nil], hlast, by simp [EndsName]⟩
      | cons d v =>
        cases hv
        exact absurd (List.mem_append_right u List.mem_cons_self) hc

theorem getLast?_eq_none_of_nameParts {a s : Text} (hs : ∀ c ∈ s, isNamePart c = true)
    (ha : a ⊆ s) (hlast : ∀ c ∈ a.getLast?, isNamePart c = false) : a = [] := by
  cases h : a.getLast? with
  | none => exact List.getLast?_eq_none_iff.1 h
  | some c =>
    have hpart := hs c (ha (List.mem_of_getLast? h))
    rw [hlast c h] at hpart
    cases hpart

/-- a whole word of a text of name characters is the text -/
theorem StandsIn.eq {n s : Text} (hs : ∀ c ∈ s, isNamePart c = true) (h : StandsIn n s) : n = s := by
  obtain ⟨a, b, rfl, hlast, hend⟩ := h
  have ha := getLast?_eq_none_of_nameParts hs (List.subset_append_left _ _) hlast
  have hb : b = [] := by
    cases b with
    | nil => rfl
    | cons d b =>
      have hpart := hs d (by simp)
      rw [hend d rfl] at hpart
      cases hpart
  rw [ha, hb, List.append_nil, List.nil_append]

theorem not_standsIn_nil {n : Text} (hne : n ≠ []) : ¬StandsIn n [] := fun h =>
  hne (h.eq (by simp))

theorem StandsIn.length_le {n s : Text} (h : StandsIn n s) : n.length ≤ s.length := by
  obtain ⟨a, b, rfl, -, -⟩ := h
  simp only [List.length_append]
  omega

/-- a whole word after a stem that it does not begin with -/
theorem StandsIn.of_stem {n w s : Text} (hw : ∀ c ∈ w, isNamePart c = true) (hne : w ≠ [])
    (hnw : ¬n <+: w) (hwn : ¬w <+: n) (h : StandsIn n (w ++ s)) : StandsIn n s := by
  obtain ⟨a, b, heq, hlast, hend⟩ := h
  rcases List.append_eq_append_iff.1 heq with ⟨u, rfl, rfl⟩ | ⟨u, hwa, hb⟩
  · cases u with
    | nil =>
      rw [List.append_nil] at hlast
      exact absurd (getLast?_eq_none_of_nameParts hw (List.Subset.refl w) hlast) hne
    | cons d u =>
      refine ⟨d :: u, b, rfl, fun e he => hlast e ?_, hend⟩
      rw [List.getLast?_append, Option.mem_def.1 he]
      rfl
  · have ha := getLast?_eq_none_of_nameParts hw (hwa ▸ List.subset_append_left _ _) hlast
    rw [ha, List.nil_append] at hwa
    rw [← hwa] at hb
    rcases List.prefix_or_prefix_of_prefix (List.prefix_append n b) (hb ▸ List.prefix_append w s) with
      hfront | hfront
    · exact absurd hfront hnw
    · exact absurd hfront hwn

theorem StandsIn.of_join {n : Text} (hne : n ≠ []) (hcomma : ',' ∉ n) (hblank : ' ' ∉ n)
    {ts : List Text} (h : StandsIn n (Text.join ", " ts)) : ∃ t ∈ ts, StandsIn n t := by
  match ts with
  | [] => exact absurd h (not_standsIn_nil hne)
  | [t] =>
    rw [Text.join_singleton] at h
    exact ⟨t, List.mem_cons_self, h⟩
  | t :: u :: ts =>
    rw [Text.join_cons_cons] at h
    rcases h.split hne hcomma with h | h
    · exact ⟨t, List.mem_cons_self, h⟩
    · rcases StandsIn.split (x := []) hne hblank h with h | h
      · exact absurd h (not_standsIn_nil hne)
      · obtain ⟨v, hv, hstands⟩ := of_join hne hcomma hblank h
        exact ⟨v, List.mem_cons_of_mem t hv, hstands⟩

end ContractChecks
