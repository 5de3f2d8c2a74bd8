import ContractChecks.Proofs.InheritedTexts
import ContractChecks.Proofs.TrimmedNames

/-!
# Words at the ends of a text

What is added to the end of a text changes its last lexeme only.  A mark changes no word.  A blank can
be part of a word, so a word of a trimmed text may have stood with blanks around it before.

* `words_append_mark`: a mark at the end, also after a literal that is left open;
* `words_number_subset`: a number takes in words that follow it, but makes none;
* `Padded w s`: `w` is a word of `s`, but for blanks around it;
* `padded_of_mem_trim`: every word of a trimmed text is one of the text itself, but for blanks.
-/

namespace ContractChecks

/-! ### words and their lexemes -/

/-- a keyword is a backslash and a name -/
theorem mem_words_cases {s w : Text} (h : w ∈ words s) :
    isName w = true ∨ ∃ n, w = '\\' :: n ∧ isName n = true := by
  unfold words at h
  fun_induction lexemes s with
  | case1 => cases h
  | case2 c r ih =>
    rw [List.filterMap_cons] at h
    cases hword : (firstLexeme c r).1.word? with
    | none =>
      rw [hword] at h
      exact ih h
    | some v =>
      rw [hword] at h
      rcases List.mem_cons.1 h with rfl | h
      · unfold firstLexeme at hword
        split at hword
        · cases hword
        split at hword
        case isTrue hkey =>
          rw [Bool.and_eq_true, decide_eq_true_eq] at hkey
          obtain ⟨rfl, hhead⟩ := hkey
          cases hword
          cases r with
          | nil => cases hhead
          | cons d r =>
            have hd : isNameStart d = true := hhead
            refine .inr ⟨_, rfl, ?_⟩
            rw [List.takeWhile_cons, isNamePart, hd]
            exact isName_takeWhile hd r
        split at hword
        case isTrue hstart =>
          cases hword
          exact .inl (isName_takeWhile hstart r)
        split at hword <;> cases hword
      · exact ih h

theorem words_cons (c : Char) (r : Text) :
    words (c :: r) = (firstLexeme c r).1.word?.toList ++ words (firstLexeme c r).2 := by
  rw [words, lexemes, List.filterMap_cons]
  cases (firstLexeme c r).1.word? <;> rfl

/-- the word of a lexeme is all of its text -/
theorem Lexeme.text_of_word? {l : Lexeme} {w : Text} (h : l.word? = some w) : l.text = w := by
  cases l with
  | name raw => exact Option.some.inj h
  | keyword raw => exact Option.some.inj h
  | literal raw => cases h
  | number raw => cases h
  | other c => cases h

/-! ### what comes after a text -/

/-- a lexeme with text after it stays the same when more comes at the end -/
theorem firstLexeme_append_of_ne_nil {c : Char} {r : Text} (h : (firstLexeme c r).2 ≠ []) (b : Text) :
    firstLexeme c (r ++ b) = ((firstLexeme c r).1, (firstLexeme c r).2 ++ b) := by
  have hr : r ≠ [] := by
    rintro rfl
    exact h (List.eq_nil_of_length_eq_zero (Nat.le_zero.1 (length_firstLexeme_le c [])))
  have hhead : (r ++ b).head? = r.head? := List.head?_append_of_ne_nil _ hr
  have hmunch : ∀ p : Char → Bool, r.dropWhile p ≠ [] →
      (r ++ b).takeWhile p = r.takeWhile p ∧ (r ++ b).dropWhile p = r.dropWhile p ++ b := by
    intro p hne
    rcases takeWhile_append_cases p r with hall | hstable
    · have hnil := (takeWhile_of_all (b := []) hall (by simp)).2
      rw [List.append_nil] at hnil
      exact absurd hnil hne
    · exact hstable b
  unfold firstLexeme at *
  rw [hhead]
  split
  case isTrue hquote =>
    rw [if_pos hquote] at h
    have htail := literalTail_append_tail (t := (literalTail c r).2 ++ b) fun hnil => absurd hnil h
    rw [← List.append_assoc, literalTail_append] at htail
    rw [htail]
  case isFalse hquote =>
    rw [if_neg hquote] at h
    split
    case isTrue hkey =>
      rw [if_pos hkey] at h
      rw [(hmunch _ h).1, (hmunch _ h).2]
    case isFalse hkey =>
      rw [if_neg hkey] at h
      split
      case isTrue hstart =>
        rw [if_pos hstart] at h
        rw [(hmunch _ h).1, (hmunch _ h).2]
      case isFalse hstart =>
        rw [if_neg hstart] at h
        split
        case isTrue hdigit =>
          rw [if_pos hdigit] at h
          rw [(hmunch _ h).1, (hmunch _ h).2]
        case isFalse => rfl

/-- a literal at the end of a text takes in one more character or ends before it -/
theorem literalTail_concat {q : Char} {s : Text} (h : (literalTail q s).2 = []) (c : Char) :
    (literalTail q (s ++ [c])).2 = [] ∨ (literalTail q (s ++ [c])).2 = [c] := by
  fun_induction literalTail q s with
  | case1 => exact .inl rfl
  | case2 d =>
    rw [List.singleton_append, literalTail]
    split
    · exact .inl rfl
    split
    · exact .inr rfl
    · exact .inl rfl
  | case3 d e r hesc p ih =>
    rw [List.cons_append, List.cons_append, literalTail, if_pos hesc]
    exact ih h
  | case4 d r hesc => cases h
  | case5 d e r hesc hd p ih =>
    rw [List.cons_append, List.cons_append, literalTail, if_neg hesc, if_neg hd]
    exact ih h

/-- a mark at the end changes no word, even if it is taken in by a literal -/
theorem words_append_mark (s : Text) {c : Char} (hc : isMark c = true) :
    words (s ++ [c]) = words s := by
  have hmark : words [c] = [] := words_marks fun d hd => List.mem_singleton.1 hd ▸ hc
  fun_induction lexemes s with
  | case1 => rw [List.nil_append, hmark, words_nil]
  | case2 d r ih =>
    by_cases hrest : (firstLexeme d r).2 = []
    · by_cases hquote : isQuoteMark d = true
      · have hfirst : ∀ t,
            firstLexeme d t = (.literal (d :: (literalTail d t).1), (literalTail d t).2) :=
          fun t => if_pos hquote
        rw [hfirst] at hrest
        rw [List.cons_append, words_cons, words_cons, hfirst, hfirst, hrest, words_nil]
        rcases literalTail_concat hrest c with htail | htail
        · rw [htail, words_nil]
          rfl
        · rw [htail, hmark]
          rfl
      · have hnone := noQuote_firstLexeme (Bool.not_eq_true _ ▸ hquote) r
        have htext := firstLexeme_append d r
        rw [hrest, List.append_nil] at htext
        rw [htext] at hnone
        rw [words_append (literalsClosed_of_noQuote hnone) (startsFresh_cons hc []), hmark,
          List.append_nil]
    · rw [List.cons_append, words_cons, words_cons, firstLexeme_append_of_ne_nil hrest, ih]

/-- a number takes in words that follow it, but makes none -/
theorem words_number_subset {d : Char} (hd : ('0' ≤ d && d ≤ '9') = true) {r : Text}
    (hr : ∀ c ∈ r, isNumberPart c = true) (t : Text) : words (d :: (r ++ t)) ⊆ words t := by
  have hparts : ∀ c ∈ t.takeWhile isNumberPart, isNumberPart c = true :=
    List.all_eq_true.1 List.all_takeWhile
  have hfresh := startsFresh_dropWhile t
  have htext : t = t.takeWhile isNumberPart ++ t.dropWhile isNumberPart :=
    List.takeWhile_append_dropWhile.symm
  generalize t.takeWhile isNumberPart = u at *
  generalize t.dropWhile isNumberPart = v at *
  subst htext
  have hdigits : ∀ c ∈ r ++ u, isNumberPart c = true := by
    intro c hc
    rcases List.mem_append.1 hc with hc | hc
    · exact hr c hc
    · exact hparts c hc
  have hu : LiteralsClosed u :=
    literalsClosed_of_noQuote fun c hc => not_isQuoteMark_of_isNumberPart (hparts c hc)
  have hnumber := lexemes_number hd hdigits hfresh
  rw [List.append_assoc] at hnumber
  rw [words_append hu hfresh, words, hnumber]
  exact List.subset_append_right _ _

/-! ### blanks around words -/

/-- a word of a text, but for blanks around it -/
def Padded (w s : Text) : Prop :=
  ∃ u v : Text, (∀ c ∈ u ++ v, isBlank c = true) ∧ u ++ (w ++ v) ∈ words s

theorem padded_of_mem {w s : Text} (h : w ∈ words s) : Padded w s :=
  ⟨[], [], by simp, by simpa using h⟩

/-- a blank before a text can become part of its first word -/
theorem mem_words_cons_blank {c : Char} (hc : isBlank c = true) {w s : Text} (h : w ∈ words s) :
    w ∈ words (c :: s) ∨ c :: w ∈ words (c :: s) := by
  rcases isMark_or_isNameStart hc with hmark | hstart
  · left
    rw [← List.singleton_append, words_marks_append fun d hd => List.mem_singleton.1 hd ▸ hmark]
    exact h
  -- the blank begins a name, which goes on for as long as it can
  have hparts : ∀ d ∈ s.takeWhile isNamePart, isNamePart d = true :=
    List.all_eq_true.1 List.all_takeWhile
  have hname := isName_takeWhile hstart s
  have hend := endsName_dropWhile s
  have htext : s = s.takeWhile isNamePart ++ s.dropWhile isNamePart :=
    List.takeWhile_append_dropWhile.symm
  generalize s.takeWhile isNamePart = n at *
  generalize s.dropWhile isNamePart = t at *
  subst htext
  have hwords : words (c :: (n ++ t)) = (c :: n) :: words t := by
    rw [← List.cons_append, words, lexemes_name hname hend]
    rfl
  rw [hwords]
  cases n with
  | nil => exact .inl (List.mem_cons_of_mem _ h)
  | cons d n =>
    by_cases hd : isNameStart d = true
    · have hfirst : isName (d :: n) = true :=
        isName_cons.2 ⟨hd, fun e he => hparts e (List.mem_cons_of_mem d he)⟩
      rw [words, lexemes_name hfirst hend] at h
      rcases List.mem_cons.1 h with rfl | h
      · exact .inr List.mem_cons_self
      · exact .inl (List.mem_cons_of_mem _ h)
    · have hdigit : ('0' ≤ d && d ≤ '9') = true := by
        have hpart := hparts d List.mem_cons_self
        rw [isNamePart, Bool.or_eq_true] at hpart
        exact hpart.resolve_left hd
      have hnumber : ∀ e ∈ n, isNumberPart e = true := fun e he =>
        isNumberPart_of_isNamePart (hparts e (List.mem_cons_of_mem d he))
      exact .inl (List.mem_cons_of_mem _ (words_number_subset hdigit hnumber t h))

/-- a blank after a text can become part of its last word -/
theorem mem_words_append_blank {c : Char} (hc : isBlank c = true) {w s : Text} (h : w ∈ words s) :
    w ∈ words (s ++ [c]) ∨ w ++ [c] ∈ words (s ++ [c]) := by
  rcases isMark_or_isNameStart hc with hmark | hstart
  · exact .inl (words_append_mark s hmark ▸ h)
  have hpart : ∀ d ∈ [c], isNamePart d = true := by
    intro d hd
    rw [List.mem_singleton.1 hd, isNamePart, hstart, Bool.true_or]
  have hnil : EndsName [] := by simp [EndsName]
  fun_induction lexemes s with
  | case1 =>
    rw [words_nil] at h
    cases h
  | case2 d r ih =>
    rw [words_cons] at h
    by_cases hrest : (firstLexeme d r).2 = []
    · -- the last lexeme is the word itself
      rw [hrest, words_nil, List.append_nil, Option.mem_toList] at h
      have htext := firstLexeme_append d r
      rw [hrest, List.append_nil, Lexeme.text_of_word? h] at htext
      right
      have hw : w ∈ words (d :: r) := by
        rw [words_cons, h]
        exact List.mem_cons_self
      rw [← htext] at hw ⊢
      rcases mem_words_cases hw with hname | ⟨n, rfl, hname⟩
      · have hlex := lexemes_name (isName_append hname hpart) hnil
        rw [List.append_nil] at hlex
        rw [words, hlex]
        exact List.mem_cons_self
      · have hlex := lexemes_keyword (isName_append hname hpart) hnil
        rw [List.append_nil] at hlex
        rw [words, List.cons_append, hlex]
        exact List.mem_cons_self
    · rw [List.cons_append, words_cons, firstLexeme_append_of_ne_nil hrest]
      rcases List.mem_append.1 h with h | h
      · exact .inl (List.mem_append_left _ h)
      · exact (ih h).imp (List.mem_append_right _) (List.mem_append_right _)

namespace Padded

variable {w s : Text} {c : Char}

theorem cons_blank (hc : isBlank c = true) (h : Padded w s) : Padded w (c :: s) := by
  obtain ⟨u, v, hblank, hmem⟩ := h
  rcases mem_words_cons_blank hc hmem with hmem | hmem
  · exact ⟨u, v, hblank, hmem⟩
  · exact ⟨c :: u, v, List.forall_mem_cons.2 ⟨hc, hblank⟩, hmem⟩

theorem append_blank (hc : isBlank c = true) (h : Padded w s) : Padded w (s ++ [c]) := by
  obtain ⟨u, v, hblank, hmem⟩ := h
  rcases mem_words_append_blank hc hmem with hmem | hmem
  · exact ⟨u, v, hblank, hmem⟩
  · refine ⟨u, v ++ [c], ?_, by simpa using hmem⟩
    intro d hd
    rw [← List.append_assoc] at hd
    rcases List.mem_append.1 hd with hd | hd
    · exact hblank d hd
    · exact List.mem_singleton.1 hd ▸ hc

theorem blanks_append {u : Text} (hu : ∀ c ∈ u, isBlank c = true) (h : Padded w s) :
    Padded w (u ++ s) := by
  induction u with
  | nil => exact h
  | cons c u ih =>
    rw [List.forall_mem_cons] at hu
    exact (ih hu.2).cons_blank hu.1

theorem append_blanks {v : Text} (hv : ∀ c ∈ v, isBlank c = true) (h : Padded w s) :
    Padded w (s ++ v) := by
  induction v using List.reverseRecOn with
  | nil => rwa [List.append_nil]
  | append_singleton v c ih =>
    rw [← List.append_assoc]
    exact (ih fun d hd => hv d (List.mem_append_left _ hd)).append_blank
      (hv c (List.mem_append_right _ List.mem_cons_self))

end Padded

theorem padded_of_mem_trim {w s : Text} (h : w ∈ words (Text.trim s)) : Padded w s := by
  obtain ⟨u, v, hs, hblank⟩ := trim_eq_append s
  rw [hs]
  have hv := (padded_of_mem h).append_blanks fun c hc => hblank c (List.mem_append_right _ hc)
  exact hv.blanks_append fun c hc => hblank c (List.mem_append_left _ hc)

end ContractChecks
