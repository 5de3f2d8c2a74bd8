import ContractChecks.Proofs.NameOccurrences
import ContractChecks.Proofs.QuantifierPieces

/-!
# Names at the ends of trimmed texts

Outside ASCII every character can be part of a name, white space included.  So trimming a text can
cut off a piece of its first or last name, and a name can come up that was not there before.  It was
there with blanks around it.

* `Avoids n s`: no name of `s` is `n`, with or without blanks around it;
* `Avoids.trim`: trimming brings up no such name;
* `avoids_cutProperty`: the parts of a text that avoids `n` avoid `n`.
-/

namespace ContractChecks

def Avoids (n s : Text) : Prop := ∀ w ∈ namesIn s, Text.trim w ≠ n

instance (n s : Text) : Decidable (Avoids n s) :=
  inferInstanceAs (Decidable (∀ w ∈ namesIn s, Text.trim w ≠ n))

theorem Avoids.mono {n s t : Text} (h : Avoids n t) (hst : namesIn s ⊆ namesIn t) : Avoids n s :=
  fun w hw => h w (hst hw)

/-! ### blanks -/

theorem isMark_or_isNameStart {c : Char} (h : isBlank c = true) :
    isMark c = true ∨ isNameStart c = true := by
  by_cases hascii : 0x80 ≤ c.toNat
  · right
    rw [isNameStart, decide_eq_true hascii, Bool.or_true]
  · left
    rw [← Char.ofNat_toNat c] at h ⊢
    have hlow : c.toNat < 0x80 := by omega
    generalize c.toNat = k at h hlow
    have hall : ∀ k < 0x80, isBlank (Char.ofNat k) = true → isMark (Char.ofNat k) = true := by
      decide +kernel
    exact hall k hlow h

/-! ### a blank before a text -/

/-- the last mark is the last character of the text, unless that is layout -/
theorem lastMarkAfter_lexemes {s : Text} {c : Char} (h : s.getLast? = some c)
    (hc : isLayout c = false) (last : Option Char) : lastMarkAfter last (lexemes s) = some c := by
  fun_induction lexemes s generalizing last with
  | case1 => cases h
  | case2 d r ih =>
    have happend := firstLexeme_append d r
    rw [← happend] at h
    cases hrest : (firstLexeme d r).2 with
    | nil =>
      rw [hrest, List.append_nil] at h
      rw [lexemes]
      cases hl : (firstLexeme d r).1 with
      | other e =>
        rw [hl] at h
        obtain rfl : e = c := Option.some.inj h
        show (Lexeme.other e).lastMark last = some e
        rw [Lexeme.lastMark, hc]
        rfl
      | keyword raw => rw [hl] at h; exact h
      | name raw => rw [hl] at h; exact h
      | literal raw => rw [hl] at h; exact h
      | number raw => rw [hl] at h; exact h
    | cons e t =>
      rw [List.getLast?_append, hrest] at h
      rw [hrest] at ih
      exact ih (by simpa using h) _

theorem getLast?_ne_point {w : Text} (hw : ∀ c ∈ w, isNamePart c = true) :
    w.getLast? ≠ some '.' := by
  intro hpoint
  have hpart := hw _ (List.mem_of_getLast? hpoint)
  revert hpart
  decide

/-- a number takes in what would otherwise be selectors -/
theorem namesIn_number_subset {w t : Text} (hw : ∀ c ∈ w, isNamePart c = true)
    (hdigit : ∃ d r, w = d :: r ∧ ('0' ≤ d && d ≤ '9') = true) :
    namesIn (w ++ t) ⊆ namesIn t := by
  obtain ⟨d, r, rfl, hd⟩ := hdigit
  have hparts : ∀ c ∈ t.takeWhile isNumberPart, isNumberPart c = true :=
    List.all_eq_true.1 List.all_takeWhile
  have hfresh := startsFresh_dropWhile t
  have htext : t = t.takeWhile isNumberPart ++ t.dropWhile isNumberPart :=
    List.takeWhile_append_dropWhile.symm
  generalize t.takeWhile isNumberPart = u at *
  generalize t.dropWhile isNumberPart = v at *
  subst htext
  have hdigits : ∀ c ∈ r ++ u, isNumberPart c = true := by
    intro c hc
    rcases List.mem_append.1 hc with hc | hc
    · exact isNumberPart_of_isNamePart (hw c (List.mem_cons_of_mem d hc))
    · exact hparts c hc
  have hu : LiteralsClosed u :=
    literalsClosed_of_noQuote fun c hc => not_isQuoteMark_of_isNumberPart (hparts c hc)
  have hnumber := lexemes_number hd hdigits hfresh
  rw [List.append_assoc] at hnumber
  -- the last character of the number is also the last mark before what follows it
  have hmark : (Lexeme.number (d :: (r ++ u))).lastMark none = some '.' ↔
      lastMarkAfter none (lexemes u) = some '.' := by
    show (d :: (r ++ u)).getLast? = some '.' ↔ _
    rw [← List.cons_append, List.getLast?_append]
    cases hlast : u.getLast? with
    | none =>
      rw [List.getLast?_eq_none_iff] at hlast
      subst hlast
      rw [lexemes]
      exact iff_of_false (getLast?_ne_point hw) (by decide)
    | some c =>
      have hc : isLayout c = false := by
        cases hlayout : isLayout c with
        | false => rfl
        | true =>
          have hpart := hparts c (List.mem_of_getLast? hlast)
          rcases isLayout_cases hlayout with rfl | rfl | rfl <;> revert hpart <;> decide
      rw [lastMarkAfter_lexemes hlast hc]
      rfl
  rw [namesIn_eq, namesIn_eq, List.cons_append, hnumber, lexemes_append hu hfresh,
    namesFrom_append, namesFrom_cons, namesFrom_congr hmark]
  exact List.subset_append_right _ _

theorem Avoids.of_cons_blank {n : Text} {c : Char} (hc : isBlank c = true) {s : Text}
    (h : Avoids n (c :: s)) : Avoids n s := by
  rcases isMark_or_isNameStart hc with hmark | hstart
  · rw [Avoids, namesIn_cons_mark hmark] at h
    exact h
  -- the blank begins a name, which goes on for as long as it can
  have hw : ∀ d ∈ s.takeWhile isNamePart, isNamePart d = true :=
    List.all_eq_true.1 List.all_takeWhile
  have hname := isName_takeWhile hstart s
  have hend := endsName_dropWhile s
  have htext : s = s.takeWhile isNamePart ++ s.dropWhile isNamePart :=
    List.takeWhile_append_dropWhile.symm
  generalize s.takeWhile isNamePart = w at *
  generalize s.dropWhile isNamePart = t at *
  subst htext
  have hnames := namesIn_name hname hend
  rw [List.cons_append] at hnames
  rw [Avoids, hnames, List.forall_mem_cons, trim_cons_blank hc] at h
  cases w with
  | nil => exact h.2
  | cons d w =>
    by_cases hd : isNameStart d = true
    · have hfirst : isName (d :: w) = true :=
        isName_cons.2 ⟨hd, fun e he => hw e (List.mem_cons_of_mem d he)⟩
      rw [Avoids, namesIn_name hfirst hend]
      exact List.forall_mem_cons.2 h
    · have hdigit : ('0' ≤ d && d ≤ '9') = true := by
        have hpart := hw d List.mem_cons_self
        rw [isNamePart, Bool.or_eq_true] at hpart
        exact hpart.resolve_left hd
      exact Avoids.mono h.2 (namesIn_number_subset hw ⟨d, w, rfl, hdigit⟩)

/-! ### a blank after a text -/

/-- a blank that continues a word changes the names of the text in the last word only -/
theorem namesFrom_openWord_blank {w : Text} (hw : OpenWord w) {c : Char} (hc : isBlank c = true)
    (hstart : isNameStart c = true) (last : Option Char) :
    ∀ x ∈ namesFrom last (lexemes w),
      ∃ y ∈ namesFrom last (lexemes (w ++ [c])), Text.trim y = Text.trim x := by
  have hnil : EndsName [] := by simp [EndsName]
  have hpart : ∀ d ∈ [c], isNamePart d = true := by
    intro d hd
    rw [List.mem_singleton.1 hd, isNamePart, hstart, Bool.true_or]
  intro x hx
  cases hw with
  | nil =>
    rw [lexemes] at hx
    cases hx
  | keyword hhead hr =>
    rename_i r
    cases r with
    | nil =>
      have hslash : lexemes ['\\'] = [.other '\\'] := by decide +kernel
      rw [hslash] at hx
      cases hx
    | cons d r =>
      have hd : isNameStart d = true := hhead d rfl
      have hname : isName (d :: r) = true :=
        isName_cons.2 ⟨hd, fun e he => hr e (List.mem_cons_of_mem d he)⟩
      have hlex := lexemes_keyword hname hnil
      have hlex' := lexemes_keyword (isName_append hname hpart) hnil
      rw [List.append_nil] at hlex hlex'
      rw [hlex, lexemes] at hx
      rw [List.cons_append, hlex', lexemes]
      cases List.mem_singleton.1 hx
      exact ⟨_, List.mem_singleton.2 rfl, trim_append_blank hc ('\\' :: d :: r)⟩
  | name hd hr =>
    rename_i d r
    have hname : isName (d :: r) = true := isName_cons.2 ⟨hd, hr⟩
    have hlex := lexemes_name hname hnil
    have hlex' := lexemes_name (isName_append hname hpart) hnil
    rw [List.append_nil] at hlex hlex'
    rw [hlex, lexemes, namesFrom_cons, Lexeme.freeName?] at hx
    rw [hlex', lexemes, namesFrom_cons, Lexeme.freeName?]
    by_cases hpoint : (last == some '.') = true
    · rw [if_pos hpoint] at hx
      cases hx
    · rw [if_neg hpoint] at hx ⊢
      cases List.mem_singleton.1 hx
      exact ⟨_, List.mem_singleton.2 rfl, trim_append_blank hc _⟩
  | number hd hr =>
    have hlex := lexemes_number hd hr (b := []) (by simp [StartsFresh])
    rw [List.append_nil] at hlex
    rw [hlex, lexemes] at hx
    cases hx

theorem Avoids.of_append_blank {n a : Text} (ha : LiteralsClosed a) {c : Char}
    (hc : isBlank c = true) (h : Avoids n (a ++ [c])) : Avoids n a := by
  rcases isMark_or_isNameStart hc with hmark | hstart
  · refine h.mono ?_
    rw [namesIn_eq, namesIn_eq, lexemes_append ha (startsFresh_cons hmark []), namesFrom_append]
    exact List.subset_append_left _ _
  · obtain ⟨ls, w, hw, hls⟩ := lexemes_append_openWord ha
    have hself := hls []
    rw [List.append_nil, List.append_nil] at hself
    intro x hx
    rw [namesIn_eq, hself, namesFrom_append] at hx
    rw [Avoids, namesIn_eq, hls, namesFrom_append] at h
    rcases List.mem_append.1 hx with hx | hx
    · exact h x (List.mem_append_left _ hx)
    · obtain ⟨y, hy, htrim⟩ := namesFrom_openWord_blank hw hc hstart _ x hx
      rw [← htrim]
      exact h y (List.mem_append_right _ hy)

theorem Avoids.of_append_blanks {n a u : Text} (hu : ∀ c ∈ u, isBlank c = true)
    (ha : LiteralsClosed a) (h : Avoids n (a ++ u)) : Avoids n a := by
  induction u using List.reverseRecOn with
  | nil => rwa [List.append_nil] at h
  | append_singleton u c ih =>
    have hblanks : ∀ d ∈ u, isBlank d = true := fun d hd => hu d (List.mem_append_left _ hd)
    have hclosed : LiteralsClosed (a ++ u) :=
      ha.append (literalsClosed_of_noQuote fun d hd => not_isQuoteMark_of_isBlank (hblanks d hd))
    rw [← List.append_assoc] at h
    exact ih hblanks (h.of_append_blank hclosed (hu c (by simp)))

theorem Avoids.trimStart {n s : Text} (h : Avoids n s) : Avoids n (Text.trimStart s) := by
  induction s with
  | nil => exact h
  | cons c s ih =>
    rw [Text.trimStart, List.dropWhile_cons]
    split
    case isTrue hc => exact ih (h.of_cons_blank hc)
    case isFalse => exact h

theorem Avoids.trim {n s : Text} (hs : LiteralsClosed s) (h : Avoids n s) : Avoids n (Text.trim s) := by
  obtain ⟨u, hu, hblank⟩ := exists_append_of_dropWhile_reverse isBlank (Text.trimStart s)
  have hstart := h.trimStart
  have hclosed := hs.trim
  rw [← hu] at hstart
  exact hstart.of_append_blanks hblank hclosed

/-! ### parts of a text -/

theorem Avoids.append {n a b : Text} (ha : Avoids n a) (hb : Avoids n b)
    (h : lexemes (a ++ b) = lexemes a ++ lexemes b) : Avoids n (a ++ b) := by
  intro w hw
  rcases List.mem_append.1 (namesIn_append_subset h hw) with hw | hw
  · exact ha w hw
  · exact hb w hw

theorem avoids_cutProperty {n : Text} (hfixed : ∀ t ∈ headerTexts, Avoids n t) :
    CutProperty fun s => LiteralsClosed s ∧ Avoids n s where
  closed := And.left
  trim := fun h => ⟨h.1.trim, h.2.trim h.1⟩
  cut := by
    intro a m b hm ha h
    obtain ⟨hcut, hrest⟩ := literalsClosed_cutProperty.cut hm ha h.1
    have hnames := h.2
    rw [Avoids, namesIn_append_separator ha hm] at hnames
    exact ⟨⟨hcut, fun w hw => hnames w (List.mem_append_left _ hw)⟩, hrest,
      fun w hw => hnames w (List.mem_append_right _ hw)⟩
  name := by
    intro w rest hw hrest h
    obtain ⟨hclosed, hrestClosed⟩ := literalsClosed_cutProperty.name hw hrest h.1
    have hnames := h.2
    have hself := namesIn_name hw (b := []) (by simp [EndsName])
    rw [List.append_nil, namesIn_nil] at hself
    rw [Avoids, namesIn_name hw hrest, List.forall_mem_cons] at hnames
    refine ⟨⟨hclosed, ?_⟩, hrestClosed, hnames.2⟩
    rw [Avoids, hself]
    simpa using hnames.1
  append := by
    intro a b ha hb hboundary
    refine ⟨ha.1.append hb.1, ha.2.append hb.2 ?_⟩
    rcases hboundary with hblock | hfresh
    · exact hblock.lexemes_append b
    · exact lexemes_append ha.1 hfresh
  nil := ⟨literalsClosed_nil, by simp [Avoids, namesIn_nil]⟩
  fixed := fun t ht => ⟨literalsClosed_cutProperty.fixed t ht, hfixed t ht⟩

end ContractChecks
