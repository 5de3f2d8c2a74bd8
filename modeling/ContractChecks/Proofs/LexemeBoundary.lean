import ContractChecks.Proofs.Declarations

/-!
# Where lexemes end

The lexemes of a text put together from parts are those of the parts, as long as no literal of the
first part is left open and the second part does not continue its last lexeme.

* `LiteralsClosed s`: every literal of `s` is closed;
* `OpenWord w`: `w` is a keyword, name or number, or the beginning of one, which more text may
  continue;
* `lexemes_append_openWord`: only an open word at the end of a text depends on what follows;
* `lexemes_append`: the lexemes of two parts with a boundary between them;
* `words s`: the names and keywords of `s`; `references_iff`: those are what `s` refers to;
* `words_join`: the words of texts that are joined by marks.
-/

namespace ContractChecks

def LiteralsClosed (s : Text) : Prop := Quoting.code.after s = .code

/-- the text does not continue a lexeme that stands before it -/
def StartsFresh (s : Text) : Prop := ∀ c ∈ s.head?, isNumberPart c = false

/-! ### literals -/

theorem LiteralsClosed.after_eq {s : Text} (h : LiteralsClosed s) :
    Quoting.code.after s = .code := h

theorem literalsClosed_nil : LiteralsClosed [] := rfl

theorem LiteralsClosed.append {a b : Text} (ha : LiteralsClosed a) (hb : LiteralsClosed b) :
    LiteralsClosed (a ++ b) := by
  unfold LiteralsClosed at *
  rw [Quoting.after_append, ha, hb]

theorem LiteralsClosed.of_append {a b : Text} (ha : LiteralsClosed a)
    (hab : LiteralsClosed (a ++ b)) : LiteralsClosed b := by
  unfold LiteralsClosed at *
  rw [Quoting.after_append, ha] at hab
  exact hab

theorem literalsClosed_of_noQuote {s : Text} (h : ∀ c ∈ s, isQuoteMark c = false) :
    LiteralsClosed s := by
  unfold LiteralsClosed
  induction s with
  | nil => rfl
  | cons c s ih =>
    rw [Quoting.after_cons, next_code (h c List.mem_cons_self)]
    exact ih fun d hd => h d (List.mem_cons_of_mem c hd)

theorem noQuote_of_any {s : Text} (h : s.any isQuoteMark = false) :
    ∀ c ∈ s, isQuoteMark c = false := fun c hc => Bool.eq_false_iff.2 (List.any_eq_false.1 h c hc)

/-- a literal that is closed ends where it did, whatever stands after the text -/
theorem literalTail_of_closed {q : Char} {s : Text} (h : (Quoting.within q).after s = .code)
    (b : Text) :
    literalTail q (s ++ b) = ((literalTail q s).1, (literalTail q s).2 ++ b) ∧
      LiteralsClosed (literalTail q s).2 := by
  fun_induction literalTail q s with
  | case1 => cases h
  | case2 c =>
    rw [Quoting.after_cons, Quoting.after_nil, Quoting.next] at h
    split at h
    · cases h
    case isFalse hesc =>
      split at h
      case isFalse => cases h
      case isTrue hc =>
        refine ⟨?_, literalsClosed_nil⟩
        cases b with
        | nil => rfl
        | cons d b =>
          show literalTail q (c :: d :: b) = _
          rw [literalTail, if_neg hesc, if_pos hc]
          rfl
  | case3 c d r hesc p ih =>
    rw [Quoting.after_cons, Quoting.after_cons, Quoting.next, if_pos hesc] at h
    obtain ⟨heq, hclosed⟩ := ih h
    refine ⟨?_, hclosed⟩
    show literalTail q (c :: d :: (r ++ b)) = _
    rw [literalTail, if_pos hesc, heq]
  | case4 d r hesc =>
    rw [Quoting.after_cons, Quoting.next, if_neg hesc, if_pos rfl] at h
    refine ⟨?_, h⟩
    show literalTail q (q :: d :: (r ++ b)) = ([q], d :: (r ++ b))
    rw [literalTail, if_neg hesc, if_pos rfl]
  | case5 c d r hesc hc p ih =>
    rw [Quoting.after_cons, Quoting.next, if_neg hesc, if_neg hc] at h
    obtain ⟨heq, hclosed⟩ := ih h
    refine ⟨?_, hclosed⟩
    show literalTail q (c :: d :: (r ++ b)) = _
    rw [literalTail, if_neg hesc, if_neg hc]
    show (c :: (literalTail q ((d :: r) ++ b)).1, (literalTail q ((d :: r) ++ b)).2) = _
    rw [heq]

/-! ### character classes -/

theorem isNumberPart_of_isNamePart {c : Char} (h : isNamePart c = true) :
    isNumberPart c = true := by
  rw [isNumberPart, h, Bool.true_or]

theorem not_isQuoteMark_of_isNumberPart {c : Char} (h : isNumberPart c = true) :
    isQuoteMark c = false := by
  cases hq : isQuoteMark c with
  | false => rfl
  | true => rcases isQuoteMark_cases hq with rfl | rfl | rfl <;> revert h <;> decide

theorem not_isNamePart_of_not_isNumberPart {c : Char} (h : isNumberPart c = false) :
    isNamePart c = false := by
  rw [isNumberPart, Bool.or_eq_false_iff] at h
  exact h.1

theorem not_isNameStart_of_digit {c : Char} (h : ('0' ≤ c && c ≤ '9') = true) :
    isNameStart c = false := by
  have hrange : 48 ≤ c.toNat ∧ c.toNat ≤ 57 := by
    rw [Bool.and_eq_true, decide_eq_true_eq, decide_eq_true_eq] at h
    exact h
  have hle : ∀ d : Char, 57 < d.toNat → ¬ d ≤ c := by
    intro d hd hdc
    have hnat : d.toNat ≤ c.toNat := hdc
    omega
  have hunderscore : c ≠ '_' := by
    rintro rfl
    revert hrange
    decide
  have hascii : ¬ 0x80 ≤ c.toNat := by omega
  simp [isNameStart, hle 'a' (by decide), hle 'A' (by decide), hunderscore, hascii]

/-! ### words -/

/-- a keyword, name or number, or the backslash that begins a keyword -/
inductive OpenWord : Text → Prop
  | nil : OpenWord []
  | keyword {r : Text} (hhead : ∀ c ∈ r.head?, isNameStart c = true)
      (hr : ∀ c ∈ r, isNamePart c = true) : OpenWord ('\\' :: r)
  | name {c : Char} {r : Text} (hc : isNameStart c = true) (hr : ∀ c ∈ r, isNamePart c = true) :
      OpenWord (c :: r)
  | number {c : Char} {r : Text} (hc : ('0' ≤ c && c ≤ '9') = true)
      (hr : ∀ c ∈ r, isNumberPart c = true) : OpenWord (c :: r)

/-- a run of characters that ends inside a text ends there whatever follows the text -/
theorem takeWhile_append_cases (p : Char → Bool) (r : Text) :
    (∀ c ∈ r, p c = true) ∨
      ∀ b : Text, (r ++ b).takeWhile p = r.takeWhile p ∧
        (r ++ b).dropWhile p = r.dropWhile p ++ b := by
  induction r with
  | nil =>
    left
    intro c hc
    cases hc
  | cons d r ih =>
    cases hd : p d with
    | false =>
      right
      intro b
      rw [List.cons_append, List.takeWhile_cons, List.takeWhile_cons, List.dropWhile_cons,
        List.dropWhile_cons, hd]
      exact ⟨rfl, rfl⟩
    | true =>
      rcases ih with ih | ih
      · left
        intro c hc
        rcases List.mem_cons.1 hc with rfl | hc
        · exact hd
        · exact ih c hc
      · right
        intro b
        rw [List.cons_append, List.takeWhile_cons, List.takeWhile_cons, List.dropWhile_cons,
          List.dropWhile_cons, hd, if_pos rfl, if_pos rfl, if_pos rfl, if_pos rfl, (ih b).1, (ih b).2]
        exact ⟨rfl, rfl⟩

theorem LiteralsClosed.dropWhile {p : Char → Bool} (hp : ∀ c, p c = true → isQuoteMark c = false)
    {r : Text} (h : LiteralsClosed r) : LiteralsClosed (r.dropWhile p) := by
  have htake : LiteralsClosed (r.takeWhile p) := by
    refine literalsClosed_of_noQuote fun c hc => hp c ?_
    exact List.all_eq_true.1 List.all_takeWhile c hc
  refine htake.of_append ?_
  rw [List.takeWhile_append_dropWhile]
  exact h

theorem not_isQuoteMark_of_isNamePart {c : Char} (h : isNamePart c = true) :
    isQuoteMark c = false :=
  not_isQuoteMark_of_isNumberPart (isNumberPart_of_isNamePart h)

/-- the first lexeme of a text stays the same when text is added, unless it is an open word -/
theorem firstLexeme_append_cases {c : Char} {r : Text} (h : LiteralsClosed (c :: r)) :
    OpenWord (c :: r) ∨ (LiteralsClosed (firstLexeme c r).2 ∧
      ∀ b, firstLexeme c (r ++ b) = ((firstLexeme c r).1, (firstLexeme c r).2 ++ b)) := by
  unfold LiteralsClosed at h
  rw [Quoting.after_cons] at h
  unfold firstLexeme
  by_cases hquote : isQuoteMark c = true
  · right
    have hwithin : (Quoting.within c).after r = .code := by
      rw [← h]
      show _ = (if isQuoteMark c then Quoting.within c else .code).after r
      rw [if_pos hquote]
    rw [if_pos hquote]
    refine ⟨(literalTail_of_closed hwithin []).2, fun b => ?_⟩
    rw [if_pos hquote, (literalTail_of_closed hwithin b).1]
  have hr : LiteralsClosed r := by
    rw [next_code (Bool.not_eq_true _ ▸ hquote)] at h
    exact h
  simp only [if_neg hquote]
  by_cases hslash : c = '\\'
  · subst hslash
    cases r with
    | nil => exact .inl (.keyword (by simp) (by simp))
    | cons d r =>
      by_cases hd : isNameStart d = true
      · rcases takeWhile_append_cases isNamePart (d :: r) with hall | hmunch
        · refine .inl (.keyword ?_ hall)
          intro c hc
          cases hc
          exact hd
        · right
          simp only [List.cons_append, List.head?_cons, Option.any_some, hd, decide_true, Bool.and_true,
            if_true]
          refine ⟨hr.dropWhile fun _ => not_isQuoteMark_of_isNamePart, fun b => ?_⟩
          have hb := hmunch b
          rw [List.cons_append] at hb
          rw [hb.1, hb.2]
      · right
        have hstart : isNameStart '\\' = false := by decide
        have hdigit : ('0' ≤ '\\' && '\\' ≤ '9') = false := by decide
        simp only [List.cons_append, List.head?_cons, Option.any_some, hd, decide_true, Bool.and_false,
          hstart, hdigit, Bool.false_eq_true, if_false]
        exact ⟨hr, fun _ => trivial⟩
  simp only [hslash, decide_false, Bool.false_and, Bool.false_eq_true, if_false]
  by_cases hname : isNameStart c = true
  · simp only [if_pos hname]
    rcases takeWhile_append_cases isNamePart r with hall | hmunch
    · exact .inl (.name hname hall)
    · refine .inr ⟨hr.dropWhile fun _ => not_isQuoteMark_of_isNamePart, fun b => ?_⟩
      rw [(hmunch b).1, (hmunch b).2]
  simp only [if_neg hname]
  by_cases hdigit : ('0' ≤ c && c ≤ '9') = true
  · simp only [if_pos hdigit]
    rcases takeWhile_append_cases isNumberPart r with hall | hmunch
    · exact .inl (.number hdigit hall)
    · refine .inr ⟨hr.dropWhile fun _ => not_isQuoteMark_of_isNumberPart, fun b => ?_⟩
      rw [(hmunch b).1, (hmunch b).2]
  · simp only [if_neg hdigit]
    exact .inr ⟨hr, fun _ => trivial⟩

theorem lexemes_append_openWord {a : Text} (ha : LiteralsClosed a) :
    ∃ ls w, OpenWord w ∧ ∀ b, lexemes (a ++ b) = ls ++ lexemes (w ++ b) := by
  fun_induction lexemes a with
  | case1 => exact ⟨[], [], .nil, fun b => rfl⟩
  | case2 c r ih =>
    rcases firstLexeme_append_cases ha with hopen | ⟨hrest, hstable⟩
    · exact ⟨[], c :: r, hopen, fun b => rfl⟩
    · obtain ⟨ls, w, hw, hls⟩ := ih hrest
      refine ⟨(firstLexeme c r).1 :: ls, w, hw, fun b => ?_⟩
      rw [List.cons_append, lexemes, hstable b, hls b]
      rfl

/-! ### boundaries -/

theorem takeWhile_of_all {p : Char → Bool} {r b : Text} (hr : ∀ c ∈ r, p c = true)
    (hb : ∀ c ∈ b.head?, p c = false) :
    (r ++ b).takeWhile p = r ∧ (r ++ b).dropWhile p = b := by
  rw [List.takeWhile_append_of_pos hr, List.dropWhile_append_of_pos hr]
  cases b with
  | nil => exact ⟨List.append_nil r, rfl⟩
  | cons c b =>
    rw [List.takeWhile_cons, List.dropWhile_cons, hb c rfl]
    exact ⟨List.append_nil r, rfl⟩

/-- the lexeme of an open word ends where the word ends -/
theorem firstLexeme_openWord {c : Char} {r b : Text} (h : OpenWord (c :: r)) (hb : StartsFresh b) :
    ∃ l, l.text = c :: r ∧ firstLexeme c (r ++ b) = (l, b) ∧ firstLexeme c r = (l, []) := by
  have hname : ∀ d ∈ b.head?, isNamePart d = false := fun d hd =>
    not_isNamePart_of_not_isNumberPart (hb d hd)
  cases h with
  | keyword hhead hr =>
    cases r with
    | nil =>
      have hkey : (b.head?.any isNameStart) = false := by
        cases b with
        | nil => rfl
        | cons d b =>
          have hd := hname d rfl
          rw [isNamePart, Bool.or_eq_false_iff] at hd
          exact hd.1
      refine ⟨.other '\\', rfl, ?_, rfl⟩
      rw [firstLexeme, List.nil_append, hkey]
      rfl
    | cons d r =>
      have hd : isNameStart d = true := hhead d rfl
      obtain ⟨htake, hdrop⟩ := takeWhile_of_all hr hname
      obtain ⟨htake', hdrop'⟩ := takeWhile_of_all (b := []) hr (by simp)
      rw [List.append_nil] at htake' hdrop'
      refine ⟨.keyword ('\\' :: d :: r), rfl, ?_, ?_⟩
      · rw [firstLexeme, htake, hdrop, List.cons_append, List.head?_cons, Option.any_some, hd]
        rfl
      · rw [firstLexeme, htake', hdrop', List.head?_cons, Option.any_some, hd]
        rfl
  | name hc hr =>
    obtain ⟨hquote, hslash⟩ := isQuoteMark_of_isNameStart hc
    obtain ⟨htake, hdrop⟩ := takeWhile_of_all hr hname
    obtain ⟨htake', hdrop'⟩ := takeWhile_of_all (b := []) hr (by simp)
    rw [List.append_nil] at htake' hdrop'
    refine ⟨.name (c :: r), rfl, ?_, ?_⟩
    · rw [firstLexeme, hquote, if_neg (by decide), if_neg (by simp [hslash]), if_pos hc, htake, hdrop]
    · rw [firstLexeme, hquote, if_neg (by decide), if_neg (by simp [hslash]), if_pos hc, htake', hdrop']
  | number hc hr =>
    have hpart : isNumberPart c = true := by
      rw [isNumberPart, isNamePart, hc, Bool.or_true, Bool.true_or]
    have hquote := not_isQuoteMark_of_isNumberPart hpart
    have hslash : c ≠ '\\' := by
      rintro rfl
      revert hc
      decide
    have hstart := not_isNameStart_of_digit hc
    obtain ⟨htake, hdrop⟩ := takeWhile_of_all hr hb
    obtain ⟨htake', hdrop'⟩ := takeWhile_of_all (b := []) hr (by simp)
    rw [List.append_nil] at htake' hdrop'
    refine ⟨.number (c :: r), rfl, ?_, ?_⟩
    · rw [firstLexeme, hquote, if_neg (by decide), if_neg (by simp [hslash]), hstart,
        if_neg (by decide), if_pos hc, htake, hdrop]
    · rw [firstLexeme, hquote, if_neg (by decide), if_neg (by simp [hslash]), hstart,
        if_neg (by decide), if_pos hc, htake', hdrop']

/-- an open word is one lexeme in front of anything that does not continue it -/
theorem lexemes_openWord {w b : Text} (h : OpenWord w) (hne : w ≠ []) (hb : StartsFresh b) :
    ∃ l, l.text = w ∧ lexemes (w ++ b) = l :: lexemes b := by
  cases w with
  | nil => exact absurd rfl hne
  | cons c r =>
    obtain ⟨l, hl, happ, -⟩ := firstLexeme_openWord h hb
    exact ⟨l, hl, by rw [List.cons_append, lexemes, happ]⟩

theorem lexemes_append {a b : Text} (ha : LiteralsClosed a) (hb : StartsFresh b) :
    lexemes (a ++ b) = lexemes a ++ lexemes b := by
  obtain ⟨ls, w, hw, hls⟩ := lexemes_append_openWord ha
  have hself := hls []
  rw [List.append_nil, List.append_nil] at hself
  rw [hls b, hself, List.append_assoc]
  congr 1
  cases w with
  | nil =>
    rw [lexemes]
    rfl
  | cons c r =>
    obtain ⟨l, -, happ, hown⟩ := firstLexeme_openWord hw hb
    rw [List.cons_append, lexemes, happ, lexemes, hown, lexemes]
    rfl

/-! ### marks -/

/-- a character that is a lexeme of its own wherever it stands outside literals -/
def isMark (c : Char) : Bool := !isQuoteMark c && c != '\\' && !isNumberPart c

theorem isMark_spec {c : Char} (h : isMark c = true) :
    isQuoteMark c = false ∧ c ≠ '\\' ∧ isNumberPart c = false := by
  rw [isMark, Bool.and_eq_true, Bool.and_eq_true, Bool.not_eq_true', Bool.not_eq_true',
    bne_iff_ne] at h
  exact ⟨h.1.1, h.1.2, h.2⟩

theorem lexemes_cons_mark {c : Char} (h : isMark c = true) (s : Text) :
    lexemes (c :: s) = .other c :: lexemes s := by
  obtain ⟨hquote, hslash, hpart⟩ := isMark_spec h
  have hname := not_isNamePart_of_not_isNumberPart hpart
  rw [isNamePart, Bool.or_eq_false_iff] at hname
  have hfirst : firstLexeme c s = (.other c, s) := by
    rw [firstLexeme, hquote, if_neg (by decide), if_neg (by simp [hslash]), hname.1,
      if_neg (by decide), hname.2, if_neg (by decide)]
  rw [lexemes, hfirst]

theorem lexemes_marks {m : Text} (h : ∀ c ∈ m, isMark c = true) (s : Text) :
    lexemes (m ++ s) = m.map .other ++ lexemes s := by
  induction m with
  | nil => rfl
  | cons c m ih =>
    rw [List.cons_append, lexemes_cons_mark (h c List.mem_cons_self),
      ih fun d hd => h d (List.mem_cons_of_mem c hd)]
    rfl

theorem startsFresh_cons {c : Char} (h : isMark c = true) (s : Text) : StartsFresh (c :: s) := by
  intro d hd
  cases hd
  exact (isMark_spec h).2.2

theorem startsFresh_marks {m : Text} (hne : m ≠ []) (h : ∀ c ∈ m, isMark c = true) (s : Text) :
    StartsFresh (m ++ s) := by
  cases m with
  | nil => exact absurd rfl hne
  | cons c m => exact startsFresh_cons (h c List.mem_cons_self) _

theorem literalsClosed_of_isMark {m : Text} (h : ∀ c ∈ m, isMark c = true) : LiteralsClosed m :=
  literalsClosed_of_noQuote fun c hc => (isMark_spec (h c hc)).1

/-! ### words -/

def Lexeme.word? : Lexeme → Option Text
  | .keyword raw => some raw
  | .name raw => some raw
  | _ => none

def words (s : Text) : List Text := (lexemes s).filterMap Lexeme.word?

theorem texts_occurrencesFrom (pos : Nat) (last : Option Char) (ls : List Lexeme) :
    (occurrencesFrom pos last ls).map Occurrence.text = ls.filterMap Lexeme.word? := by
  induction ls generalizing pos last with
  | nil => rfl
  | cons l ls ih =>
    cases l with
    | keyword raw => exact congrArg (raw :: ·) (ih _ _)
    | name raw => exact congrArg (raw :: ·) (ih _ _)
    | literal raw => exact ih _ _
    | number raw => exact ih _ _
    | other c => exact ih _ _

theorem references_iff {s n : Text} : references s n = true ↔ n ∈ words s := by
  have htexts : (occurrences s).map Occurrence.text = words s := texts_occurrencesFrom 0 none _
  rw [← htexts, references, List.any_eq_true, List.mem_map]
  simp only [beq_iff_eq]

theorem words_append {a b : Text} (ha : LiteralsClosed a) (hb : StartsFresh b) :
    words (a ++ b) = words a ++ words b := by
  rw [words, lexemes_append ha hb, List.filterMap_append]
  rfl

theorem words_marks_append {m : Text} (h : ∀ c ∈ m, isMark c = true) (s : Text) :
    words (m ++ s) = words s := by
  have hnone : (m.map Lexeme.other).filterMap Lexeme.word? = [] := by
    rw [List.filterMap_eq_nil_iff]
    intro l hl
    obtain ⟨c, -, rfl⟩ := List.mem_map.1 hl
    rfl
  rw [words, lexemes_marks h, List.filterMap_append, hnone]
  rfl

theorem words_nil : words [] = [] := by
  rw [words, lexemes]
  rfl

theorem words_marks {m : Text} (h : ∀ c ∈ m, isMark c = true) : words m = [] := by
  have hnil := words_marks_append h []
  rw [List.append_nil, words_nil] at hnil
  exact hnil

theorem literalsClosed_join {sep : Text} (hsep : LiteralsClosed sep) (ss : List Text)
    (h : ∀ s ∈ ss, LiteralsClosed s) : LiteralsClosed (Text.join sep ss) := by
  match ss with
  | [] => exact literalsClosed_nil
  | [s] =>
    rw [Text.join_singleton]
    exact h s List.mem_cons_self
  | s :: t :: ss =>
    rw [Text.join_cons_cons]
    have hrest := literalsClosed_join hsep (t :: ss) fun u hu => h u (List.mem_cons_of_mem s hu)
    exact (h s List.mem_cons_self).append (hsep.append hrest)

theorem words_join {sep : Text} (hne : sep ≠ []) (hsep : ∀ d ∈ sep, isMark d = true)
    (ss : List Text) (h : ∀ s ∈ ss, LiteralsClosed s) :
    words (Text.join sep ss) = ss.flatMap words := by
  match ss with
  | [] => exact words_nil
  | [s] => rw [Text.join_singleton, List.flatMap_singleton]
  | s :: t :: ss =>
    have hrest := words_join hne hsep (t :: ss) fun u hu => h u (List.mem_cons_of_mem s hu)
    have hfresh := startsFresh_marks hne hsep (Text.join sep (t :: ss))
    rw [Text.join_cons_cons, words_append (h s List.mem_cons_self) hfresh,
      words_marks_append hsep, hrest]
    rfl

end ContractChecks
