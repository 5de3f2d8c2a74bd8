import ContractChecks.Proofs.ClosedPieces
import ContractChecks.Quantifier.Expansion

/-!
# Texts without quantifiers

Whether a text has a quantifier in it is decided lexeme by lexeme, so it can be read off the parts of
a text that do not run into each other.

* `QuantifierFree s`: no lexeme of `s` is the keyword of a quantifier;
* `Block s`: whatever follows `s`, its lexemes stay as they are;
* `quantifierFree_append`, `Block.quantifierFree_iff`: a text put together from parts;
* `quantifierFree_call`: a call put in front of a text brings no quantifier into it;
* `findQuantifier_closed`, `findQuantifier_free`: what stands before the first quantifier.
-/

namespace ContractChecks

def Lexeme.isQuantifier : Lexeme → Bool
  | .keyword raw => (QuantifierKind.ofKeyword? raw).isSome
  | _ => false

def QuantifierFree (s : Text) : Prop := containsQuantifier s = false

theorem isSome_findQuantifier (ls : List Lexeme) :
    (findQuantifier ls).isSome = ls.any Lexeme.isQuantifier := by
  induction ls with
  | nil => rfl
  | cons l ls ih =>
    have hplain : ∀ t : Text, l.isQuantifier = false →
        ((findQuantifier ls).map fun x => { x with before := t ++ x.before }).isSome
          = (l :: ls).any Lexeme.isQuantifier := by
      intro t hl
      rw [Option.isSome_map, ih, List.any_cons, hl, Bool.false_or]
    cases l with
    | keyword raw =>
      cases hk : QuantifierKind.ofKeyword? raw with
      | some k => simp [findQuantifier, Lexeme.isQuantifier, hk]
      | none =>
        have hl : (Lexeme.keyword raw).isQuantifier = false := by rw [Lexeme.isQuantifier, hk]; rfl
        simpa only [findQuantifier, hk] using hplain raw hl
    | literal raw => exact hplain raw rfl
    | name raw => exact hplain raw rfl
    | number raw => exact hplain raw rfl
    | other c => exact hplain [c] rfl

theorem quantifierFree_iff {s : Text} :
    QuantifierFree s ↔ ∀ l ∈ lexemes s, l.isQuantifier = false := by
  unfold QuantifierFree containsQuantifier
  rw [isSome_findQuantifier, List.any_eq_false]
  simp

theorem quantifierFree_nil : QuantifierFree [] := by
  rw [quantifierFree_iff, lexemes]
  intro l hl
  cases hl

/-! ### texts without keywords -/

theorem mem_of_mem_lexemes {s : Text} {l : Lexeme} (h : l ∈ lexemes s) {c : Char}
    (hc : c ∈ l.text) : c ∈ s := by
  rw [← concat_lexemes s]
  exact List.mem_flatMap.2 ⟨l, h, hc⟩

theorem keyword_of_ofKeyword? {raw : Text} {k : QuantifierKind}
    (h : QuantifierKind.ofKeyword? raw = some k) : k.keyword = raw := by
  unfold QuantifierKind.ofKeyword? at h
  have hfound := List.find?_some h
  exact of_decide_eq_true hfound

theorem quantifierFree_of_noBackslash {s : Text} (h : '\\' ∉ s) : QuantifierFree s := by
  rw [quantifierFree_iff]
  intro l hl
  cases l with
  | keyword raw =>
    rw [Lexeme.isQuantifier]
    cases hk : QuantifierKind.ofKeyword? raw with
    | none => rfl
    | some k =>
      have hslash : '\\' ∈ raw := by
        rw [← keyword_of_ofKeyword? hk]
        cases k <;> decide
      exact absurd (mem_of_mem_lexemes hl hslash) h
  | literal raw => rfl
  | name raw => rfl
  | number raw => rfl
  | other c => rfl

/-! ### texts put together -/

theorem quantifierFree_append {a b : Text} (ha : LiteralsClosed a) (hb : StartsFresh b) :
    QuantifierFree (a ++ b) ↔ QuantifierFree a ∧ QuantifierFree b := by
  rw [quantifierFree_iff, quantifierFree_iff, quantifierFree_iff, lexemes_append ha hb]
  exact List.forall_mem_append

/-- a text whose literals are closed and whose last lexeme cannot be continued -/
structure Block (s : Text) : Prop where
  closed : LiteralsClosed s
  lexemes_append : ∀ b, lexemes (s ++ b) = lexemes s ++ lexemes b

theorem Block.quantifierFree_iff {a : Text} (ha : Block a) (b : Text) :
    QuantifierFree (a ++ b) ↔ QuantifierFree a ∧ QuantifierFree b := by
  rw [ContractChecks.quantifierFree_iff, ContractChecks.quantifierFree_iff,
    ContractChecks.quantifierFree_iff, ha.lexemes_append]
  exact List.forall_mem_append

theorem block_nil : Block [] where
  closed := literalsClosed_nil
  lexemes_append b := by
    rw [lexemes]
    rfl

theorem Block.append {a b : Text} (ha : Block a) (hb : Block b) : Block (a ++ b) where
  closed := ha.closed.append hb.closed
  lexemes_append t := by
    rw [List.append_assoc, ha.lexemes_append, hb.lexemes_append, ha.lexemes_append,
      List.append_assoc]

theorem block_snoc {a : Text} (ha : LiteralsClosed a) {c : Char} (hc : isMark c = true) :
    Block (a ++ [c]) where
  closed := by
    refine ha.append (literalsClosed_of_noQuote fun d hd => ?_)
    rw [List.mem_singleton.1 hd]
    exact (isMark_spec hc).1
  lexemes_append b := by
    have hsnoc : ∀ t : Text, lexemes (a ++ c :: t) = lexemes a ++ .other c :: lexemes t := by
      intro t
      rw [ContractChecks.lexemes_append ha (startsFresh_cons hc t), lexemes_cons_mark hc]
    rw [List.append_assoc, List.singleton_append, hsnoc, hsnoc, lexemes, List.append_assoc]
    rfl

theorem LiteralsClosed.block {a b : Text} (h : LiteralsClosed (a ++ b))
    (hlast : b.getLast?.any isMark = true) : Block (a ++ b) := by
  cases hl : b.getLast? with
  | none =>
    rw [hl] at hlast
    cases hlast
  | some c =>
    rw [hl] at hlast
    obtain ⟨init, rfl⟩ := List.getLast?_eq_some_iff.1 hl
    rw [← List.append_assoc] at h ⊢
    refine block_snoc (h.of_append_right fun d hd => ?_) hlast
    rw [List.mem_singleton.1 hd]
    exact (isMark_spec hlast).1

/-! ### calls of closures -/

theorem OpenWord.append_name {w n : Text} (hw : OpenWord w) (hn : isName n = true) :
    OpenWord (w ++ n) := by
  have hparts := isNamePart_of_isName hn
  have happend : ∀ {r : Text}, (∀ c ∈ r, isNamePart c = true) →
      ∀ c ∈ r ++ n, isNamePart c = true := by
    intro r hr c hc
    rcases List.mem_append.1 hc with hc | hc
    · exact hr c hc
    · exact hparts c hc
  obtain ⟨d, t, rfl⟩ : ∃ d t, n = d :: t := by
    cases n with
    | nil => cases hn
    | cons d t => exact ⟨d, t, rfl⟩
  have hd : isNameStart d = true := (isName_cons.1 hn).1
  cases hw with
  | nil => exact .name hd fun c hc => hparts c (List.mem_cons_of_mem d hc)
  | keyword hhead hr =>
    rename_i r
    refine .keyword ?_ (happend hr)
    intro c hc
    cases r with
    | nil =>
      cases hc
      exact hd
    | cons e r => exact hhead c hc
  | name hc hr => exact .name hc (happend hr)
  | number hc hr =>
    refine .number hc fun c hc => ?_
    rcases List.mem_append.1 hc with hc | hc
    · exact hr c hc
    · exact isNumberPart_of_isNamePart (hparts c hc)

theorem not_isDigit_getLast_keyword (k : QuantifierKind) :
    (k.keyword.getLast?.any Char.isDigit) = false := by
  cases k <;> decide

/-- a call put between two texts: no keyword comes up at the boundary, since a name that ends with
a digit continues no keyword of a quantifier -/
theorem quantifierFree_call {a n t : Text} (ha : LiteralsClosed a) (hfree : QuantifierFree a)
    (hn : isName n = true) (hdigit : n.getLast?.any Char.isDigit = true) :
    QuantifierFree (a ++ (n ++ '(' :: t)) ↔ QuantifierFree t := by
  obtain ⟨ls, w, hw, hls⟩ := lexemes_append_openWord ha
  have hopen : isMark '(' = true := by decide
  have hne : w ++ n ≠ [] := by
    intro hnil
    rw [(List.append_eq_nil_iff.1 hnil).2] at hn
    cases hn
  obtain ⟨l, hl, hlex⟩ := lexemes_openWord (hw.append_name hn) hne (startsFresh_cons hopen t)
  have hword : l.isQuantifier = false := by
    cases l with
    | keyword raw =>
      rw [Lexeme.isQuantifier]
      cases hk : QuantifierKind.ofKeyword? raw with
      | none => rfl
      | some k =>
        have hraw : k.keyword = w ++ n := (keyword_of_ofKeyword? hk).trans hl
        have hlast := not_isDigit_getLast_keyword k
        cases hc : n.getLast? with
        | none =>
          rw [hc] at hdigit
          cases hdigit
        | some c =>
          rw [hc] at hdigit
          rw [hraw, List.getLast?_append, hc, Option.some_or, hdigit] at hlast
          cases hlast
    | literal raw => rfl
    | name raw => rfl
    | number raw => rfl
    | other c => rfl
  have hbefore : ∀ m ∈ ls, m.isQuantifier = false := by
    intro m hm
    have hself := hls []
    rw [List.append_nil] at hself
    exact quantifierFree_iff.1 hfree m (hself ▸ List.mem_append_left _ hm)
  rw [quantifierFree_iff, hls, ← List.append_assoc, hlex, lexemes_cons_mark hopen,
    quantifierFree_iff]
  constructor
  · intro h m hm
    exact h m (List.mem_append_right _ (List.mem_cons_of_mem _ (List.mem_cons_of_mem _ hm)))
  · intro h m hm
    rcases List.mem_append.1 hm with hm | hm
    · exact hbefore m hm
    rcases List.mem_cons.1 hm with rfl | hm
    · exact hword
    rcases List.mem_cons.1 hm with rfl | hm
    · rfl
    · exact h m hm

/-! ### what stands before the first quantifier -/

theorem after_literalTail {q : Char} {s : Text} (h : (literalTail q s).2 ≠ []) :
    (Quoting.within q).after (literalTail q s).1 = .code := by
  fun_induction literalTail q s with
  | case1 => exact absurd rfl h
  | case2 c => exact absurd rfl h
  | case3 c d r hesc p ih =>
    rw [Quoting.after_cons, Quoting.after_cons, Quoting.next, if_pos hesc]
    exact ih h
  | case4 d r hesc =>
    rw [Quoting.after_cons, Quoting.next, if_neg hesc, if_pos rfl]
    rfl
  | case5 c d r hesc hc p ih =>
    rw [Quoting.after_cons, Quoting.next, if_neg hesc, if_neg hc]
    exact ih h

/-- a lexeme that does not begin with a quotation mark has none -/
theorem noQuote_firstLexeme {c : Char} (hc : isQuoteMark c = false) (r : Text) :
    ∀ d ∈ (firstLexeme c r).1.text, isQuoteMark d = false := by
  have hword : ∀ {p : Char → Bool}, (∀ d, p d = true → isQuoteMark d = false) →
      ∀ d ∈ c :: r.takeWhile p, isQuoteMark d = false := by
    intro p hp d hd
    rcases List.mem_cons.1 hd with rfl | hd
    · exact hc
    · exact hp d (List.all_eq_true.1 List.all_takeWhile d hd)
  unfold firstLexeme
  rw [hc, if_neg (by decide)]
  split
  · exact hword fun _ => not_isQuoteMark_of_isNamePart
  split
  · exact hword fun _ => not_isQuoteMark_of_isNamePart
  split
  · exact hword fun _ => not_isQuoteMark_of_isNumberPart
  · intro d hd
    rw [List.mem_singleton.1 hd]
    exact hc

/-- a lexeme with something after it is no open literal -/
theorem literalsClosed_firstLexeme {c : Char} {r : Text} (h : (firstLexeme c r).2 ≠ []) :
    LiteralsClosed (firstLexeme c r).1.text := by
  by_cases hquote : isQuoteMark c = true
  · unfold firstLexeme at h ⊢
    rw [if_pos hquote] at h ⊢
    have hnext : Quoting.code.next c = .within c := if_pos hquote
    show Quoting.code.after (c :: (literalTail c r).1) = .code
    rw [Quoting.after_cons, hnext]
    exact after_literalTail h
  · exact literalsClosed_of_noQuote (noQuote_firstLexeme (Bool.not_eq_true _ ▸ hquote) r)

theorem findQuantifier_cons {l : Lexeme} {ls : List Lexeme} {x : QuantifierCut}
    (h : findQuantifier (l :: ls) = some x) :
    (∃ k raw, l = .keyword raw ∧ QuantifierKind.ofKeyword? raw = some k ∧
        x = ⟨[], k, raw, unlex ls⟩) ∨
      (l.isQuantifier = false ∧
        ∃ y, findQuantifier ls = some y ∧ x = { y with before := l.text ++ y.before }) := by
  have hplain : ∀ t : Text, l.text = t → l.isQuantifier = false →
      (findQuantifier ls).map (fun y => { y with before := t ++ y.before }) = some x →
      l.isQuantifier = false ∧
        ∃ y, findQuantifier ls = some y ∧ x = { y with before := l.text ++ y.before } := by
    rintro t rfl hl hm
    obtain ⟨y, hy, hx⟩ := Option.map_eq_some_iff.1 hm
    exact ⟨hl, y, hy, hx.symm⟩
  cases l with
  | keyword raw =>
    cases hk : QuantifierKind.ofKeyword? raw with
    | some k =>
      simp only [findQuantifier, hk, Option.some.injEq] at h
      exact .inl ⟨k, raw, rfl, hk, h.symm⟩
    | none =>
      simp only [findQuantifier, hk] at h
      exact .inr (hplain raw rfl (by rw [Lexeme.isQuantifier, hk]; rfl) h)
  | literal raw => exact .inr (hplain raw rfl rfl h)
  | name raw => exact .inr (hplain raw rfl rfl h)
  | number raw => exact .inr (hplain raw rfl rfl h)
  | other c => exact .inr (hplain [c] rfl rfl h)

theorem eq_of_findQuantifier {t : Text} {x : QuantifierCut}
    (h : findQuantifier (lexemes t) = some x) : t = x.before ++ (x.keyword ++ x.after) := by
  rw [← List.append_assoc, findQuantifier_append h, concat_lexemes]

theorem keyword_findQuantifier {ls : List Lexeme} {x : QuantifierCut}
    (h : findQuantifier ls = some x) : x.keyword = x.kind.keyword := by
  induction ls generalizing x with
  | nil => cases h
  | cons l ls ih =>
    rcases findQuantifier_cons h with ⟨k, raw, -, hk, rfl⟩ | ⟨-, y, hy, rfl⟩
    · exact (keyword_of_ofKeyword? hk).symm
    · have hkeyword := ih hy
      exact hkeyword

theorem findQuantifier_closed {s : Text} {x : QuantifierCut}
    (h : findQuantifier (lexemes s) = some x) : LiteralsClosed x.before := by
  fun_induction lexemes s generalizing x with
  | case1 => cases h
  | case2 c r ih =>
    rcases findQuantifier_cons h with ⟨k, raw, -, -, rfl⟩ | ⟨-, y, hy, rfl⟩
    · exact literalsClosed_nil
    · refine LiteralsClosed.append (literalsClosed_firstLexeme ?_) (ih hy)
      intro hnil
      rw [hnil, lexemes] at hy
      cases hy

theorem length_before_lt {ls ms : List Lexeme} {x : QuantifierCut}
    (h : findQuantifier (ls ++ ms) = some x) (hls : ls.any Lexeme.isQuantifier = true) :
    x.before.length < (unlex ls).length := by
  induction ls generalizing x with
  | nil => cases hls
  | cons l ls ih =>
    rw [unlex, List.flatMap_cons, List.length_append]
    rcases findQuantifier_cons h with ⟨k, raw, rfl, hk, rfl⟩ | ⟨hl, y, hy, rfl⟩
    · have hpos : 0 < raw.length := by
        rw [← keyword_of_ofKeyword? hk]
        cases k <;> decide
      show 0 < raw.length + _
      omega
    · rw [List.any_cons, hl, Bool.false_or] at hls
      have hlt := ih hy hls
      show (l.text ++ y.before).length < _
      rw [List.length_append]
      exact Nat.add_lt_add_left hlt _

theorem findQuantifier_free {s : Text} {x : QuantifierCut}
    (h : findQuantifier (lexemes s) = some x) : QuantifierFree x.before := by
  have hs : x.before ++ (x.keyword ++ x.after) = s := by
    rw [← List.append_assoc, findQuantifier_append h, concat_lexemes]
  have hfresh : StartsFresh (x.keyword ++ x.after) := by
    rw [keyword_findQuantifier h]
    cases x.kind <;> exact fun c hc => by cases hc; decide
  have hlex := lexemes_append (findQuantifier_closed h) hfresh
  rw [hs] at hlex
  rw [hlex] at h
  -- a quantifier before the first one would have been found in its place
  cases hany : (lexemes x.before).any Lexeme.isQuantifier with
  | false =>
    rw [← isSome_findQuantifier] at hany
    exact hany
  | true =>
    have hlt := length_before_lt h hany
    rw [concat_lexemes] at hlt
    exact absurd hlt (Nat.lt_irrefl _)

end ContractChecks
