import Mathlib.Data.List.TakeWhile
import ContractChecks.Proofs.MatchingBrackets
import ContractChecks.Proofs.NestedClosures

/-!
# Offsets of quantifiers

The outermost quantifiers of a text can also be found by byte offsets, in one pass over the names and
keywords of the whole text: those before the end of the last quantifier are passed over, the
parenthesis is looked for before a keyword, and the bracket that closes it behind it.

* `quantifierOffsets s`: the offsets that this pass computes;
* `QuantifierSpan.LocatedAt`: the offsets cut a span out of the text;
* `quantifierOffsets_located`: the pass finds the outermost quantifiers, one after the other;
* `SpanOffsets.InRange`: the offsets are in order and stay inside of the text;
* `Expander.expand_wellNested`: closures are well nested, and no offset leaves its range.
-/

namespace ContractChecks

/-! ### the pass -/

/-- the characters of a text before byte `n` -/
def takeBytes : Nat → Text → Text
  | _, [] => []
  | n, c :: r => if n = 0 then [] else c :: takeBytes (n - c.utf8Size) r

/-- the offset of the parenthesis before byte `stop`, with nothing but layout between them -/
def parenBefore? (s : Text) (stop : Nat) : Option Nat :=
  let front := (takeBytes stop s).trimLayoutEnd
  if front.getLast? = some '(' then some (Text.bytes front.dropLast) else none

/-- where the end of the quantifier before, the parenthesis, the end of the keyword and the closing
bracket are -/
structure SpanOffsets where
  last : Nat
  start : Nat
  keywordStop : Nat
  close : Nat
deriving DecidableEq, Repr

/-- the offsets of the quantifiers among some occurrences, up to the first one that is not in
parentheses; `last` is the end of the quantifier before -/
def offsetsFrom (s : Text) (last : Nat) : List Occurrence → List SpanOffsets
  | [] => []
  | o :: os =>
    if o.start < last || (QuantifierKind.ofKeyword? o.text).isNone then offsetsFrom s last os
    else
      match parenBefore? s o.start with
      | none => []
      | some start =>
        match matchClose s start with
        | none => []
        | some close => ⟨last, start, o.stop, close⟩ :: offsetsFrom s (close + 1) os

def quantifierOffsets (s : Text) : List SpanOffsets := offsetsFrom s 0 (occurrences s)

/-! ### byte offsets -/

theorem takeBytes_append (a b : Text) : takeBytes (Text.bytes a) (a ++ b) = a := by
  induction a with
  | nil => cases b <;> rfl
  | cons c a ih =>
    have hpos := Char.utf8Size_pos c
    rw [Text.bytes_cons, List.cons_append, takeBytes, if_neg (by omega), Nat.add_sub_cancel_left, ih]

/-- layout at the end of a text, after a text that ends otherwise -/
theorem trimLayoutEnd_append {a : Text} (ha : ∀ c ∈ a.getLast?, isLayout c = false) (t : Text) :
    Text.trimLayoutEnd (a ++ t) = a ++ Text.trimLayoutEnd t := by
  unfold Text.trimLayoutEnd
  rw [List.reverse_append, List.dropWhile_append]
  split
  case isTrue hnil =>
    have hkeep : a.reverse.dropWhile isLayout = a.reverse := by
      cases hrev : a.reverse with
      | nil => rfl
      | cons c r =>
        have hlast : a.getLast? = some c := by rw [← List.head?_reverse, hrev]; rfl
        rw [List.dropWhile_cons, ha c hlast]
        rfl
    rw [hkeep, List.isEmpty_iff.1 hnil, List.reverse_reverse, List.reverse_nil, List.append_nil]
  case isFalse => rw [List.reverse_append, List.reverse_reverse]

/-- the parenthesis is looked for after the end of the quantifier before -/
theorem parenBefore?_append {a : Text} (ha : ∀ c ∈ a.getLast?, isClosing c = true) (t u : Text) :
    parenBefore? (a ++ (t ++ u)) (Text.bytes a + Text.bytes t)
      = if t.trimLayoutEnd.getLast? = some '(' then
          some (Text.bytes a + Text.bytes t.trimLayoutEnd.dropLast)
        else none := by
  have htake : takeBytes (Text.bytes a + Text.bytes t) (a ++ (t ++ u)) = a ++ t := by
    rw [← Text.bytes_append, ← List.append_assoc, takeBytes_append]
  rw [parenBefore?, htake, trimLayoutEnd_append fun c hc => (isMark_of_isClosing (ha c hc)).2]
  cases hfront : t.trimLayoutEnd with
  | nil =>
    have hother : a.getLast? ≠ some '(' := fun hparen => by cases ha '(' hparen
    rw [List.append_nil, if_neg hother]
    rfl
  | cons c r =>
    rw [List.getLast?_append_of_ne_nil a (List.cons_ne_nil c r),
      List.dropLast_append_of_ne_nil (List.cons_ne_nil c r), Text.bytes_append]

/-! ### occurrences that are passed over -/

theorem isNone_ofKeyword?_of_found {t : Text} {x : QuantifierCut}
    (h : findQuantifier (lexemes t) = some x) :
    (QuantifierKind.ofKeyword? x.keyword).isNone = false := by
  rw [keyword_findQuantifier h]
  cases x.kind <;> decide

theorem isNone_ofKeyword?_of_name {c : Char} {r raw : Text} (h : (firstLexeme c r).1 = .name raw) :
    (QuantifierKind.ofKeyword? raw).isNone = true := by
  have hstart : raw.head?.any isNameStart = true := by
    unfold firstLexeme at h
    split at h
    · cases h
    split at h
    · cases h
    split at h
    · rename_i hname
      cases h
      exact hname
    split at h
    · cases h
    · cases h
  cases hk : QuantifierKind.ofKeyword? raw with
  | none => rfl
  | some k =>
    rw [← keyword_of_ofKeyword? hk] at hstart
    revert hstart
    cases k <;> decide

/-- a lexeme other than the keyword of a quantifier -/
theorem offsetsFrom_plain {s : Text} {last pos : Nat} {mark : Option Char} {c : Char} {r : Text}
    (h : (firstLexeme c r).1.isQuantifier = false) (ls : List Lexeme) :
    offsetsFrom s last (occurrencesFrom pos mark ((firstLexeme c r).1 :: ls))
      = offsetsFrom s last (occurrencesFrom (pos + (firstLexeme c r).1.text.bytes)
          ((firstLexeme c r).1.lastMark mark) ls) := by
  cases hl : (firstLexeme c r).1 with
  | keyword raw =>
    rw [hl, Lexeme.isQuantifier, Option.isSome_eq_false_iff] at h
    rw [occurrencesFrom, offsetsFrom, h, Bool.or_true, if_pos rfl]
  | name raw =>
    rw [occurrencesFrom, offsetsFrom, isNone_ofKeyword?_of_name hl, Bool.or_true, if_pos rfl]
  | literal raw => rfl
  | number raw => rfl
  | other d => rfl

/-- the pass goes on to the first quantifier -/
theorem offsetsFrom_found {s t : Text} {x : QuantifierCut} (h : findQuantifier (lexemes t) = some x)
    (last pos : Nat) (mark : Option Char) :
    offsetsFrom s last (occurrencesFrom pos mark (lexemes t))
      = offsetsFrom s last (⟨x.keyword, pos + Text.bytes x.before,
          pos + Text.bytes x.before + Text.bytes x.keyword, false⟩ ::
            occurrencesFrom (pos + Text.bytes x.before + Text.bytes x.keyword) x.keyword.getLast?
              (lexemes x.after)) := by
  fun_induction lexemes t generalizing x pos mark with
  | case1 => cases h
  | case2 c r ih =>
    rcases findQuantifier_cons h with ⟨k, raw, hl, -, rfl⟩ | ⟨hplain, y, hy, rfl⟩
    · rw [hl, concat_lexemes]
      rfl
    · rw [offsetsFrom_plain hplain, ih hy, Text.bytes_append, Nat.add_assoc pos]

theorem offsetsFrom_none {s t : Text} (h : findQuantifier (lexemes t) = none) (last pos : Nat)
    (mark : Option Char) : offsetsFrom s last (occurrencesFrom pos mark (lexemes t)) = [] := by
  have hfree : QuantifierFree t := by rw [QuantifierFree, containsQuantifier, h]; rfl
  rw [quantifierFree_iff] at hfree
  clear h
  fun_induction lexemes t generalizing pos mark with
  | case1 => rfl
  | case2 c r ih =>
    rw [List.forall_mem_cons] at hfree
    rw [offsetsFrom_plain hfree.1]
    exact ih _ _ hfree.2

/-- occurrences before the end of the last quantifier -/
theorem offsetsFrom_skip (s : Text) {last pos : Nat} (mark : Option Char) (ls ls' : List Lexeme)
    (h : pos + Text.bytes (unlex ls) < last) :
    ∃ mark', offsetsFrom s last (occurrencesFrom pos mark (ls ++ ls'))
      = offsetsFrom s last (occurrencesFrom (pos + Text.bytes (unlex ls)) mark' ls') := by
  induction ls generalizing pos mark with
  | nil => exact ⟨mark, rfl⟩
  | cons l ls ih =>
    have hsum : Text.bytes (unlex (l :: ls)) = Text.bytes l.text + Text.bytes (unlex ls) := by
      rw [unlex, List.flatMap_cons, Text.bytes_append]
      rfl
    rw [hsum, ← Nat.add_assoc] at h ⊢
    have hbefore : pos < last := by omega
    obtain ⟨mark', hrest⟩ := ih (l.lastMark mark) h
    refine ⟨mark', Eq.trans ?_ hrest⟩
    cases l with
    | keyword raw => rw [List.cons_append, occurrencesFrom, offsetsFrom]; simp [hbefore]
    | name raw => rw [List.cons_append, occurrencesFrom, offsetsFrom]; simp [hbefore]
    | literal raw => rfl
    | number raw => rfl
    | other c => rfl

/-! ### the quantifiers found -/

/-- the offsets cut the span out of the text, its keyword and its inside out of the span -/
def QuantifierSpan.LocatedAt (s : Text) (p : QuantifierSpan) (o : SpanOffsets) : Prop :=
  ∃ before gap close, s = before ++ (p.head ++ (p.text ++ p.rest)) ∧
    p.text = '(' :: (gap ++ (p.kind.keyword ++ (p.inner ++ [close]))) ∧ isClosing close = true ∧
    o.last = Text.bytes before ∧ o.start = Text.bytes (before ++ p.head) ∧
    o.keywordStop = Text.bytes (before ++ p.head ++ '(' :: (gap ++ p.kind.keyword)) ∧
    o.close = Text.bytes (before ++ p.head ++ '(' :: (gap ++ (p.kind.keyword ++ p.inner)))

theorem parenBefore?_layout {p : QuantifierSpan} {t : Text} {x : QuantifierCut} {gap : Text}
    {close : Char} (hp : p.Layout t x gap close) {before : Text}
    (hlast : ∀ c ∈ before.getLast?, isClosing c = true) :
    parenBefore? (before ++ t) (Text.bytes before + Text.bytes x.before)
      = some (Text.bytes (before ++ p.head)) := by
  have hgap : Text.trimLayoutEnd gap = [] := by
    rw [Text.trimLayoutEnd, List.reverse_eq_nil_iff, List.dropWhile_eq_nil_iff]
    exact fun c hc => hp.layout c (List.mem_reverse.1 hc)
  have hfront : Text.trimLayoutEnd x.before = p.head ++ ['('] := by
    have hparen : ∀ c ∈ (p.head ++ ['(']).getLast?, isLayout c = false := by
      intro c hc
      rw [List.getLast?_concat] at hc
      cases hc
      decide
    rw [hp.before, List.append_cons, trimLayoutEnd_append hparen, hgap, List.append_nil]
  rw [eq_of_findQuantifier hp.found, parenBefore?_append hlast, hfront, if_pos List.getLast?_concat,
    List.dropLast_concat, Text.bytes_append]

theorem matchClose_layout {p : QuantifierSpan} {t : Text} {x : QuantifierCut} {gap : Text}
    {close : Char} (hp : p.Layout t x gap close) (before : Text) :
    matchClose (before ++ t) (Text.bytes (before ++ p.head))
      = some (Text.bytes (before ++ p.head ++ '(' :: (gap ++ (x.keyword ++ p.inner)))) := by
  have htext : before ++ t = before ++ p.head ++ '(' :: (gap ++ (x.keyword ++ x.after)) := by
    rw [eq_of_findQuantifier hp.found, hp.before]
    simp only [List.append_assoc, List.cons_append]
  rw [htext, matchClose_append, hp.matched, Option.map_some, Text.bytes_append _ ('(' :: _)]

/-- the pass goes on behind the bracket that closes a quantifier -/
theorem offsetsFrom_inside {s t : Text} {p : QuantifierSpan} (h : firstSpan? t = .ok (some p))
    {x : QuantifierCut} {gap : Text} {close : Char} (hp : p.Layout t x gap close) {last pos : Nat}
    (hlast : pos + Text.bytes p.inner + 1 = last) (mark : Option Char) :
    offsetsFrom s last (occurrencesFrom pos mark (lexemes x.after))
      = offsetsFrom s last (occurrencesFrom last (some close) (lexemes p.rest)) := by
  obtain ⟨hmark, hlayout⟩ := isMark_of_isClosing hp.closing
  have hafter : lexemes x.after = lexemes p.inner ++ .other close :: lexemes p.rest := by
    rw [hp.after, lexemes_append (firstSpan?_spec h).2.2.1 (startsFresh_cons hmark _),
      lexemes_cons_mark hmark]
  have hbefore : pos + Text.bytes (unlex (lexemes p.inner)) < last := by
    rw [concat_lexemes]
    omega
  obtain ⟨mark', hskip⟩ := offsetsFrom_skip s mark _ (.other close :: lexemes p.rest) hbefore
  rw [hafter, hskip, concat_lexemes, ← hlast]
  show offsetsFrom s _ (occurrencesFrom (pos + Text.bytes p.inner + (close.utf8Size + 0))
    (if isLayout close = true then mark' else some close) (lexemes p.rest)) = _
  rw [utf8Size_of_isClosing hp.closing, hlayout]
  rfl

/-- one quantifier of the pass: its offsets, and the pass over the text after it -/
theorem offsetsFrom_span {before t : Text} (hlast : ∀ c ∈ before.getLast?, isClosing c = true)
    {p : QuantifierSpan} (h : firstSpan? t = .ok (some p)) (mark : Option Char) :
    ∃ o mark', QuantifierSpan.LocatedAt (before ++ t) p o ∧
      offsetsFrom (before ++ t) (Text.bytes before)
          (occurrencesFrom (Text.bytes before) mark (lexemes t))
        = o :: offsetsFrom (before ++ t) (Text.bytes (before ++ (p.head ++ p.text)))
          (occurrencesFrom (Text.bytes (before ++ (p.head ++ p.text))) mark' (lexemes p.rest)) := by
  obtain ⟨x, gap, close, hp⟩ := firstSpan?_layout h
  have hkeyword : x.keyword = p.kind.keyword := by rw [hp.keyword, hp.kind]
  have hstop : Text.bytes before + Text.bytes x.before + Text.bytes x.keyword
      = Text.bytes (before ++ p.head ++ '(' :: (gap ++ x.keyword)) := by
    rw [hp.before]
    simp only [Text.bytes_append, Text.bytes_cons]
    omega
  have hend : Text.bytes (before ++ (p.head ++ p.text))
      = Text.bytes (before ++ p.head ++ '(' :: (gap ++ (x.keyword ++ p.inner))) + 1 := by
    rw [hp.text]
    simp only [Text.bytes_append, Text.bytes_cons, Text.bytes_nil, utf8Size_of_isClosing hp.closing]
    omega
  have hinside : Text.bytes before + Text.bytes x.before + Text.bytes x.keyword
      + Text.bytes p.inner + 1 = Text.bytes (before ++ (p.head ++ p.text)) := by
    rw [hstop, hend]
    simp only [Text.bytes_append, Text.bytes_cons]
    omega
  refine ⟨⟨Text.bytes before, Text.bytes (before ++ p.head),
    Text.bytes (before ++ p.head ++ '(' :: (gap ++ x.keyword)),
    Text.bytes (before ++ p.head ++ '(' :: (gap ++ (x.keyword ++ p.inner)))⟩, some close,
    ⟨before, gap, close, ?_, ?_, hp.closing, rfl, rfl, ?_, ?_⟩, ?_⟩
  · rw [← (firstSpan?_text h).1]
  · rw [← hkeyword]
    exact hp.text
  · rw [← hkeyword]
  · rw [← hkeyword]
  · rw [offsetsFrom_found hp.found, offsetsFrom, isNone_ofKeyword?_of_found hp.found,
      Bool.or_false, if_neg (by simp), parenBefore?_layout hp hlast]
    dsimp only
    rw [matchClose_layout hp before]
    dsimp only
    rw [← hend, offsetsFrom_inside h hp hinside, hstop]

/-- a quantifier that is not in parentheses, or whose parenthesis is not closed, ends the pass -/
theorem offsetsFrom_stop {before t : Text} (hlast : ∀ c ∈ before.getLast?, isClosing c = true)
    (h : ∀ p, firstSpan? t ≠ .ok (some p)) (mark : Option Char) :
    offsetsFrom (before ++ t) (Text.bytes before)
      (occurrencesFrom (Text.bytes before) mark (lexemes t)) = [] := by
  cases hfound : findQuantifier (lexemes t) with
  | none => exact offsetsFrom_none hfound _ _ _
  | some x =>
    have htext := eq_of_findQuantifier hfound
    rw [offsetsFrom_found hfound, offsetsFrom, isNone_ofKeyword?_of_found hfound, Bool.or_false,
      if_neg (by simp)]
    nth_rewrite 1 [htext]
    rw [parenBefore?_append hlast]
    by_cases hparen : x.before.trimLayoutEnd.getLast? = some '('
    case neg =>
      rw [if_neg hparen]
    case pos =>
      obtain ⟨hbefore, -⟩ := eq_append_of_getLast? hparen
      -- the parenthesis is there, so it is the bracket that closes it that is missing
      simp only [firstSpan?, hfound, hparen, if_true, spanOf] at h
      generalize x.before.drop x.before.trimLayoutEnd.length = gap at *
      generalize x.before.trimLayoutEnd.dropLast = head at *
      have hcut : cutClose ('(' :: (gap ++ x.keyword ++ x.after)) = none := by
        cases hcut : cutClose ('(' :: (gap ++ x.keyword ++ x.after)) with
        | none => rfl
        | some q =>
          obtain ⟨a, b⟩ := q
          obtain ⟨-, c, rest, rfl, -⟩ := cutClose_closed hcut
          rw [hcut] at h
          exact absurd rfl (h _)
      have hwhole : before ++ t = before ++ head ++ '(' :: (gap ++ x.keyword ++ x.after) := by
        rw [htext, hbefore]
        simp only [List.append_assoc, List.cons_append]
      rw [if_pos hparen, ← Text.bytes_append]
      dsimp only
      rw [hwhole, matchClose_append, hcut]
      rfl

theorem offsetsFrom_located (t : Text) (n : Nat) : ∀ (before : Text) (mark : Option Char),
    (∀ c ∈ before.getLast?, isClosing c = true) →
      List.Forall₂ (QuantifierSpan.LocatedAt (before ++ t)) ((outermost n t).map Prod.fst)
        (offsetsFrom (before ++ t) (Text.bytes before)
          (occurrencesFrom (Text.bytes before) mark (lexemes t))) := by
  fun_induction outermost n t with
  | case1 n t p hspan ih =>
    intro before mark hlast
    obtain ⟨o, mark', hlocated, hpass⟩ := offsetsFrom_span hlast hspan mark
    rw [hpass]
    have hwhole : before ++ t = before ++ (p.head ++ p.text) ++ p.rest := by
      nth_rewrite 1 [(firstSpan?_text hspan).1]
      simp only [List.append_assoc]
    have hend : ∀ c ∈ (before ++ (p.head ++ p.text)).getLast?, isClosing c = true := by
      obtain ⟨-, a, c, htext, -, hc⟩ := firstSpan?_text hspan
      intro d hd
      rw [htext, ← List.cons_append, ← List.append_assoc, ← List.append_assoc,
        List.getLast?_concat] at hd
      cases hd
      exact hc
    refine .cons hlocated ?_
    rw [hwhole]
    exact ih _ mark' hend
  | case2 n t hnone =>
    intro before mark hlast
    rw [offsetsFrom_stop hlast hnone mark]
    exact .nil

/-- the pass finds the outermost quantifiers, one after the other -/
theorem quantifierOffsets_located (s : Text) (n : Nat) :
    List.Forall₂ (QuantifierSpan.LocatedAt s) ((outermost n s).map Prod.fst)
      (quantifierOffsets s) := by
  have hall := offsetsFrom_located s n [] none (by simp)
  rw [List.nil_append, Text.bytes_nil] at hall
  exact hall

/-! ### ranges -/

/-- the offsets are in order: the end of the quantifier before, the parenthesis, the end of the
keyword, the closing bracket and the end of the text -/
structure SpanOffsets.InRange (s : Text) (o : SpanOffsets) : Prop where
  start : o.last ≤ o.start
  keyword : o.start < o.keywordStop
  close : o.keywordStop ≤ o.close
  stop : o.close < Text.bytes s

theorem QuantifierSpan.LocatedAt.inRange {s : Text} {p : QuantifierSpan} {o : SpanOffsets}
    (h : p.LocatedAt s o) : o.InRange s := by
  obtain ⟨before, gap, close, rfl, htext, hclose, hlast, hstart, hkeyword, hstop⟩ := h
  have hparen : '('.utf8Size = 1 := rfl
  simp only [Text.bytes_append, Text.bytes_cons, hparen] at hstart hkeyword hstop
  refine ⟨by omega, by omega, by omega, ?_⟩
  rw [htext]
  simp only [Text.bytes_append, Text.bytes_cons, Text.bytes_nil, hparen,
    utf8Size_of_isClosing hclose]
  omega

theorem quantifierOffsets_inRange (s : Text) : ∀ o ∈ quantifierOffsets s, o.InRange s := by
  intro o ho
  obtain ⟨p, -, hlocated⟩ := exists_mem_of_forall₂ (quantifierOffsets_located s 0) o ho
  exact hlocated.inRange

/-- the closures of an expansion that succeeds are well nested, and its text nests as the renamed
predicate.  In whatever text quantifiers are expanded, the predicate or a filter or body inside of
it, the offsets of the outermost ones are in order and cut out the spans that are replaced. -/
theorem Expander.expand_wellNested {e : Expander} (hstem : isName e.stem = true) (pred : Text)
    (f : Renaming) :
    (∀ x e', e.expand pred f = (.ok x, e') →
        (∀ d ∈ x.decls, WellNested d) ∧ NestsAs (rename f pred) x.text) ∧
      ∀ s, List.Forall₂ (QuantifierSpan.LocatedAt s) ((outermost e.next s).map Prod.fst)
          (quantifierOffsets s) ∧
        ∀ o ∈ quantifierOffsets s, o.InRange s := by
  constructor
  · intro x e' h
    cases hp : (expandFrom e.stem (rename f pred)).run e.next with
    | mk r m =>
      rw [Expander.expand, hp] at h
      cases h
      have hkeeps := Expanded.keepsNesting hstem ⟨e.next, m, hp⟩
      exact ⟨hkeeps.decls, hkeeps.text⟩
  · exact fun s => ⟨quantifierOffsets_located s e.next, quantifierOffsets_inRange s⟩

/-- brackets inside of literals, a quantifier in the filter of another, and one after it -/
def bracketedPredicate : Text :=
  "é(\"(\", (\\forall r := range \")]\"; (\\exists i int; 0 <= i && i < n; p[i] == r); r != '\x7b'))"
    ++ " < ( \\num_of v := range m; v == ')')"

theorem expand_wellNested_bracketedPredicate :
    isName defaultStem = true ∧
      ∃ x e', ({} : Expander).expand bracketedPredicate [] = (.ok x, e') ∧ x.decls.length = 2 ∧
        (∀ d ∈ x.decls, WellNested d) ∧
        quantifierOffsets bracketedPredicate = [⟨0, 8, 16, 87⟩, ⟨88, 92, 101, 124⟩] ∧
        ∀ o ∈ quantifierOffsets bracketedPredicate, o.InRange bracketedPredicate := by
  have hstem : isName defaultStem = true := by decide
  have hcount : (({} : Expander).expand bracketedPredicate []).1.map (fun x => x.decls.length)
      = .ok 2 := by
    -- the kernel is slow in reading the characters of a literal, so they are put in its place
    unfold bracketedPredicate
    repeat rw [String.toList_ofList]
    decide +kernel
  obtain ⟨x, hx, hlength⟩ := except_map_eq_ok hcount
  obtain ⟨hnested, hoffsets⟩ := Expander.expand_wellNested (e := {}) hstem bracketedPredicate []
  refine ⟨hstem, x, _, Prod.ext hx rfl, hlength, (hnested x _ (Prod.ext hx rfl)).1, ?_,
    (hoffsets bracketedPredicate).2⟩
  unfold bracketedPredicate
  repeat rw [String.toList_ofList]
  decide +kernel

end ContractChecks
