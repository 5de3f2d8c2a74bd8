import ContractChecks.Proofs.TopLevelPieces
import ContractChecks.Proofs.RenamedText

/-!
# Literals are opaque

No scan looks into a literal.  When the content of a literal is replaced, every scan finds the same
things at the same places, but for the shift of the places after the literal.

* `isLiteralBody q c`: the text `c` between two marks `q` is one literal, `literalText q c`;
* `IsLiteral q m`: what the scans need to know of a literal `m`;
* `AlignedOffsets`: offsets of the same place in two texts that differ in a literal only;
* `Places sep a b`: places in the texts before and after a literal where a scan cuts;
* `ScansAgree a b m m'`: all scans agree on `a`, `b` with `m` or `m'` between them;
* `scans_agree`: this is so for any two literals with the same marks.
-/

namespace ContractChecks

/-! ### literals -/

/-- outside escapes there is neither the mark nor a backslash that escapes something -/
def isLiteralBody (q : Char) : Text → Bool
  | [] => true
  | [c] => !(c = '\\' && escapes q) && c != q
  | c :: d :: r =>
    if c = '\\' && escapes q then isLiteralBody q r else c != q && isLiteralBody q (d :: r)

/-- a text between two marks -/
def literalText (q : Char) (c : Text) : Text := q :: (c ++ [q])

structure IsLiteral (q : Char) (m : Text) : Prop where
  mark : isQuoteMark q = true
  head : ∃ r, m = q :: r
  last : m.getLast? = some q
  closed : LiteralsClosed m
  inside : Quoting.code.InLiterals m
  first : ∀ b, lexemes (m ++ b) = .literal m :: lexemes b

theorem not_escape_of_mark {q : Char} (hq : isQuoteMark q = true) :
    (q = '\\' && escapes q) = false := by
  rcases isQuoteMark_cases hq with rfl | rfl | rfl <;> rfl

theorem inLiterals_append {st : Quoting} {s t : Text} :
    st.InLiterals (s ++ t) ↔ st.InLiterals s ∧ (st.after s).InLiterals t := by
  induction s generalizing st with
  | nil => exact ⟨fun h => ⟨trivial, h⟩, And.right⟩
  | cons c s ih =>
    rw [List.cons_append, Quoting.InLiterals, ih, ← and_assoc]
    rfl

section body

variable {q : Char} {c : Text}

theorem after_body (h : isLiteralBody q c = true) :
    (Quoting.within q).InLiterals c ∧ (Quoting.within q).after c = .within q := by
  have hplain : ∀ {d : Char}, ¬(d = '\\' && escapes q) = true → d ≠ q →
      (Quoting.within q).next d = .within q := by
    intro d hescape hd
    rw [Quoting.next, if_neg hescape, if_neg hd]
  have hcode : Quoting.within q ≠ .code := by simp
  fun_induction isLiteralBody q c with
  | case1 => exact ⟨trivial, rfl⟩
  | case2 d =>
    rw [Bool.and_eq_true, Bool.not_eq_true', bne_iff_ne] at h
    exact ⟨⟨.inl hcode, trivial⟩, hplain (Bool.not_eq_true _ ▸ h.1) h.2⟩
  | case3 d e r hescape ih =>
    have hnext : (Quoting.within q).next d = .escaped q := if_pos hescape
    rw [Quoting.InLiterals, Quoting.InLiterals, Quoting.after_cons, Quoting.after_cons, hnext]
    exact ⟨⟨.inl hcode, .inl (by simp), (ih h).1⟩, (ih h).2⟩
  | case4 d e r hescape ih =>
    rw [Bool.and_eq_true, bne_iff_ne] at h
    rw [Quoting.InLiterals, Quoting.after_cons, hplain hescape h.1]
    exact ⟨⟨.inl hcode, (ih h.2).1⟩, (ih h.2).2⟩

theorem literalTail_body (hq : isQuoteMark q = true) (h : isLiteralBody q c = true) (b : Text) :
    literalTail q (c ++ q :: b) = (c ++ [q], b) := by
  have hmark : literalTail q (q :: b) = ([q], b) := by
    cases b with
    | nil => rfl
    | cons d b => rw [literalTail, not_escape_of_mark hq, if_neg (by decide), if_pos rfl]
  fun_induction isLiteralBody q c with
  | case1 => exact hmark
  | case2 d =>
    rw [Bool.and_eq_true, Bool.not_eq_true', bne_iff_ne] at h
    rw [List.singleton_append, literalTail, h.1, if_neg (by decide), if_neg h.2, hmark]
    rfl
  | case3 d e r hescape ih =>
    rw [List.cons_append, List.cons_append, literalTail, if_pos hescape, ih h]
    rfl
  | case4 d e r hescape ih =>
    rw [Bool.and_eq_true, bne_iff_ne] at h
    rw [List.cons_append, List.cons_append, literalTail, if_neg hescape, if_neg h.1,
      ← List.cons_append, ih h.2]
    rfl

end body

theorem isLiteral_literalText {q : Char} {c : Text} (hq : isQuoteMark q = true)
    (hc : isLiteralBody q c = true) : IsLiteral q (literalText q c) := by
  obtain ⟨hinside, hafter⟩ := after_body hc
  have hopen : Quoting.code.next q = .within q := if_pos hq
  have hclose : (Quoting.within q).next q = .code := by
    rw [Quoting.next, not_escape_of_mark hq, if_neg (by decide), if_pos rfl]
  refine ⟨hq, ⟨c ++ [q], rfl⟩, ?_, ?_, ?_, fun b => ?_⟩
  · rw [literalText, ← List.cons_append, List.getLast?_concat]
  · show (Quoting.code.next q).after (c ++ [q]) = .code
    rw [hopen, Quoting.after_append, hafter]
    exact hclose
  · refine ⟨.inr hq, ?_⟩
    rw [hopen, inLiterals_append, hafter]
    exact ⟨hinside, .inr hq, trivial⟩
  · have htail := literalTail_body hq hc b
    have hfirst : firstLexeme q (c ++ q :: b) = (.literal (literalText q c), b) := by
      rw [firstLexeme, if_pos hq, htail]
      rfl
    have htext : literalText q c ++ b = q :: (c ++ q :: b) := by simp [literalText]
    rw [htext, lexemes, hfirst]

/-! ### names -/

/-- offsets of one place in `a ++ (m ++ b)` and `a ++ (m' ++ b)`, before or after the part in which
the texts differ -/
def AlignedOffsets (a m m' : Text) (n n' : Nat) : Prop :=
  (n ≤ a.bytes ∧ n' = n) ∨ ∃ k, n = (a ++ m).bytes + k ∧ n' = (a ++ m').bytes + k

structure Occurrence.Aligned (a m m' : Text) (o o' : Occurrence) : Prop where
  text : o.text = o'.text
  selector : o.selector = o'.selector
  start : AlignedOffsets a m m' o.start o'.start
  stop : AlignedOffsets a m m' o.stop o'.stop

def Lexeme.occurrence? (pos : Nat) (last : Option Char) : Lexeme → Option Occurrence
  | .keyword raw => some ⟨raw, pos, pos + raw.bytes, false⟩
  | .name raw => some ⟨raw, pos, pos + raw.bytes, last == some '.'⟩
  | _ => none

theorem occurrencesFrom_cons (pos : Nat) (last : Option Char) (l : Lexeme) (ls : List Lexeme) :
    occurrencesFrom pos last (l :: ls)
      = (l.occurrence? pos last).toList
        ++ occurrencesFrom (pos + l.text.bytes) (l.lastMark last) ls := by
  cases l <;> rfl

theorem bytes_unlex_cons (l : Lexeme) (ls : List Lexeme) :
    Text.bytes (unlex (l :: ls)) = l.text.bytes + Text.bytes (unlex ls) := by
  rw [← Text.bytes_append]
  rfl

theorem occurrencesFrom_append (pos : Nat) (last : Option Char) (ls ls' : List Lexeme) :
    occurrencesFrom pos last (ls ++ ls')
      = occurrencesFrom pos last ls
        ++ occurrencesFrom (pos + Text.bytes (unlex ls)) (lastMarkAfter last ls) ls' := by
  induction ls generalizing pos last with
  | nil => rfl
  | cons l ls ih =>
    rw [List.cons_append, occurrencesFrom_cons, occurrencesFrom_cons, ih, List.append_assoc,
      bytes_unlex_cons, Nat.add_assoc]
    rfl

theorem occurrencesFrom_bounds (pos : Nat) (last : Option Char) (ls : List Lexeme) :
    ∀ o ∈ occurrencesFrom pos last ls, o.start ≤ o.stop ∧ o.stop ≤ pos + Text.bytes (unlex ls) := by
  induction ls generalizing pos last with
  | nil => simp [occurrencesFrom]
  | cons l ls ih =>
    intro o ho
    rw [occurrencesFrom_cons, List.mem_append, Option.mem_toList] at ho
    rw [bytes_unlex_cons]
    rcases ho with ho | ho
    · have hown : o.start = pos ∧ o.stop = pos + l.text.bytes := by
        cases l <;> cases ho <;> exact ⟨rfl, rfl⟩
      omega
    · have hrest := ih _ _ o ho
      omega

/-- the same lexemes give the same names at the same places after both texts -/
theorem occurrencesFrom_aligned (a m m' : Text) (k : Nat) (last : Option Char) (ls : List Lexeme) :
    List.Forall₂ (Occurrence.Aligned a m m') (occurrencesFrom ((a ++ m).bytes + k) last ls)
      (occurrencesFrom ((a ++ m').bytes + k) last ls) := by
  induction ls generalizing k last with
  | nil => exact .nil
  | cons l ls ih =>
    have hrest := ih (k + l.text.bytes) (l.lastMark last)
    rw [← Nat.add_assoc, ← Nat.add_assoc] at hrest
    have hword : ∀ (raw : Text) (selector : Bool), Occurrence.Aligned a m m'
        ⟨raw, (a ++ m).bytes + k, (a ++ m).bytes + k + raw.bytes, selector⟩
        ⟨raw, (a ++ m').bytes + k, (a ++ m').bytes + k + raw.bytes, selector⟩ := fun raw _ =>
      ⟨rfl, rfl, .inr ⟨k, rfl, rfl⟩, .inr ⟨k + raw.bytes, Nat.add_assoc _ _ _, Nat.add_assoc _ _ _⟩⟩
    cases l with
    | keyword raw => exact .cons (hword raw false) hrest
    | name raw => exact .cons (hword raw (last == some '.')) hrest
    | literal raw => exact hrest
    | number raw => exact hrest
    | other d => exact hrest

section scans

variable {q : Char} {a m : Text} (ha : LiteralsClosed a) (hm : IsLiteral q m)
include ha hm

theorem occurrences_literal (b : Text) :
    occurrences (a ++ (m ++ b))
      = occurrences a ++ occurrencesFrom (a ++ m).bytes (some q) (lexemes b) := by
  have hfresh : StartsFresh (m ++ b) := by
    obtain ⟨r, rfl⟩ := hm.head
    rintro d ⟨⟩
    rcases isQuoteMark_cases hm.mark with rfl | rfl | rfl <;> decide
  have hmark : (Lexeme.literal m).lastMark (lastMarkAfter none (lexemes a)) = some q := hm.last
  rw [occurrences, lexemes_append ha hfresh, hm.first, occurrencesFrom_append, concat_lexemes,
    occurrencesFrom_cons, hmark, Nat.zero_add, Text.bytes_append]
  rfl

/-! ### brackets and operators -/

theorem cutCloseFrom_literal (depth : Int) (b : Text) :
    cutCloseFrom .code depth (a ++ (m ++ b))
      = ((cutCloseFrom .code depth a).map fun p => (p.1, p.2 ++ (m ++ b))).or
          ((cutCloseFrom .code (Quoting.code.depthFrom depth a) b).map
            fun p => (a ++ (m ++ p.1), p.2)) := by
  rw [cutCloseFrom_joined, ha.after_eq, cutCloseFrom_inLiterals hm.inside, hm.closed.after_eq,
    Option.map_map]
  rfl

theorem stallsFrom_literal (b : Text) :
    stallsFrom .code 0 (a ++ (m ++ b))
      = (stallsFrom .code 0 a || stallsFrom .code (Quoting.code.depthFrom 0 a) b) := by
  rw [stallsFrom_append, stallsFrom_append, ha.after_eq, stallsFrom_inLiterals hm.inside,
    hm.closed.after_eq, depthFrom_inLiterals hm.inside, Bool.false_or]

theorem cutRelationFrom_literal (b : Text) :
    cutRelationFrom .code 0 (a ++ (m ++ b))
      = ((cutRelationFrom .code 0 a).map fun p => (p.1, p.2.1, p.2.2 ++ (m ++ b))).or
          ((cutRelationFrom .code (Quoting.code.depthFrom 0 a) b).map
            fun p => (a ++ (m ++ p.1), p.2)) := by
  have hpass := cutRelationFrom_inLiterals hm.inside (Quoting.code.depthFrom 0 a) b
  rw [hm.closed.after_eq] at hpass
  obtain ⟨r, rfl⟩ := hm.head
  rw [List.cons_append] at hpass
  rw [List.cons_append, cutRelationFrom_joined hm.mark, ha.after_eq, hpass, Option.map_map]
  rfl

theorem cutAssignFrom_literal (b : Text) :
    cutAssignFrom .code 0 none (a ++ (m ++ b))
      = ((cutAssignFrom .code 0 none a).map fun p => (p.1, p.2 ++ (m ++ b))).or
          ((cutAssignFrom .code (Quoting.code.depthFrom 0 a) (some q) b).map
            fun p => (a ++ (m ++ p.1), p.2)) := by
  have hpass := cutAssignFrom_inLiterals hm.inside (Quoting.code.depthFrom 0 a) none b
  rw [hm.last, hm.closed.after_eq] at hpass
  obtain ⟨r, rfl⟩ := hm.head
  rw [List.cons_append] at hpass
  rw [List.cons_append, cutAssignFrom_joined hm.mark, ha.after_eq, hpass, Option.map_map]
  rfl

end scans

/-! ### offsets of brackets -/

/-- byte `n` of the text is in a character that stands outside literals, or opens one -/
def OutsideLiterals (a : Text) (n : Nat) : Prop :=
  ∃ x c y, a = x ++ c :: y ∧ x.bytes ≤ n ∧ n < x.bytes + c.utf8Size ∧ LiteralsClosed x

theorem seekFrom_skip {pos start : Nat} {x : Text} (h : pos + x.bytes ≤ start) (y : Text) :
    seekFrom pos start (x ++ y) = seekFrom (pos + x.bytes) start y := by
  induction x generalizing pos with
  | nil => rfl
  | cons c x ih =>
    have hpos := Char.utf8Size_pos c
    rw [Text.bytes_cons] at h ⊢
    rw [List.cons_append, seekFrom, if_neg (by omega), ih (by omega), Nat.add_assoc]

theorem seekFrom_of_le {pos start : Nat} (h : start ≤ pos) (s : Text) :
    seekFrom pos start s = (pos, s) := by
  cases s with
  | nil => rfl
  | cons c s => exact if_pos h

/-- the place from which brackets are counted, outside literals as well -/
theorem OutsideLiterals.seek {a : Text} {n : Nat} (h : OutsideLiterals a n) :
    ∃ x y, a = x ++ y ∧ LiteralsClosed x ∧ ∀ t, seekFrom 0 n (a ++ t) = (x.bytes, y ++ t) := by
  obtain ⟨x, c, y, rfl, hle, hlt, hx⟩ := h
  have hskip : ∀ t, seekFrom 0 n (x ++ c :: y ++ t) = seekFrom x.bytes n (c :: (y ++ t)) := by
    intro t
    rw [List.append_assoc, seekFrom_skip (by omega), Nat.zero_add]
    rfl
  by_cases hn : n ≤ x.bytes
  · exact ⟨x, c :: y, rfl, hx, fun t => (hskip t).trans (seekFrom_of_le hn _)⟩
  · -- a character of more than one byte is no quotation mark
    have hc : isQuoteMark c = false := by
      by_contra hquote
      rcases isQuoteMark_cases (Bool.not_eq_false _ ▸ hquote) with rfl | rfl | rfl <;>
        exact hn (Nat.le_of_lt_succ hlt)
    refine ⟨x ++ [c], y, by rw [List.append_assoc]; rfl, ?_, fun t => ?_⟩
    · exact hx.append (literalsClosed_of_noQuote (List.forall_mem_singleton.2 hc))
    · rw [hskip, seekFrom, if_neg hn, seekFrom_of_le (by omega), Text.bytes_append]
      rfl

/-- the bracket that closes is found before the literal or after it, whatever the literal is -/
theorem matchClose_literal {a : Text} {n : Nat} (h : OutsideLiterals a n)
    (ha : LiteralsClosed a) (b : Text) :
    ∃ before after : Option Nat, (∀ k ∈ before, k ≤ a.bytes) ∧ ∀ q m, IsLiteral q m →
      matchClose (a ++ (m ++ b)) n = before.or (after.map ((a ++ m).bytes + ·)) := by
  obtain ⟨x, y, rfl, hx, hseek⟩ := h.seek
  have hy : LiteralsClosed y := hx.of_append ha
  refine ⟨(cutClose y).map fun p => x.bytes + p.1.bytes,
    (cutCloseFrom .code (Quoting.code.depthFrom 0 y) b).map fun p => p.1.bytes, ?_,
    fun q m hm => ?_⟩
  · intro k hk
    obtain ⟨⟨l, r⟩, hcut, rfl⟩ := Option.map_eq_some_iff.1 hk
    rw [Text.bytes_append, ← cutClose_append hcut, Text.bytes_append]
    exact Nat.add_le_add_left (Nat.le_add_right _ _) _
  · rw [matchClose, hseek]
    show (cutCloseFrom .code 0 (y ++ (m ++ b))).map _ = _
    rw [cutCloseFrom_literal hy hm, Option.map_or, Option.map_map, Option.map_map, Option.map_map]
    congr 2
    funext p
    simp only [Function.comp, Text.bytes_append]
    omega

/-! ### cuts -/

/-- Places in the texts before and after a literal where a scan cuts at `sep`.  Put back between the
pieces, `sep` gives the texts again. -/
structure Places (sep a b : Text) where
  init : List Text
  front : Text
  back : Text
  rest : List Text
  joinBefore : Text.join sep (init ++ [front]) = a
  joinAfter : Text.join sep (back :: rest) = b

namespace Places

variable {sep a b : Text}

/-- the pieces when `m` stands between the texts -/
def pieces (p : Places sep a b) (m : Text) : List Text :=
  p.init ++ (p.front ++ (m ++ p.back)) :: p.rest

def before {l r : Text} (h : l ++ sep ++ r = a) (b : Text) : Places sep a b where
  init := [l]
  front := r
  back := b
  rest := []
  joinBefore := by
    rw [List.singleton_append, Text.join_cons_cons, Text.join_singleton, ← List.append_assoc, h]
  joinAfter := Text.join_singleton sep b

def after (a : Text) {l r : Text} (h : l ++ sep ++ r = b) : Places sep a b where
  init := []
  front := a
  back := l
  rest := [r]
  joinBefore := Text.join_singleton sep a
  joinAfter := by rw [Text.join_cons_cons, Text.join_singleton, ← List.append_assoc, h]

end Places

/-- the trimmed pieces of two texts that are cut at the same places -/
def CutAlike (sep a b m m' : Text) (ps ps' : List Text) : Prop :=
  ∃ p : Places sep a b, ps = (p.pieces m).map Text.trim ∧ ps' = (p.pieces m').map Text.trim

/-- two texts cut at the same relation -/
def ComparedAlike (a b m m' : Text) (x x' : Comparison) : Prop :=
  x.rel = x'.rel ∧ CutAlike x.rel.text a b m m' [x.lhs, x.rhs] [x'.lhs, x'.rhs]

/-- two texts cut at the same assignment sign, to which a colon before it belongs -/
def AssignedAlike (a b m m' : Text) (x x' : Text × Text) : Prop :=
  ∃ sign : Text, (sign = "=" ∨ sign = ":=") ∧ CutAlike sign a b m m' [x.1, x.2] [x'.1, x'.2]

/-- a sign at the end of a text that goes on after something else -/
theorem dropEnd_after {d : Char} {u : Text} (hu : u.getLast? ≠ some d) (l : Text) :
    Text.dropEnd [d] (u ++ l) = u ++ Text.dropEnd [d] l := by
  have hother : ∀ {s : Text}, s.getLast? ≠ some d → Text.dropEnd [d] s = s := by
    intro s hs
    refine Text.dropEnd_of_not_suffix ?_
    rintro ⟨t, rfl⟩
    exact hs List.getLast?_concat
  cases l using List.reverseRecOn with
  | nil => rw [List.append_nil, hother hu, hother (by simp), List.append_nil]
  | append_singleton l e _ =>
    by_cases he : e = d
    · rw [he, Text.dropEnd_append, ← List.append_assoc, Text.dropEnd_append]
    · have hend : ∀ t : Text, (t ++ [e]).getLast? ≠ some d := by simp [he]
      rw [hother (hend l), ← List.append_assoc, hother (hend (u ++ l))]

theorem exists_dropEnd (stop s : Text) :
    ∃ t, (t = [] ∨ t = stop) ∧ Text.dropEnd stop s ++ t = s := by
  by_cases h : stop <:+ s
  · obtain ⟨r, rfl⟩ := h
    exact ⟨stop, .inr rfl, by rw [Text.dropEnd_append]⟩
  · exact ⟨[], .inl rfl, by rw [Text.dropEnd_of_not_suffix h, List.append_nil]⟩

/-- the colon before an assignment sign belongs to it -/
theorem exists_sign {s l r : Text} (h : l ++ '=' :: r = s) : ∃ sign : Text,
    (sign = "=" ∨ sign = ":=") ∧ Text.dropEnd ":" l ++ sign ++ r = s := by
  obtain ⟨t, ht, hl⟩ := exists_dropEnd ":" l
  refine ⟨t ++ "=", ?_, ?_⟩
  · rcases ht with rfl | rfl
    · exact .inl rfl
    · exact .inr rfl
  · rw [← List.append_assoc, hl, List.append_assoc, ← h]
    rfl

theorem IsLiteral.dropEnd {q : Char} {m : Text} (hm : IsLiteral q m) (a l : Text) :
    Text.dropEnd ":" (a ++ (m ++ l)) = a ++ (m ++ Text.dropEnd ":" l) := by
  have hlast : (a ++ m).getLast? ≠ some ':' := by
    rw [List.getLast?_append, hm.last, Option.some_or]
    rcases isQuoteMark_cases hm.mark with rfl | rfl | rfl <;> decide
  rw [← List.append_assoc, ← List.append_assoc]
  exact dropEnd_after hlast l

/-- All scans agree on the texts with `m` and with `m'` between `a` and `b`. -/
structure ScansAgree (a b m m' : Text) : Prop where
  names : List.Forall₂ (Occurrence.Aligned a m m') (occurrences (a ++ (m ++ b)))
    (occurrences (a ++ (m' ++ b)))
  closing : ∀ n, OutsideLiterals a n → Option.Rel (AlignedOffsets a m m')
    (matchClose (a ++ (m ++ b)) n) (matchClose (a ++ (m' ++ b)) n)
  comparison : Option.Rel (ComparedAlike a b m m') (comparison? (a ++ (m ++ b)))
    (comparison? (a ++ (m' ++ b)))
  assignment : Option.Rel (AssignedAlike a b m m') (assignment? (a ++ (m ++ b)))
    (assignment? (a ++ (m' ++ b)))
  pieces : ∀ sep, (∀ d ∈ sep, isQuoteMark d = false) →
    Option.Rel (CutAlike sep a b m m') (splitTop? sep (a ++ (m ++ b)))
      (splitTop? sep (a ++ (m' ++ b)))
  /-- a scan for pieces that has no end has none for both texts -/
  endless : ∀ sep, (∀ d ∈ sep, isQuoteMark d = false) →
    ((∀ n, SplitState.run sep n { rest := a ++ (m ++ b) } = none) ↔
      ∀ n, SplitState.run sep n { rest := a ++ (m' ++ b) } = none)

section agree

variable {q : Char} {a m m' : Text} (ha : LiteralsClosed a) (hm : IsLiteral q m)
  (hm' : IsLiteral q m') (b : Text)
include ha hm hm'

theorem occurrences_agree :
    List.Forall₂ (Occurrence.Aligned a m m') (occurrences (a ++ (m ++ b)))
      (occurrences (a ++ (m' ++ b))) := by
  rw [occurrences_literal ha hm, occurrences_literal ha hm']
  have hsame : ∀ o ∈ occurrences a, Occurrence.Aligned a m m' o o := by
    intro o ho
    have hbounds := occurrencesFrom_bounds 0 none (lexemes a) o ho
    rw [concat_lexemes, Nat.zero_add] at hbounds
    exact ⟨rfl, rfl, .inl ⟨by omega, rfl⟩, .inl ⟨by omega, rfl⟩⟩
  exact List.rel_append (List.forall₂_same.2 hsame)
    (occurrencesFrom_aligned a m m' 0 (some q) (lexemes b))

theorem matchClose_agree {n : Nat} (hn : OutsideLiterals a n) :
    Option.Rel (AlignedOffsets a m m') (matchClose (a ++ (m ++ b)) n)
      (matchClose (a ++ (m' ++ b)) n) := by
  obtain ⟨before, after, hbefore, hmatch⟩ := matchClose_literal hn ha b
  rw [hmatch q m hm, hmatch q m' hm']
  match before, after with
  | some k, _ => exact .some (.inl ⟨hbefore k rfl, rfl⟩)
  | none, some k => exact .some (.inr ⟨k, rfl, rfl⟩)
  | none, none => exact .none

theorem comparison?_agree :
    Option.Rel (ComparedAlike a b m m') (comparison? (a ++ (m ++ b)))
      (comparison? (a ++ (m' ++ b))) := by
  rw [comparison?, comparison?, cutRelationFrom_literal ha hm, cutRelationFrom_literal ha hm']
  cases hfirst : cutRelationFrom .code 0 a with
  | some p =>
    obtain ⟨l, rel, r⟩ := p
    exact .some ⟨rfl, .before (cutRelationFrom_append hfirst) b, rfl, rfl⟩
  | none =>
    cases hsecond : cutRelationFrom .code (Quoting.code.depthFrom 0 a) b with
    | some p =>
      obtain ⟨l, rel, r⟩ := p
      exact .some ⟨rfl, .after a (cutRelationFrom_append hsecond), rfl, rfl⟩
    | none => exact .none

theorem assignment?_agree :
    Option.Rel (AssignedAlike a b m m') (assignment? (a ++ (m ++ b)))
      (assignment? (a ++ (m' ++ b))) := by
  rw [assignment?, assignment?, cutAssignFrom_literal ha hm, cutAssignFrom_literal ha hm']
  cases hfirst : cutAssignFrom .code 0 none a with
  | some p =>
    obtain ⟨l, r⟩ := p
    obtain ⟨sign, hsign, hjoin⟩ := exists_sign (cutAssignFrom_text hfirst)
    exact .some ⟨sign, hsign, .before hjoin b, rfl, rfl⟩
  | none =>
    cases hsecond : cutAssignFrom .code (Quoting.code.depthFrom 0 a) (some q) b with
    | some p =>
      obtain ⟨l, r⟩ := p
      obtain ⟨sign, hsign, hjoin⟩ := exists_sign (cutAssignFrom_text hsecond)
      exact .some ⟨sign, hsign, .after a hjoin,
        congrArg (fun t => [Text.trim t, r.trim]) (hm.dropEnd a l),
        congrArg (fun t => [Text.trim t, r.trim]) (hm'.dropEnd a l)⟩
    | none => exact .none

theorem splitTop_agree {sep : Text} (hsep : ∀ d ∈ sep, isQuoteMark d = false) :
    CutAlike sep a b m m' (splitTop sep (a ++ (m ++ b))) (splitTop sep (a ++ (m' ++ b))) := by
  obtain ⟨init, front, depth, hself, hjoined⟩ := cutTopFrom_joined hsep .code 0 a
  cases hrest : cutTopFrom sep .code depth 0 b with
  | nil => exact absurd hrest (cutTopFrom_ne_nil _ _ _ _ _)
  | cons back rest =>
    -- the literal joins the last piece before it and the first one after it
    have hcut : ∀ {m}, IsLiteral q m →
        cutTop sep (a ++ (m ++ b)) = init ++ (front ++ (m ++ back)) :: rest := by
      intro m hm
      have hpass := cutTopFrom_inLiterals hm.inside sep depth b
      rw [hm.closed.after_eq, hrest] at hpass
      obtain ⟨r, rfl⟩ := hm.head
      rw [List.cons_append] at hpass
      rw [cutTop, List.cons_append, hjoined q _ hm.mark, ha.after_eq, hpass]
      rfl
    have hfront : Text.join sep (init ++ [front]) = a := by rw [← hself, join_cutTopFrom]
    have hback : Text.join sep (back :: rest) = b := by rw [← hrest, join_cutTopFrom]
    refine ⟨⟨init, front, back, rest, hfront, hback⟩, ?_, ?_⟩
    · rw [splitTop, hcut hm]
      rfl
    · rw [splitTop, hcut hm']
      rfl

theorem splitTop?_agree {sep : Text} (hsep : ∀ d ∈ sep, isQuoteMark d = false) :
    Option.Rel (CutAlike sep a b m m') (splitTop? sep (a ++ (m ++ b)))
      (splitTop? sep (a ++ (m' ++ b))) := by
  rw [splitTop?_eq, splitTop?_eq, stallsFrom_literal ha hm, stallsFrom_literal ha hm']
  split
  · exact .none
  · exact .some (splitTop_agree ha hm hm' b hsep)

theorem endless_agree {sep : Text} (hsep : ∀ d ∈ sep, isQuoteMark d = false) :
    (∀ n, SplitState.run sep n { rest := a ++ (m ++ b) } = none) ↔
      ∀ n, SplitState.run sep n { rest := a ++ (m' ++ b) } = none := by
  rw [← splitTop?_eq_none_iff, ← splitTop?_eq_none_iff]
  have hpieces := splitTop?_agree ha hm hm' b hsep
  generalize splitTop? sep (a ++ (m ++ b)) = x, splitTop? sep (a ++ (m' ++ b)) = y at hpieces
  cases hpieces <;> simp

end agree

/-- Whatever stands in a literal, the scans of the text around it agree. -/
theorem scans_agree {q : Char} {a c c' : Text} (ha : LiteralsClosed a) (hq : isQuoteMark q = true)
    (hc : isLiteralBody q c = true) (hc' : isLiteralBody q c' = true) (b : Text) :
    ScansAgree a b (literalText q c) (literalText q c') := by
  have hm := isLiteral_literalText hq hc
  have hm' := isLiteral_literalText hq hc'
  exact {
    names := occurrences_agree ha hm hm' b
    closing := fun _ => matchClose_agree ha hm hm' b
    comparison := comparison?_agree ha hm hm' b
    assignment := assignment?_agree ha hm hm' b
    pieces := fun _ => splitTop?_agree ha hm hm' b
    endless := fun _ => endless_agree ha hm hm' b }

theorem scans_agree_escaped :
    LiteralsClosed "ok = f(\"(\", " ∧ isLiteralBody '"' "< x, = " = true ∧
      isLiteralBody '"' "\\\")" = true ∧
      ScansAgree "ok = f(\"(\", " ", y.z) < 2" (literalText '"' "< x, = ")
        (literalText '"' "\\\")") :=
  have ha : LiteralsClosed "ok = f(\"(\", " := by decide
  ⟨ha, by decide, by decide, scans_agree ha (by decide) (by decide) (by decide) ", y.z) < 2"⟩

end ContractChecks
