import ContractChecks.Proofs.ExpansionRun
import ContractChecks.Proofs.QuantifierPieces

/-!
# What expansion leaves of the quantifiers

Filters and bodies are expanded, and so is the text around a quantifier; the headers of the loops
are copied as they stand.  So the only quantifiers left after an expansion are those in bounds and
in collections that are ranged over.

* `Piece s P`: a part of a closure, free of quantifiers exactly if `P`;
* `closureOf_free`: a closure is free of quantifiers if its headers, closures, filters and body are;
* `QuantifierIn s q`: expanding `s` meets the quantifier `q`;
* `HeadersFree s`: no loop of these quantifiers has a quantifier in its header;
* `expand_quantifierFree_iff`: expansion leaves no quantifier exactly if `HeadersFree`.
-/

namespace ContractChecks

/-! ### parts of a closure -/

structure Piece (s : Text) (P : Prop) : Prop where
  block : Block s
  free : QuantifierFree s ↔ P

theorem Piece.append {a b : Text} {P Q : Prop} (ha : Piece a P) (hb : Piece b Q) :
    Piece (a ++ b) (P ∧ Q) where
  block := ha.block.append hb.block
  free := by rw [ha.block.quantifierFree_iff b, ha.free, hb.free]

/-- a fixed text with neither quotation marks nor keywords -/
def isFixed (s : Text) : Bool := s.all fun c => !isQuoteMark c && c != '\\'

theorem isFixed_spec {s : Text} (h : isFixed s = true) : LiteralsClosed s ∧ QuantifierFree s := by
  have hchars : ∀ c ∈ s, isQuoteMark c = false ∧ c ≠ '\\' := by
    intro c hc
    have hboth := List.all_eq_true.1 h c hc
    rw [Bool.and_eq_true, Bool.not_eq_true', bne_iff_ne] at hboth
    exact hboth
  exact ⟨literalsClosed_of_noQuote fun c hc => (hchars c hc).1,
    quantifierFree_of_noBackslash fun hslash => (hchars _ hslash).2 rfl⟩

theorem isFixed_of_isName {n : Text} (h : isName n = true) : isFixed n = true := by
  refine List.all_eq_true.2 fun c hc => ?_
  have hpart := isNamePart_of_isName h c hc
  have hslash : c ≠ '\\' := by
    rintro rfl
    revert hpart
    decide
  rw [not_isQuoteMark_of_isNamePart hpart]
  simpa using hslash

theorem isFixed_append {a b : Text} (ha : isFixed a = true) (hb : isFixed b = true) :
    isFixed (a ++ b) = true := by
  rw [isFixed, List.all_append, Bool.and_eq_true]
  exact ⟨ha, hb⟩

theorem fixed_piece {s : Text} (h : isFixed s = true) (hlast : s.getLast?.any isMark = true) :
    Piece s True where
  block := LiteralsClosed.block (a := []) (isFixed_spec h).1 hlast
  free := iff_true_intro (isFixed_spec h).2

theorem nil_piece : Piece [] True := ⟨block_nil, iff_true_intro quantifierFree_nil⟩

theorem startsFresh_of_head {s : Text} (h : s.head?.any isMark = true) : StartsFresh s := by
  intro c hc
  rw [Option.mem_def.1 hc] at h
  exact (isMark_spec h).2.2

/-- a text between two fixed ones -/
theorem between_piece {start s stop : Text} (hstart : Piece start True) (hs : LiteralsClosed s)
    (hstop : isFixed stop = true) (hhead : stop.head?.any isMark = true)
    (hlast : stop.getLast?.any isMark = true) : Piece (start ++ s ++ stop) (QuantifierFree s) where
  block := ((hstart.block.closed.append hs).append (isFixed_spec hstop).1).block hlast
  free := by
    rw [List.append_assoc, hstart.block.quantifierFree_iff, hstart.free,
      quantifierFree_append hs (startsFresh_of_head hhead)]
    simp only [(isFixed_spec hstop).2, true_and, and_true]

theorem onLines_piece (ts : List Text) (h : ∀ t ∈ ts, LiteralsClosed t) :
    Piece (Quantified.onLines ts) (∀ t ∈ ts, QuantifierFree t) := by
  induction ts with
  | nil => exact ⟨block_nil, by simp [Quantified.onLines, quantifierFree_nil]⟩
  | cons t ts ih =>
    have hline : Piece (t ++ ['\n']) (QuantifierFree t) :=
      between_piece nil_piece (h t List.mem_cons_self) (by decide) (by decide) (by decide)
    have hrest := ih fun u hu => h u (List.mem_cons_of_mem t hu)
    refine ⟨(hline.append hrest).block, ?_⟩
    rw [List.forall_mem_cons]
    exact (hline.append hrest).free

theorem header_line {t : Text} (h : LiteralsClosed t) :
    LiteralsClosed (t ++ " \x7b") ∧ (QuantifierFree (t ++ " \x7b") ↔ QuantifierFree t) := by
  have hline : Piece (t ++ " \x7b") (QuantifierFree t) :=
    between_piece nil_piece h (by decide) (by decide) (by decide)
  exact ⟨hline.block.closed, hline.free⟩

theorem headers_piece {q : Quantified} (hq : q.PartsClosed) :
    Piece (Quantified.onLines (q.loops.map fun l => l.header ++ " \x7b"))
      (∀ l ∈ q.loops, QuantifierFree l.header) := by
  have hlines := onLines_piece (q.loops.map fun l => l.header ++ " \x7b") <| by
    intro t ht
    obtain ⟨l, hl, rfl⟩ := List.mem_map.1 ht
    exact (header_line (hq.headers l hl)).1
  refine ⟨hlines.block, hlines.free.trans ?_⟩
  rw [List.forall_mem_map]
  exact forall₂_congr fun l hl => (header_line (hq.headers l hl)).2

theorem braces_piece (q : Quantified) :
    Piece (Quantified.onLines (q.loops.map fun _ => ("\x7d" : Text))) True := by
  have hbrace : ∀ t ∈ q.loops.map fun _ => ("\x7d" : Text), isFixed t = true := by
    intro t ht
    obtain ⟨l, -, rfl⟩ := List.mem_map.1 ht
    decide
  have hlines := onLines_piece _ fun t ht => (isFixed_spec (hbrace t ht)).1
  exact ⟨hlines.block, hlines.free.trans
    (iff_true_intro fun t ht => (isFixed_spec (hbrace t ht)).2)⟩

theorem join_free (ts : List Text) (h : ∀ t ∈ ts, LiteralsClosed t) :
    QuantifierFree (Text.join " && " ts) ↔ ∀ t ∈ ts, QuantifierFree t := by
  match ts with
  | [] => exact iff_of_true quantifierFree_nil (by simp)
  | [t] =>
    rw [Text.join_singleton]
    simp
  | t :: u :: ts =>
    have hrest := join_free (u :: ts) fun v hv => h v (List.mem_cons_of_mem t hv)
    have hsep : Piece (t ++ " && ") (QuantifierFree t) :=
      between_piece nil_piece (h t List.mem_cons_self) (by decide) (by decide) (by decide)
    rw [Text.join_cons_cons, ← List.append_assoc, hsep.block.quantifierFree_iff, hsep.free, hrest,
      ← List.forall_mem_cons]

theorem skipUnless_piece {ts : List Text} (h : ∀ t ∈ ts, LiteralsClosed t) :
    Piece (Quantified.skipUnless ts) (∀ t ∈ ts, QuantifierFree t) := by
  unfold Quantified.skipUnless
  split
  · rename_i hnil
    rw [List.isEmpty_iff.1 hnil]
    exact ⟨block_nil, iff_of_true quantifierFree_nil (by simp)⟩
  · have hsep : LiteralsClosed (" && " : Text) := rfl
    have hclosed := literalsClosed_join hsep ts h
    have hskip : Piece ("if !(" ++ Text.join " && " ts ++ ") \x7b\ncontinue\n\x7d\n")
        (QuantifierFree (Text.join " && " ts)) :=
      between_piece (fixed_piece (by decide) (by decide)) hclosed (by decide) (by decide) (by decide)
    exact ⟨hskip.block, hskip.free.trans (join_free ts h)⟩

theorem step_piece (q : Quantified) {body : Text} (h : LiteralsClosed body) :
    Piece (q.step body) (QuantifierFree body) := by
  unfold Quantified.step
  cases q.kind
  all_goals
    exact between_piece (fixed_piece (by decide) (by decide)) h (by decide) (by decide) (by decide)

theorem opening_piece {q : Quantified} (hq : q.PartsClosed) {name : Text}
    (hname : isName name = true) :
    Piece (q.opening name) (q.kind = .sum → QuantifierFree q.type) := by
  -- a fixed text after the name
  have hnamed : ∀ t : Text, isFixed t = true → t.getLast?.any isMark = true →
      Piece (name ++ t) True := by
    intro t ht hlast
    obtain ⟨hclosed, hfree⟩ := isFixed_spec (isFixed_append (isFixed_of_isName hname) ht)
    exact ⟨hclosed.block hlast, iff_true_intro hfree⟩
  unfold Quantified.opening
  cases q.kind
  case sum =>
    have htype : Piece (name ++ " := func() (racSum " ++ q.type ++ ") \x7b\n")
        (QuantifierFree q.type) :=
      between_piece (hnamed _ (by decide) (by decide)) hq.type (by decide) (by decide) (by decide)
    exact ⟨htype.block, htype.free.trans (by simp)⟩
  case all =>
    have h := hnamed " := func() bool \x7b\n" (by decide) (by decide)
    exact ⟨h.block, h.free.trans (by simp)⟩
  case any =>
    have h := hnamed " := func() bool \x7b\n" (by decide) (by decide)
    exact ⟨h.block, h.free.trans (by simp)⟩
  case count =>
    have h := hnamed " := func() (racCount int64) \x7b\n" (by decide) (by decide)
    exact ⟨h.block, h.free.trans (by simp)⟩

theorem closing_fixed (q : Quantified) : isFixed (q.closing ++ "\x7d") = true := by
  unfold Quantified.closing
  cases q.kind <;> decide

/-- the type of a sum stands in the header of a loop -/
theorem quantifierFree_type {q : Quantified} (hq : q.PartsClosed)
    (h : ∀ l ∈ q.loops, QuantifierFree l.header) (hkind : q.kind = .sum) :
    QuantifierFree q.type := by
  obtain ⟨l, hl, htype⟩ := hq.loops hkind
  rcases htype with htype | ⟨start, stop, hheader, hstart, hstop⟩
  · rw [htype]
    exact (isFixed_spec (by decide)).2
  · have hfree := h l hl
    rw [hheader, hstart.quantifierFree_iff, quantifierFree_append hq.type hstop] at hfree
    exact hfree.2.1

structure Expansion.Closed (x : Expansion) : Prop where
  decls : ∀ d ∈ x.decls, LiteralsClosed d
  text : LiteralsClosed x.text

def Expansion.Free (x : Expansion) : Prop :=
  QuantifierFree x.text ∧ ∀ d ∈ x.decls, QuantifierFree d

theorem closureOf_eq (q : Quantified) (name : Text) (filters : List Expansion) (body : Expansion) :
    q.closureOf name filters body =
      q.opening name ++ Quantified.onLines (q.loops.map fun l => l.header ++ " \x7b")
        ++ Quantified.onLines (filters.flatMap Expansion.decls)
        ++ Quantified.skipUnless (filters.map Expansion.text)
        ++ Quantified.onLines body.decls ++ q.step body.text
        ++ Quantified.onLines (q.loops.map fun _ => ("\x7d" : Text))
        ++ (q.closing ++ "\x7d") := by
  rw [Quantified.closureOf, Quantified.closure, List.flatMap_map, List.map_map, ← List.append_assoc]
  rfl

theorem closureOf_free {q : Quantified} (hq : q.PartsClosed) {name : Text}
    (hname : isName name = true) {filters : List Expansion} {body : Expansion}
    (hfilters : ∀ e ∈ filters, e.Closed) (hbody : body.Closed) :
    LiteralsClosed (q.closureOf name filters body) ∧
      (QuantifierFree (q.closureOf name filters body) ↔
        (∀ l ∈ q.loops, QuantifierFree l.header) ∧ (∀ e ∈ filters, e.Free) ∧ body.Free) := by
  have hdecls : ∀ d ∈ filters.flatMap Expansion.decls, LiteralsClosed d := by
    intro d hd
    obtain ⟨e, he, hd⟩ := List.mem_flatMap.1 hd
    exact (hfilters e he).decls d hd
  have htexts : ∀ t ∈ filters.map Expansion.text, LiteralsClosed t := by
    intro t ht
    obtain ⟨e, he, rfl⟩ := List.mem_map.1 ht
    exact (hfilters e he).text
  have hpieces := ((((((opening_piece hq hname).append (headers_piece hq)).append
    (onLines_piece _ hdecls)).append (skipUnless_piece htexts)).append
    (onLines_piece _ hbody.decls)).append (step_piece q hbody.text)).append (braces_piece q)
  obtain ⟨hlast, hfree⟩ := isFixed_spec (closing_fixed q)
  rw [closureOf_eq]
  refine ⟨hpieces.block.closed.append hlast, ?_⟩
  rw [hpieces.block.quantifierFree_iff, hpieces.free]
  constructor
  · rintro ⟨⟨⟨⟨⟨⟨⟨-, hheaders⟩, hd⟩, ht⟩, hbd⟩, hbt⟩, -⟩, -⟩
    refine ⟨hheaders, fun e he => ⟨?_, fun d hd' => ?_⟩, hbt, hbd⟩
    · exact ht _ (List.mem_map_of_mem he)
    · exact hd d (List.mem_flatMap.2 ⟨e, he, hd'⟩)
  · rintro ⟨hheaders, hf, hbt, hbd⟩
    refine ⟨⟨⟨⟨⟨⟨⟨quantifierFree_type hq hheaders, hheaders⟩, ?_⟩, ?_⟩, hbd⟩, hbt⟩, trivial⟩, hfree⟩
    · intro d hd
      obtain ⟨e, he, hd⟩ := List.mem_flatMap.1 hd
      exact (hf e he).2 d hd
    · intro t ht
      obtain ⟨e, he, rfl⟩ := List.mem_map.1 ht
      exact (hf e he).1

/-! ### the quantifiers an expansion meets -/

/-- expanding the text meets the quantifier: it is the first one, or one after it, or one in its
filters or its body -/
inductive QuantifierIn : Text → Quantified → Prop where
  | here {s : Text} {p : QuantifierSpan} {q : Quantified} (span : firstSpan? s = .ok (some p))
    (read : Quantified.parse p.kind p.inner = .ok q) : QuantifierIn s q
  | rest {s : Text} {p : QuantifierSpan} {q : Quantified} (span : firstSpan? s = .ok (some p))
    (met : QuantifierIn p.rest q) : QuantifierIn s q
  | filter {s g : Text} {p : QuantifierSpan} {q r : Quantified} (span : firstSpan? s = .ok (some p))
    (read : Quantified.parse p.kind p.inner = .ok q) (mem : g ∈ q.filters)
    (met : QuantifierIn g r) : QuantifierIn s r
  | body {s : Text} {p : QuantifierSpan} {q r : Quantified} (span : firstSpan? s = .ok (some p))
    (read : Quantified.parse p.kind p.inner = .ok q) (met : QuantifierIn q.body r) :
    QuantifierIn s r

/-- no quantifier stands in a bound or in a collection that is ranged over -/
def HeadersFree (s : Text) : Prop :=
  ∀ q, QuantifierIn s q → ∀ l ∈ q.loops, QuantifierFree l.header

theorem headersFree_of_plain {s : Text} (h : firstSpan? s = .ok none) : HeadersFree s := by
  intro q hq
  cases hq with
  | here hspan => cases h.symm.trans hspan
  | rest hspan => cases h.symm.trans hspan
  | filter hspan => cases h.symm.trans hspan
  | body hspan => cases h.symm.trans hspan

theorem headersFree_iff {s : Text} {p : QuantifierSpan} {q : Quantified}
    (hspan : firstSpan? s = .ok (some p)) (hread : Quantified.parse p.kind p.inner = .ok q) :
    HeadersFree s ↔ ((∀ l ∈ q.loops, QuantifierFree l.header) ∧ (∀ g ∈ q.filters, HeadersFree g) ∧
      HeadersFree q.body) ∧ HeadersFree p.rest := by
  constructor
  · intro h
    refine ⟨⟨h q (.here hspan hread), fun g hg r hr => ?_, fun r hr => ?_⟩, fun r hr => ?_⟩
    · exact h r (.filter hspan hread hg hr)
    · exact h r (.body hspan hread hr)
    · exact h r (.rest hspan hr)
  · rintro ⟨⟨hheaders, hfilters, hbody⟩, hrest⟩ r hr
    cases hr with
    | here hspan' hread' =>
      cases hspan.symm.trans hspan'
      cases hread.symm.trans hread'
      exact hheaders
    | rest hspan' hr =>
      cases hspan.symm.trans hspan'
      exact hrest r hr
    | filter hspan' hread' hg hr =>
      cases hspan.symm.trans hspan'
      cases hread.symm.trans hread'
      exact hfilters _ hg r hr
    | body hspan' hread' hr =>
      cases hspan.symm.trans hspan'
      cases hread.symm.trans hread'
      exact hbody r hr

/-! ### runs -/

theorem closureName_spec {stem : Text} (h : isName stem = true) (n : Nat) :
    isName (stem ++ Text.ofNat n) = true ∧
      (stem ++ Text.ofNat n).getLast?.any Char.isDigit = true := by
  have hdigits : ∀ c ∈ Text.ofNat n, c.isDigit = true := fun c hc => isDigit_of_mem_ofNat hc
  constructor
  · exact isName_append h fun d hd => (isDigit_spec (hdigits d hd)).1
  · have hne : Text.ofNat n ≠ [] := Nat.toDigits_ne_nil
    rw [List.getLast?_append, List.getLast?_eq_some_getLast hne]
    exact hdigits _ (List.getLast_mem hne)

/-- what is known of an expansion of `s`: its literals are closed if those of `s` are, its text has
no quantifier, and its closures have none exactly if the headers met have none -/
structure Expansion.Complete (s : Text) (x : Expansion) : Prop where
  closed : LiteralsClosed s → LiteralsClosed x.text
  decls : ∀ d ∈ x.decls, LiteralsClosed d
  text : QuantifierFree x.text
  free : (∀ d ∈ x.decls, QuantifierFree d) ↔ HeadersFree s

theorem Expansion.Complete.free_iff {s : Text} {x : Expansion} (h : x.Complete s) :
    x.Free ↔ HeadersFree s :=
  ⟨fun hx => h.free.1 hx.2, fun hs => ⟨h.text, h.free.2 hs⟩⟩

theorem filters_complete {gs : List Text} {es : List Expansion}
    (h : List.Forall₂ Expansion.Complete gs es) (hgs : ∀ g ∈ gs, LiteralsClosed g) :
    (∀ e ∈ es, e.Closed) ∧ ((∀ e ∈ es, e.Free) ↔ ∀ g ∈ gs, HeadersFree g) := by
  induction h with
  | nil => exact ⟨by simp, by simp⟩
  | cons he _ ih =>
    rw [List.forall_mem_cons] at hgs
    obtain ⟨hclosed, hfree⟩ := ih hgs.2
    rw [List.forall_mem_cons, List.forall_mem_cons, List.forall_mem_cons, he.free_iff, hfree]
    exact ⟨⟨⟨he.decls, he.closed hgs.1⟩, hclosed⟩, Iff.rfl⟩

/-- the text after the first quantifier -/
theorem literalsClosed_rest {s : Text} {p : QuantifierSpan} (h : firstSpan? s = .ok (some p))
    (hs : LiteralsClosed s) : LiteralsClosed p.rest := by
  obtain ⟨hhead, -, -, a, c, heq, ha, hc⟩ := firstSpan?_spec h
  rw [heq] at hs
  have hclosing := ha.of_append (hhead.of_append hs)
  unfold LiteralsClosed at hclosing
  rw [Quoting.after_cons, next_code (not_isQuoteMark_of_isClosing hc)] at hclosing
  exact hclosing

theorem complete_plain {s : Text} (hspan : firstSpan? s = .ok none) :
    Expansion.Complete s ⟨[], s⟩ where
  closed := id
  decls := by simp
  text := quantifierFree_of_firstSpan? hspan
  free := iff_of_true (by simp) (headersFree_of_plain hspan)

theorem text_replaced (p : QuantifierSpan) (q : Quantified) (name : Text)
    (filters : List Expansion) (body rest : Expansion) :
    (p.replaced q name filters body rest).text = p.head ++ (name ++ '(' :: ')' :: rest.text) := by
  simp [QuantifierSpan.replaced]

theorem complete_replaced {stem : Text} (hstem : isName stem = true) {s : Text} {p : QuantifierSpan}
    {q : Quantified} (n : Nat) {filters : List Expansion} {body rest : Expansion}
    (hspan : firstSpan? s = .ok (some p)) (hread : Quantified.parse p.kind p.inner = .ok q)
    (hfilters : List.Forall₂ Expansion.Complete q.filters filters) (hbody : body.Complete q.body)
    (hrest : rest.Complete p.rest) :
    (p.replaced q (stem ++ Text.ofNat n) filters body rest).Complete s := by
  obtain ⟨hhead, hheadFree, hinner, -⟩ := firstSpan?_spec hspan
  obtain ⟨hname, hdigit⟩ := closureName_spec hstem n
  have hparts := Quantified.parse_closed hread hinner
  obtain ⟨hfilter, hfilterFree⟩ := filters_complete hfilters hparts.filters
  obtain ⟨hclosed, hclosure⟩ := closureOf_free hparts hname hfilter
    ⟨hbody.decls, hbody.closed hparts.body⟩
  refine ⟨?_, ?_, ?_, ?_⟩
  · intro hs
    have hrestClosed := hrest.closed (literalsClosed_rest hspan hs)
    have hcall : LiteralsClosed ('(' :: ')' :: rest.text) :=
      LiteralsClosed.append (a := "()") rfl hrestClosed
    rw [text_replaced]
    exact hhead.append ((literalsClosed_of_isName hname).append hcall)
  · exact List.forall_mem_cons.2 ⟨hclosed, hrest.decls⟩
  · rw [text_replaced, quantifierFree_call hhead hheadFree hname hdigit]
    have hparen : Piece ")" True := fixed_piece (by decide) (by decide)
    exact (hparen.block.quantifierFree_iff rest.text).2 ⟨hparen.free.2 trivial, hrest.text⟩
  · rw [headersFree_iff hspan hread, ← hfilterFree, ← hbody.free_iff, ← hrest.free, ← hclosure]
    exact List.forall_mem_cons

theorem Expanded.complete {stem s : Text} {x : Expansion} (hstem : isName stem = true)
    (h : Expanded stem s x) : Expansion.Complete s x := by
  refine Expanded.induction ?_ ?_ h
  · intro s hspan
    exact complete_plain hspan
  · intro s p q n filters body rest hspan hread hfilters hbody hrest
    exact complete_replaced hstem n hspan hread hfilters hbody hrest

/-- what is left of the quantifiers of a predicate after it has been renamed and expanded: none in
the text, and in the closures those that stand in bounds or in collections -/
theorem expand_quantifierFree_iff {e e' : Expander} (hstem : isName e.stem = true) {pred : Text}
    {f : Renaming} {x : Expansion} (h : e.expand pred f = (.ok x, e')) :
    containsQuantifier x.text = false ∧
      ((∀ d ∈ x.decls, containsQuantifier d = false) ↔ HeadersFree (rename f pred)) := by
  have hrun : Expanded e.stem (rename f pred) x := by
    cases hp : (expandFrom e.stem (rename f pred)).run e.next with
    | mk r m =>
      rw [Expander.expand, hp] at h
      cases h
      exact ⟨e.next, m, hp⟩
  have hcomplete := hrun.complete hstem
  exact ⟨hcomplete.text, hcomplete.free⟩

/-- every index up to a length, which a renaming fills in, is a key of the map -/
def indexPredicate : Text := "(\\forall i int; 0 <= i && i < n; (\\exists k := range m; k == i))"

def indexClosure : Text :=
  "racQuant0 := func() bool \x7b\nfor i := 0; i < size; i++ \x7b\n"
    ++ "racQuant1 := func() bool \x7b\nfor k := range m \x7b\nif k == i \x7b\nreturn true\n\x7d\n\x7d\n"
    ++ "return false\n\x7d\nif !(racQuant1()) \x7b\nreturn false\n\x7d\n\x7d\nreturn true\n\x7d"

theorem expand_quantifierFree_index :
    isName defaultStem = true ∧
      ({} : Expander).expand indexPredicate [("n", "size")]
        = (.ok ⟨[indexClosure], "racQuant0()"⟩, { next := 2 }) ∧
      containsQuantifier indexClosure = false ∧
      HeadersFree (rename [("n", "size")] indexPredicate) := by
  have hstem : isName defaultStem = true := by decide
  have hrun : ({} : Expander).expand indexPredicate [("n", "size")]
      = (.ok ⟨[indexClosure], "racQuant0()"⟩, { next := 2 }) := by
    -- the kernel is slow in reading the characters of a literal, so they are put in its place
    unfold indexPredicate indexClosure
    repeat rw [String.toList_ofList]
    decide +kernel
  have hfree : containsQuantifier indexClosure = false := by
    unfold indexClosure
    repeat rw [String.toList_ofList]
    decide +kernel
  refine ⟨hstem, hrun, hfree, (expand_quantifierFree_iff hstem hrun).2.1 ?_⟩
  intro d hd
  rw [List.mem_singleton.1 hd]
  exact hfree

def countedPredicate : Text :=
  "(\\forall i int; 0 <= i && i < (\\num_of k, v := range m; v); ok(i))"

/-- the quantifier of the bound stays in the header of the loop -/
theorem expand_countedPredicate :
    ∃ d, ({} : Expander).expand countedPredicate [] = (.ok ⟨[d], "racQuant0()"⟩, { next := 1 }) ∧
      containsQuantifier d = true := by
  refine ⟨"racQuant0 := func() bool \x7b\n"
      ++ "for i := 0; i < (\\num_of k, v := range m; v); i++ \x7b\n"
      ++ "if !(ok(i)) \x7b\nreturn false\n\x7d\n\x7d\nreturn true\n\x7d", ?_⟩
  unfold countedPredicate
  repeat rw [String.toList_ofList]
  decide +kernel

end ContractChecks
