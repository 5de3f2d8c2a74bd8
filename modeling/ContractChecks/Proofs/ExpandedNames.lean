import ContractChecks.Proofs.ExpansionComplete
import ContractChecks.Proofs.TrimmedNames

/-!
# Names in expanded texts

An expansion takes a text apart and puts closures together from the pieces.  The only names it adds
are those of the closures, of their result and of the statements in them.  So a text that does not
have some other name in it, not even with blanks around it, does not get it by expansion.

* `Foreign v`: an expansion does not write the name `v` by itself;
* `Clean v s`: the literals of `s` are closed and `s` avoids `v`;
* `firstSpan?_layout`: the first quantifier of a text, piece by piece;
* `firstSpan?_names`: the names around and inside the first quantifier are names of the text;
* `closureOf_clean`: a closure made of clean parts is clean;
* `Expanded.kept`, `Expanded.not_reads`: the expansion of a text that avoids the name avoids it.
-/

namespace ContractChecks

/-! ### where names of a quantifier come from -/

/-- the lexemes around the first quantifier -/
theorem lexemes_findQuantifier {s : Text} {x : QuantifierCut}
    (h : findQuantifier (lexemes s) = some x) :
    ∃ ls, lexemes s = ls ++ .keyword x.keyword :: lexemes x.after := by
  fun_induction lexemes s generalizing x with
  | case1 => cases h
  | case2 c r ih =>
    rcases findQuantifier_cons h with ⟨k, raw, hl, -, rfl⟩ | ⟨-, y, hy, rfl⟩
    · refine ⟨[], ?_⟩
      rw [hl, concat_lexemes]
      rfl
    · obtain ⟨ls, hls⟩ := ih hy
      exact ⟨(firstLexeme c r).1 :: ls, congrArg ((firstLexeme c r).1 :: ·) hls⟩

theorem namesIn_after_subset {s : Text} {x : QuantifierCut}
    (h : findQuantifier (lexemes s) = some x) : namesIn x.after ⊆ namesIn s := by
  obtain ⟨ls, hls⟩ := lexemes_findQuantifier h
  have hlast : ∀ last, (Lexeme.keyword x.keyword).lastMark last ≠ some '.' := by
    intro last
    show x.keyword.getLast? ≠ some '.'
    rw [keyword_findQuantifier h]
    cases x.kind <;> decide
  rw [namesIn_eq s, hls, namesFrom_append, namesFrom_cons, namesFrom_of_ne_point (hlast _),
    namesIn_eq]
  intro w hw
  exact List.mem_append_right _ (List.mem_append_right _ hw)

/-- the bracket that closes a quantifier stands after its keyword -/
theorem spanOf_after {head gap : Text} {x : QuantifierCut} {p : QuantifierSpan}
    (h : spanOf head gap x = .ok p) (hgap : ∀ c ∈ gap, isLayout c = true)
    (hkeyword : x.keyword = x.kind.keyword) :
    ∃ c, isClosing c = true ∧ x.after = p.inner ++ c :: p.rest := by
  simp only [spanOf] at h
  split at h
  case h_2 => cases h
  case h_1 a c rest hcut =>
    cases h
    obtain ⟨-, d, r, hd, hclosing⟩ := cutClose_closed hcut
    cases hd
    refine ⟨c, hclosing, ?_⟩
    have happend := cutClose_append hcut
    rw [← List.cons_append] at happend
    have hlen : ('(' :: (gap ++ x.keyword)).length = 1 + gap.length + x.keyword.length := by
      simp only [List.length_cons, List.length_append]
      omega
    have hfront : c ∉ '(' :: (gap ++ x.keyword) := by
      intro hmem
      rcases List.mem_cons.1 hmem with rfl | hmem
      · cases hclosing
      rcases List.mem_append.1 hmem with hmem | hmem
      · have hlayout := (isMark_of_isClosing hclosing).2
        rw [hgap c hmem] at hlayout
        cases hlayout
      · have hbracket : ∀ k : QuantifierKind, k.keyword.any isClosing = false := by
          intro k
          cases k <;> decide
        rw [hkeyword] at hmem
        exact List.any_eq_false.1 (hbracket x.kind) c hmem hclosing
    rw [← hlen]
    rcases List.append_eq_append_iff.1 happend with ⟨u, hfrontEq, hrest⟩ | ⟨u, ha, hafter⟩
    · cases u with
      | nil =>
        rw [List.append_nil] at hfrontEq
        rw [hfrontEq, List.drop_length]
        exact hrest.symm
      | cons d u =>
        cases hrest
        exact absurd (hfrontEq ▸ List.mem_append_right a List.mem_cons_self) hfront
    · rw [ha, List.drop_left]
      exact hafter

/-- a span in its pieces: parenthesis, layout, keyword, inside and closing bracket -/
structure QuantifierSpan.Layout (p : QuantifierSpan) (s : Text) (x : QuantifierCut) (gap : Text)
    (close : Char) : Prop where
  found : findQuantifier (lexemes s) = some x
  kind : p.kind = x.kind
  keyword : x.keyword = x.kind.keyword
  before : x.before = p.head ++ '(' :: gap
  layout : ∀ c ∈ gap, isLayout c = true
  closing : isClosing close = true
  after : x.after = p.inner ++ close :: p.rest
  text : p.text = '(' :: (gap ++ (x.keyword ++ (p.inner ++ [close])))
  matched : cutClose ('(' :: (gap ++ (x.keyword ++ x.after)))
    = some ('(' :: (gap ++ (x.keyword ++ p.inner)), close :: p.rest)

theorem firstSpan?_layout {s : Text} {p : QuantifierSpan} (h : firstSpan? s = .ok (some p)) :
    ∃ x gap close, p.Layout s x gap close := by
  simp only [firstSpan?] at h
  split at h
  · cases h
  rename_i x hx
  split at h
  case isFalse => cases h
  case isTrue hlast =>
    obtain ⟨r, hr, he⟩ := except_map_eq_ok h
    cases he
    obtain ⟨hbefore, hlayout⟩ := eq_append_of_getLast? hlast
    have hkeyword := keyword_findQuantifier hx
    obtain ⟨c, hc, hafter⟩ := spanOf_after hr hlayout hkeyword
    generalize x.before.drop x.before.trimLayoutEnd.length = gap at *
    simp only [spanOf, List.append_assoc] at hr
    split at hr
    case h_2 => cases hr
    case h_1 a d rest hcut =>
      cases hr
      -- the closing bracket that was matched is the one after the inside
      have hsplit := cutClose_append hcut
      generalize a.drop (1 + gap.length + x.keyword.length) = inner at hafter ⊢
      have hwhole : a ++ d :: rest = '(' :: (gap ++ (x.keyword ++ inner)) ++ c :: rest := by
        rw [hsplit, hafter]
        simp only [List.append_assoc, List.cons_append]
      obtain ⟨rfl, hend⟩ := List.append_inj' hwhole rfl
      obtain ⟨rfl, -⟩ := List.cons.inj hend
      refine ⟨x, gap, d, hx, rfl, hkeyword, hbefore, hlayout, hc, hafter, ?_, hcut⟩
      simp only [List.append_assoc, List.cons_append]

theorem firstSpan?_names {s : Text} {p : QuantifierSpan} (h : firstSpan? s = .ok (some p)) :
    namesIn p.head ⊆ namesIn s ∧ namesIn p.inner ⊆ namesIn s ∧ namesIn p.rest ⊆ namesIn s := by
  obtain ⟨hhead, -, hinner, -⟩ := firstSpan?_spec h
  obtain ⟨x, gap, close, hp⟩ := firstSpan?_layout h
  obtain ⟨hmark, hlayout⟩ := isMark_of_isClosing hp.closing
  have hnames := namesIn_after_subset hp.found
  rw [hp.after, namesIn_append_mark hinner hmark hlayout] at hnames
  refine ⟨?_, fun w hw => hnames (List.mem_append_left _ hw),
    fun w hw => hnames (List.mem_append_right _ hw)⟩
  have hs : s = p.head ++ '(' :: (gap ++ (x.keyword ++ x.after)) := by
    rw [eq_of_findQuantifier hp.found, hp.before, List.append_assoc, List.cons_append]
  rw [hs, namesIn_append_mark hhead (by decide) (by decide)]
  exact List.subset_append_left _ _

/-! ### calls of closures -/

theorem getLast?_trim {s : Text} {c : Char} (h : s.getLast? = some c) (hc : isBlank c = false) :
    (Text.trim s).getLast? = some c := by
  obtain ⟨init, rfl⟩ := List.getLast?_eq_some_iff.1 h
  have hend : ∀ t : Text, Text.trimEnd (t ++ [c]) = t ++ [c] := by
    intro t
    rw [Text.trimEnd, List.reverse_append, List.reverse_singleton, List.singleton_append,
      List.dropWhile_cons, hc]
    simp
  have hstart : ∃ t, Text.trimStart (init ++ [c]) = t ++ [c] := by
    rw [Text.trimStart, List.dropWhile_append]
    split
    · exact ⟨[], by rw [List.dropWhile_cons, hc]; rfl⟩
    · exact ⟨_, rfl⟩
  obtain ⟨t, ht⟩ := hstart
  rw [Text.trim, ht, hend, List.getLast?_append]
  rfl

/-- a text that ends with a digit is not a name that ends with none -/
theorem trim_ne_of_digit {v s : Text} (hv : v.getLast?.any Char.isDigit = false)
    (h : s.getLast?.any Char.isDigit = true) : Text.trim s ≠ v := by
  cases hlast : s.getLast? with
  | none =>
    rw [hlast] at h
    cases h
  | some c =>
    rw [hlast] at h
    have hdigit : c.isDigit = true := h
    intro heq
    have htrim := getLast?_trim hlast (isDigit_spec hdigit).2
    rw [heq] at htrim
    rw [htrim, Option.any_some, hdigit] at hv
    cases hv

theorem avoids_call {v a n t : Text} (hv : v.getLast?.any Char.isDigit = false)
    (ha : LiteralsClosed a) (havoid : Avoids v a) (hn : isName n = true)
    (hdigit : n.getLast?.any Char.isDigit = true) (ht : Avoids v t) :
    Avoids v (a ++ (n ++ '(' :: t)) := by
  obtain ⟨ls, w, hw, hls⟩ := lexemes_append_openWord ha
  have hopen : isMark '(' = true := by decide
  have hne : w ++ n ≠ [] := by
    intro hnil
    rw [(List.append_eq_nil_iff.1 hnil).2] at hn
    cases hn
  obtain ⟨l, hl, hlex⟩ := lexemes_openWord (hw.append_name hn) hne (startsFresh_cons hopen t)
  have hself := hls []
  rw [List.append_nil] at hself
  rw [Avoids, namesIn_eq, hself, namesFrom_append, List.forall_mem_append] at havoid
  have hcall : namesFrom none (lexemes (a ++ (n ++ '(' :: t)))
      = namesFrom none ls ++ ((l.freeName? (lastMarkAfter none ls)).toList ++ namesIn t) := by
    rw [hls, ← List.append_assoc, hlex, namesFrom_append, namesFrom_cons, lexemes_cons_mark hopen,
      namesFrom_cons, namesFrom_of_ne_point (lastMark_other hopen (by decide) _).2, namesIn_eq]
    rfl
  intro x hx
  rw [namesIn_eq, hcall] at hx
  rcases List.mem_append.1 hx with hx | hx
  · exact havoid.1 x hx
  rcases List.mem_append.1 hx with hx | hx
  · have hx : x = w ++ n := by
      rw [← hl]
      cases l with
      | keyword raw => exact List.mem_singleton.1 hx
      | name raw =>
        rw [Lexeme.freeName?] at hx
        split at hx
        · cases hx
        · exact List.mem_singleton.1 hx
      | literal raw => cases hx
      | number raw => cases hx
      | other c => cases hx
    refine trim_ne_of_digit hv ?_
    rw [hx, List.getLast?_append]
    cases hlast : n.getLast? with
    | none =>
      rw [hlast] at hdigit
      cases hdigit
    | some c =>
      rw [hlast] at hdigit
      exact hdigit
  · exact ht x hx

/-! ### closures -/

/-- the texts that an expansion writes around the parts of a quantifier -/
def closureTexts : List Text :=
  [" \x7b", "\n", "\x7d", " && ", "if !(", ") \x7b\ncontinue\n\x7d\n", "if ",
   ") \x7b\nreturn false\n\x7d\n", " \x7b\nreturn true\n\x7d\n", " \x7b\nracCount++\n\x7d\n",
   "racSum += ", " := func() bool \x7b\n", " := func() (racCount int64) \x7b\n",
   " := func() (racSum ", ") \x7b\n", "return true\n\x7d", "return false\n\x7d", "return\n\x7d"]

/-- the names in these texts and in the headers of loops -/
def writtenNames : List Text :=
  ["for", "_", "if", "continue", "return", "true", "false", "racCount", "racSum", "func", "bool",
   "int64"]

theorem mem_writtenNames :
    ∀ t ∈ closureTexts ++ headerTexts, ∀ w ∈ namesIn t, w ∈ writtenNames := by
  -- the kernel is slow in reading the characters of a literal, so they are put in its place
  unfold closureTexts headerTexts writtenNames
  repeat rw [String.toList_ofList]
  decide +kernel

/-- a name that an expansion does not write by itself -/
structure Foreign (v : Text) : Prop where
  names : v ∉ writtenNames
  digit : v.getLast?.any Char.isDigit = false

theorem Foreign.avoids {v : Text} (hv : Foreign v) :
    ∀ t ∈ closureTexts ++ headerTexts, Avoids v t := by
  have htrim : ∀ w ∈ writtenNames, Text.trim w = w := by decide +kernel
  intro t ht w hw heq
  have hmem := mem_writtenNames t ht w hw
  rw [htrim w hmem] at heq
  exact hv.names (heq ▸ hmem)

/-- a text with closed literals in which the name does not stand -/
def Clean (v s : Text) : Prop := LiteralsClosed s ∧ Avoids v s

instance (v s : Text) : Decidable (Clean v s) :=
  inferInstanceAs (Decidable (Quoting.code.after s = .code ∧ Avoids v s))

/-- a clean text whose last lexeme cannot be continued -/
structure CleanBlock (v s : Text) : Prop where
  block : Block s
  avoids : Avoids v s

section

variable {v : Text}

theorem Clean.block {s : Text} (h : Clean v s) (hlast : s.getLast?.any isMark = true) :
    CleanBlock v s :=
  ⟨LiteralsClosed.block (a := []) h.1 hlast, h.2⟩

theorem CleanBlock.append {a b : Text} (ha : CleanBlock v a) (hb : CleanBlock v b) :
    CleanBlock v (a ++ b) :=
  ⟨ha.block.append hb.block, ha.avoids.append hb.avoids (ha.block.lexemes_append b)⟩

theorem cleanBlock_nil : CleanBlock v [] := ⟨block_nil, by simp [Avoids, namesIn_nil]⟩

end

section

variable {v : Text} (hv : Foreign v)
include hv

theorem clean_partProperty : PartProperty (Clean v) :=
  (avoids_cutProperty fun t ht => hv.avoids t (List.mem_append_right _ ht)).partProperty

theorem Foreign.clean {t : Text} (ht : t ∈ closureTexts) : Clean v t := by
  have hclosed : ∀ t ∈ closureTexts, Quoting.code.after t = .code := by
    unfold closureTexts
    repeat rw [String.toList_ofList]
    decide +kernel
  exact ⟨hclosed t ht, hv.avoids t (List.mem_append_left _ ht)⟩

/-- a clean text between two fixed ones -/
theorem cleanBlock_between {start s stop : Text} (hstart : CleanBlock v start) (hs : Clean v s)
    (hstop : Clean v stop) (hhead : stop.head?.any isMark = true)
    (hlast : stop.getLast?.any isMark = true) : CleanBlock v (start ++ s ++ stop) := by
  have hpart := clean_partProperty hv
  have hboth := hpart.append hs hstop (.inr (startsFresh_of_head hhead))
  have hall := hpart.append ⟨hstart.block.closed, hstart.avoids⟩ hboth (.inl hstart.block)
  rw [← List.append_assoc] at hall
  exact ⟨hall.1.block hlast, hall.2⟩

theorem onLines_clean (ts : List Text) (h : ∀ t ∈ ts, Clean v t) :
    CleanBlock v (Quantified.onLines ts) := by
  induction ts with
  | nil => exact cleanBlock_nil
  | cons t ts ih =>
    rw [List.forall_mem_cons] at h
    have hline : CleanBlock v (t ++ ['\n']) :=
      cleanBlock_between hv cleanBlock_nil h.1 (hv.clean (by decide)) (by decide) (by decide)
    exact hline.append (ih h.2)

theorem headers_clean {q : Quantified} (hq : q.Parts (Clean v)) :
    CleanBlock v (Quantified.onLines (q.loops.map fun l => l.header ++ " \x7b")) := by
  refine onLines_clean hv _ fun t ht => ?_
  obtain ⟨l, hl, rfl⟩ := List.mem_map.1 ht
  have hline : CleanBlock v (l.header ++ " \x7b") :=
    cleanBlock_between hv cleanBlock_nil (hq.headers l hl) (hv.clean (by decide)) (by decide)
      (by decide)
  exact ⟨hline.block.closed, hline.avoids⟩

theorem braces_clean (q : Quantified) :
    CleanBlock v (Quantified.onLines (q.loops.map fun _ => ("\x7d" : Text))) := by
  refine onLines_clean hv _ fun t ht => ?_
  obtain ⟨l, -, rfl⟩ := List.mem_map.1 ht
  exact hv.clean (by decide)

theorem join_clean (ts : List Text) (h : ∀ t ∈ ts, Clean v t) : Clean v (Text.join " && " ts) := by
  match ts with
  | [] => exact (clean_partProperty hv).nil
  | [t] =>
    rw [Text.join_singleton]
    exact h t List.mem_cons_self
  | t :: u :: ts =>
    rw [List.forall_mem_cons] at h
    have hrest := join_clean (u :: ts) h.2
    have hsep : CleanBlock v (t ++ " && ") :=
      cleanBlock_between hv cleanBlock_nil h.1 (hv.clean (by decide)) (by decide) (by decide)
    rw [Text.join_cons_cons, ← List.append_assoc]
    exact (clean_partProperty hv).append ⟨hsep.block.closed, hsep.avoids⟩ hrest (.inl hsep.block)

theorem skipUnless_clean {ts : List Text} (h : ∀ t ∈ ts, Clean v t) :
    CleanBlock v (Quantified.skipUnless ts) := by
  unfold Quantified.skipUnless
  split
  · exact cleanBlock_nil
  · have hstart : Clean v ("if !(" : Text) := hv.clean (by decide)
    exact cleanBlock_between hv (hstart.block (by decide)) (join_clean hv ts h)
      (hv.clean (by decide)) (by decide) (by decide)

theorem step_clean (q : Quantified) {body : Text} (h : Clean v body) :
    CleanBlock v (q.step body) := by
  have hbetween : ∀ start stop : Text, start ∈ closureTexts → stop ∈ closureTexts →
      start.getLast?.any isMark = true → stop.head?.any isMark = true →
      stop.getLast?.any isMark = true → CleanBlock v (start ++ body ++ stop) :=
    fun start stop hstart hstop hend hhead hlast =>
      cleanBlock_between hv ((hv.clean hstart).block hend) h (hv.clean hstop) hhead hlast
  unfold Quantified.step
  cases q.kind <;> exact hbetween _ _ (by decide) (by decide) (by decide) (by decide) (by decide)

/-- the name of a closure, which ends with a digit -/
theorem clean_of_isName {n : Text} (hn : isName n = true)
    (hdigit : n.getLast?.any Char.isDigit = true) : Clean v n := by
  have hnames := namesIn_name hn (b := []) (by simp [EndsName])
  rw [List.append_nil, namesIn_nil] at hnames
  refine ⟨literalsClosed_of_isName hn, ?_⟩
  rw [Avoids, hnames]
  simpa using trim_ne_of_digit hv.digit hdigit

theorem opening_clean {q : Quantified} (hq : q.Parts (Clean v)) {name : Text}
    (hname : Clean v name) : CleanBlock v (q.opening name) := by
  have hnamed : ∀ t ∈ closureTexts, t.head?.any isMark = true → t.getLast?.any isMark = true →
      CleanBlock v (name ++ t) := fun t ht hhead hlast =>
    cleanBlock_between hv cleanBlock_nil hname (hv.clean ht) hhead hlast
  unfold Quantified.opening
  cases q.kind
  case sum =>
    have hstart := hnamed " := func() (racSum " (by decide) (by decide) (by decide)
    exact cleanBlock_between hv hstart hq.type (hv.clean (by decide)) (by decide) (by decide)
  all_goals exact hnamed _ (by decide) (by decide) (by decide)

theorem closing_clean (q : Quantified) : Avoids v (q.closing ++ "\x7d") := by
  unfold Quantified.closing
  cases q.kind <;> exact (hv.clean (by decide)).2

end

structure Expansion.Clean (v : Text) (x : Expansion) : Prop where
  decls : ∀ d ∈ x.decls, ContractChecks.Clean v d
  text : ContractChecks.Clean v x.text

theorem closureOf_clean {v : Text} (hv : Foreign v) {q : Quantified} (hq : q.Parts (Clean v))
    {name : Text} (hname : Clean v name) {filters : List Expansion} {body : Expansion}
    (hfilters : ∀ e ∈ filters, e.Clean v) (hbody : body.Clean v) :
    Avoids v (q.closureOf name filters body) := by
  have hdecls : ∀ d ∈ filters.flatMap Expansion.decls, Clean v d := by
    intro d hd
    obtain ⟨e, he, hd⟩ := List.mem_flatMap.1 hd
    exact (hfilters e he).decls d hd
  have htexts : ∀ t ∈ filters.map Expansion.text, Clean v t := by
    intro t ht
    obtain ⟨e, he, rfl⟩ := List.mem_map.1 ht
    exact (hfilters e he).text
  have hparts := ((((((opening_clean hv hq hname).append (headers_clean hv hq)).append
    (onLines_clean hv _ hdecls)).append (skipUnless_clean hv htexts)).append
    (onLines_clean hv _ hbody.decls)).append (step_clean hv q hbody.text)).append (braces_clean hv q)
  rw [closureOf_eq]
  exact hparts.avoids.append (closing_clean hv q) (hparts.block.lexemes_append _)

/-! ### runs -/

/-- the expansion does not have the name if the text does not -/
structure Expansion.Kept (v s : Text) (x : Expansion) : Prop where
  complete : x.Complete s
  text : Avoids v s → Avoids v x.text
  decls : Avoids v s → ∀ d ∈ x.decls, Avoids v d

theorem Expansion.Kept.clean {v s : Text} {x : Expansion} (h : x.Kept v s)
    (hs : ContractChecks.Clean v s) : x.Clean v where
  decls := fun d hd => ⟨h.complete.decls d hd, h.decls hs.2 d hd⟩
  text := ⟨h.complete.closed hs.1, h.text hs.2⟩

theorem filters_clean {v : Text} {gs : List Text} {es : List Expansion}
    (h : List.Forall₂ (Expansion.Kept v) gs es) (hgs : ∀ g ∈ gs, Clean v g) :
    ∀ e ∈ es, e.Clean v := by
  induction h with
  | nil => simp
  | cons he _ ih =>
    rw [List.forall_mem_cons] at hgs ⊢
    exact ⟨he.clean hgs.1, ih hgs.2⟩

theorem Expanded.kept {v : Text} (hv : Foreign v) {stem s : Text} {x : Expansion}
    (hstem : isName stem = true) (h : Expanded stem s x) : x.Kept v s := by
  refine Expanded.induction ?_ ?_ h
  · intro s hspan
    exact ⟨complete_plain hspan, id, by simp⟩
  · intro s p q n filters body rest hspan hread hfilters hbody hrest
    obtain ⟨hheadClosed, -, hinnerClosed, -⟩ := firstSpan?_spec hspan
    obtain ⟨hhead, hinner, hafter⟩ := firstSpan?_names hspan
    obtain ⟨hname, hdigit⟩ := closureName_spec hstem n
    refine ⟨complete_replaced hstem n hspan hread (hfilters.imp fun _ _ he => he.complete)
      hbody.complete hrest.complete, ?_, ?_⟩
    · intro hs
      rw [text_replaced]
      refine avoids_call hv.digit hheadClosed (hs.mono hhead) hname hdigit ?_
      rw [Avoids, namesIn_cons_mark (by decide)]
      exact hrest.text (hs.mono hafter)
    · intro hs
      have hparts := (clean_partProperty hv).parse hread ⟨hinnerClosed, hs.mono hinner⟩
      exact List.forall_mem_cons.2 ⟨closureOf_clean hv hparts (clean_of_isName hv hname hdigit)
        (filters_clean hfilters hparts.filters) (hbody.clean hparts.body),
        hrest.decls (hs.mono hafter)⟩

/-- neither the expansion of a text that avoids the name nor its closures read it -/
theorem Expanded.not_reads {v : Text} (hv : Foreign v) (htrim : Text.trim v = v) {stem s : Text}
    {x : Expansion} (hstem : isName stem = true) (h : Expanded stem s x) (hs : Avoids v s) :
    ∀ u ∈ x.decls ++ [x.text], v ∉ namesIn u := by
  have hkept := h.kept hv hstem
  have hplain : ∀ {u}, Avoids v u → v ∉ namesIn u := fun hu hmem => hu v hmem htrim
  intro u hu
  rcases List.mem_append.1 hu with hu | hu
  · exact hplain (hkept.decls hs u hu)
  · rw [List.mem_singleton.1 hu]
    exact hplain (hkept.text hs)

end ContractChecks
