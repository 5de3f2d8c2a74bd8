import ContractChecks.Proofs.QuantifierFree

/-!
# The parts of a quantifier

What is read between the parentheses of a quantifier is cut at separators, relations and signs of
assignment, and the headers of its loops are put together from the pieces.

* `PartProperty P`: texts hand `P` down to the parts that are cut out of them, and take it over from
  parts that do not run into each other;
* `CutProperty P`: the same for a cut anywhere outside literals (`CutProperty.partProperty`); closed
  literals are such a property (`literalsClosed_cutProperty`);
* `PartProperty.countingLoops`, `PartProperty.rangeLoop`: limits and headers of loops;
* `Quantified.Parts P q`, `PartProperty.parse`: all parts of a quantifier that was read;
* `Loop.NamesType`: the type of the variables stands in the header of a loop;
* `firstSpan?_spec`: where the first quantifier of a text stands, and what is around it.
-/

namespace ContractChecks

theorem literalsClosed_of_isName {n : Text} (h : isName n = true) : LiteralsClosed n :=
  literalsClosed_of_noQuote fun c hc =>
    not_isQuoteMark_of_isNamePart (isNamePart_of_isName h c hc)

/-- names in a list have no quotation marks, and neither has the list -/
theorem literalsClosed_of_names {lhs : Text} (h : (splitTop "," lhs).all isName = true) :
    LiteralsClosed lhs := by
  refine literalsClosed_of_noQuote fun d hd => ?_
  cases hquote : isQuoteMark d with
  | false => rfl
  | true =>
    have hcomma : d ∉ (",".toList) := by
      rintro hd
      rw [List.mem_singleton.1 hd] at hquote
      cases hquote
    have hpart := isNamePart_of_mem_names h hd hcomma <| by
      cases hb : isBlank d with
      | false => rfl
      | true => rw [not_isQuoteMark_of_isBlank hb] at hquote; cases hquote
    rw [not_isQuoteMark_of_isNamePart hpart] at hquote
    cases hquote

/-! ### properties of texts that parts take over -/

def partSeparators : List Text := [";", "&&", ","]

/-- the fixed texts between the parts of a header -/
def linkTexts : List Text :=
  ["for ", " := ", ", ", "; ", " ", "++", "_", " + 1", "<", "<=", ">", ">="]

/-- a property of texts that passes on to the parts that are cut out of a text, and from parts that
do not run into each other to the text put together from them -/
structure PartProperty (P : Text → Prop) : Prop where
  closed : ∀ {s}, P s → LiteralsClosed s
  trim : ∀ {s}, P s → P (Text.trim s)
  top : ∀ {m s}, m ∈ partSeparators → P s → ∀ p ∈ cutTop m s, P p
  relation : ∀ {s a b rel}, cutRelationFrom .code 0 s = some (a, rel, b) → P s → P a ∧ P b
  binding : ∀ {lhs rhs}, (splitTop "," lhs).all isName = true → P (lhs ++ (":=" ++ rhs)) →
    P lhs ∧ P rhs
  comma : ∀ {r}, P (',' :: r) → P r
  name : ∀ {n rest}, isName n = true → EndsName rest → P (n ++ rest) → P n ∧ P rest
  append : ∀ {a b}, P a → P b → Block a ∨ StartsFresh b → P (a ++ b)
  parens : ∀ {s}, P s → P ("(" ++ s ++ ")")
  nil : P []
  fixed : ∀ t ∈ linkTexts, P t

def headerTexts : List Text :=
  ["for ", " := ", ", ", "; ", " ", "++", "_", "(", ")", ") + 1", " + 1", "<", "<=", ">", ">="]

/-- a property of texts that passes on at every separator outside literals -/
structure CutProperty (P : Text → Prop) : Prop where
  closed : ∀ {s}, P s → LiteralsClosed s
  trim : ∀ {s}, P s → P (Text.trim s)
  cut : ∀ {a m b}, isSeparator m = true → LiteralsClosed a → P (a ++ (m ++ b)) → P a ∧ P b
  name : ∀ {n rest}, isName n = true → EndsName rest → P (n ++ rest) → P n ∧ P rest
  append : ∀ {a b}, P a → P b → Block a ∨ StartsFresh b → P (a ++ b)
  nil : P []
  fixed : ∀ t ∈ headerTexts, P t

section
variable {P : Text → Prop} (hP : CutProperty P)
include hP

theorem CutProperty.cutTop {m : Text} (hsep : isSeparator m = true) {s : Text} (hs : P s) :
    ∀ p ∈ cutTop m s, P p := by
  -- the pieces are met one after the other, each with the text after it
  generalize hcut : ContractChecks.cutTop m s = ps
  induction ps generalizing s with
  | nil => simp
  | cons p ps ih =>
    rcases cutTopFrom_cases hcut with ⟨rfl, rfl⟩ | ⟨t, -, rfl, hp, rfl⟩
    · simpa using hs
    · obtain ⟨hfirst, hrest⟩ := hP.cut hsep hp hs
      exact List.forall_mem_cons.2 ⟨hfirst, ih hrest rfl⟩

theorem CutProperty.cutRelation {s a b : Text} {rel : Relation}
    (h : cutRelationFrom .code 0 s = some (a, rel, b)) (hs : P s) : P a ∧ P b := by
  obtain ⟨ha, -⟩ := cutRelationFrom_closed h (hP.closed hs)
  rw [← cutRelationFrom_append h, List.append_assoc] at hs
  have hsign : isSeparator rel.text = true := by cases rel <;> decide
  exact hP.cut hsign ha hs

theorem CutProperty.parens {s : Text} (hs : P s) : P ("(" ++ s ++ ")") := by
  have hopen : P "(" := hP.fixed _ (by decide)
  have hblock : Block "(" := LiteralsClosed.block (a := []) (hP.closed hopen) (by decide)
  exact hP.append (hP.append hopen hs (.inl hblock)) (hP.fixed _ (by decide))
    (.inr (startsFresh_cons (by decide) []))

theorem CutProperty.partProperty : PartProperty P where
  closed := hP.closed
  trim := hP.trim
  top := by
    intro m s hm hs
    have hsep : isSeparator m = true := by
      revert m
      decide
    exact hP.cutTop hsep hs
  relation := hP.cutRelation
  binding := fun hnames hs => hP.cut (by decide) (literalsClosed_of_names hnames) hs
  comma := fun hs => (hP.cut (a := []) (m := ",") (by decide) literalsClosed_nil hs).2
  name := hP.name
  append := hP.append
  parens := hP.parens
  nil := hP.nil
  fixed := by
    intro t ht
    refine hP.fixed t ?_
    revert t
    decide

end

theorem literalsClosed_cutProperty : CutProperty LiteralsClosed where
  closed := id
  trim := LiteralsClosed.trim
  cut := by
    intro a m b hsep ha h
    have hmarks := literalsClosed_of_isMark fun c hc => ((isSeparator_spec hsep).2 c hc).1
    exact ⟨ha, hmarks.of_append (ha.of_append h)⟩
  name := by
    intro n rest hn _ h
    exact ⟨literalsClosed_of_isName hn, (literalsClosed_of_isName hn).of_append h⟩
  append := fun ha hb _ => ha.append hb
  nil := literalsClosed_nil
  fixed := by
    intro t ht
    refine literalsClosed_of_noQuote (noQuote_of_any ?_)
    revert t
    decide

theorem literalsClosed_partProperty : PartProperty LiteralsClosed :=
  literalsClosed_cutProperty.partProperty

structure Bound.Parts (P : Text → Prop) (b : Bound) : Prop where
  lower : ∀ t ∈ b.lower, P t
  upper : ∀ p ∈ b.upper, P p.2

theorem Bound.parts_empty (P : Text → Prop) : Bound.Parts P {} := ⟨by simp, by simp⟩

theorem upperBound_parts {P : Text → Prop} {limit : Text} (h : P limit) (rel : Relation) :
    (upperBound rel limit).Parts P := by
  unfold upperBound
  split
  · exact Bound.parts_empty P
  · refine ⟨by simp, ?_⟩
    intro p hp
    cases hp
    exact h

theorem Bound.Parts.orElse {P : Text → Prop} {b c : Bound} (hb : b.Parts P) (hc : c.Parts P) :
    (b.orElse c).Parts P := by
  constructor
  · intro t ht
    rcases Option.or_eq_some_iff.1 ht with ht | ⟨-, ht⟩
    · exact hb.lower t ht
    · exact hc.lower t ht
  · intro p hp
    rcases Option.or_eq_some_iff.1 hp with hp | ⟨-, hp⟩
    · exact hb.upper p hp
    · exact hc.upper p hp

section
variable {P : Text → Prop} (hP : PartProperty P)
include hP

theorem PartProperty.splitTop {m : Text} (hsep : m ∈ partSeparators) {s : Text} (hs : P s) :
    ∀ p ∈ splitTop m s, P p := by
  intro p hp
  obtain ⟨q, hq, rfl⟩ := List.mem_map.1 hp
  exact hP.trim (hP.top hsep hs q hq)

theorem PartProperty.comparison? {s : Text} {x : Comparison} (h : comparison? s = some x)
    (hs : P s) : P x.lhs ∧ P x.rhs := by
  obtain ⟨⟨a, rel, b⟩, hp, rfl⟩ := Option.map_eq_some_iff.1 h
  obtain ⟨hl, hr⟩ := hP.relation hp hs
  exact ⟨hP.trim hl, hP.trim hr⟩

/-- a part after a fixed text that ends with a mark -/
theorem PartProperty.after {t s : Text} (ht : t ∈ linkTexts)
    (hlast : t.getLast?.any isMark = true) (hs : P s) : P (t ++ s) := by
  have hfixed := hP.fixed t ht
  exact hP.append hfixed hs (.inl (LiteralsClosed.block (a := []) (hP.closed hfixed) hlast))

/-- a part before a fixed text that starts with a mark -/
theorem PartProperty.before {t s : Text} (ht : t ∈ linkTexts)
    (hhead : t.head?.any isMark = true) (hs : P s) : P (s ++ t) := by
  refine hP.append hs (hP.fixed t ht) (.inr ?_)
  intro c hc
  rw [Option.mem_def.1 hc] at hhead
  exact (isMark_spec hhead).2.2

/-- two parts with a fixed text between them -/
theorem PartProperty.between {a t b : Text} (ha : P a) (ht : t ∈ linkTexts)
    (hhead : t.head?.any isMark = true) (hlast : t.getLast?.any isMark = true) (hb : P b) :
    P (a ++ t ++ b) := by
  have hstart := hP.before ht hhead ha
  exact hP.append hstart hb (.inl ((hP.closed hstart).block hlast))

/-! ### bounds -/

theorem PartProperty.lowerBound {limit : Text} (h : P limit) (strict : Bool) :
    (lowerBound limit strict).Parts P := by
  have hfirst : P (firstValue limit strict) := by
    unfold firstValue
    split
    · exact h
    split
    · exact hP.before (t := " + 1") (by decide) (by decide) h
    · have hsum := hP.before (t := " + 1") (by decide) (by decide) (hP.parens h)
      rw [List.append_assoc] at hsum
      exact hsum
  show Bound.Parts P (if firstValue limit strict = [] then {} else { lower := some _ })
  split
  · exact Bound.parts_empty P
  · refine ⟨?_, by simp⟩
    intro t ht
    cases ht
    exact hfirst

theorem PartProperty.simpleBound? {v lhs rhs : Text} {rel : Relation} {b : Bound}
    (h : simpleBound? v lhs rel rhs = some b) (hl : P lhs) (hr : P rhs) : b.Parts P := by
  unfold ContractChecks.simpleBound? at h
  split at h
  · cases h
    split
    · exact upperBound_parts hr rel
    · exact hP.lowerBound hr rel.strict
  split at h
  · cases h
    split
    · exact hP.lowerBound hl rel.strict
    · exact upperBound_parts hl rel.flip
  · cases h

theorem PartProperty.chainBound? {v lhs rhs : Text} {rel : Relation} {b : Bound} (hv : P v)
    (h : chainBound? v lhs rel rhs = some b) (hl : P lhs) (hr : P rhs) : b.Parts P := by
  fun_induction ContractChecks.chainBound? v lhs rel rhs generalizing b with
  | case1 lhs rel rhs x hx hxv a c hc ha ih =>
    cases h
    have hupper := ih hc hv (hP.comparison? hx hr).2
    have hlower := hP.simpleBound? ha hl hv
    exact ⟨hlower.lower, hupper.upper⟩
  | case2 => cases h
  | case3 => exact hP.simpleBound? h hl hr
  | case4 => exact hP.simpleBound? h hl hr

theorem PartProperty.bound? {v conjunct : Text} {b : Bound} (hv : P v)
    (h : bound? v conjunct = some b) (hc : P conjunct) : b.Parts P := by
  rw [bound?_eq_chainBound?] at h
  split at h
  · rename_i x hx
    obtain ⟨hl, hr⟩ := hP.comparison? hx hc
    exact hP.chainBound? hv h hl hr
  · cases h

theorem PartProperty.findBound {v : Text} (hv : P v) (unbound : List Text) {found : Bound}
    (hfound : found.Parts P) {cs : List Conjunct} (hcs : ∀ c ∈ cs, P c.text) :
    (findBound v unbound found cs).1.Parts P := by
  induction cs generalizing found with
  | nil => exact hfound
  | cons c cs ih =>
    have hrest : ∀ d ∈ cs, P d.text := fun d hd => hcs d (List.mem_cons_of_mem c hd)
    rw [ContractChecks.findBound]
    split
    · exact ih hfound hrest
    · rename_i b hb
      split
      · exact ih hfound hrest
      · exact ih (hfound.orElse (hP.bound? hv hb (hcs c List.mem_cons_self))) hrest

/-! ### loops -/

omit hP in
theorem header_counting (var init : Text) (rel : Relation) (limit : Text) :
    (Loop.counting var init rel limit).header =
      "for " ++ var ++ " := " ++ init ++ "; " ++ var ++ " " ++ rel.text ++ " " ++ limit ++ "; "
        ++ var ++ "++" := rfl

theorem PartProperty.counting_header {var init limit : Text} (hvar : P var) (hinit : P init)
    (rel : Relation) (hlimit : P limit) : P (Loop.counting var init rel limit).header := by
  have hstart : P ("for " ++ var) := hP.after (by decide) (by decide) hvar
  have hfirst := hP.between (t := " := ") hstart (by decide) (by decide) (by decide) hinit
  have hcond := hP.between (t := "; ") hfirst (by decide) (by decide) (by decide) hvar
  have hsign : P rel.text := hP.fixed _ (by cases rel <;> decide)
  have hrel := hP.between (t := " ") hcond (by decide) (by decide) (by decide) hsign
  have hstop := hP.between (t := " ") hrel (by decide) (by decide) (by decide) hlimit
  have hnext := hP.between (t := "; ") hstop (by decide) (by decide) (by decide) hvar
  rw [header_counting]
  exact hP.before (t := "++") (by decide) (by decide) hnext

omit hP in
/-- the header names the type of the variable, unless it is the usual one -/
def Loop.NamesType (type : Text) (l : Loop) : Prop :=
  type = "int" ∨ ∃ start stop, l.header = start ++ (type ++ stop) ∧ Block start ∧ StartsFresh stop

omit hP in
theorem counting_namesType {var lo limit type : Text} (hvar : LiteralsClosed var) (rel : Relation) :
    (Loop.counting var (if type = "int" then lo else type ++ "(" ++ lo ++ ")") rel limit).NamesType
      type := by
  by_cases htype : type = "int"
  · exact .inl htype
  · right
    rw [if_neg htype]
    have hclosed := (LiteralsClosed.append (a := "for ") rfl hvar).append (b := " := ") rfl
    refine ⟨_, "(" ++ (lo ++ ")" ++ "; " ++ var ++ " " ++ rel.text ++ " " ++ limit ++ "; " ++ var
      ++ "++"), ?_, hclosed.block (by decide), startsFresh_cons (by decide) _⟩
    simp only [header_counting, List.append_assoc]

theorem PartProperty.countingLoops {type : Text} (htype : P type) {vs : List Text}
    (hvs : ∀ v ∈ vs, P v) {cs : List Conjunct} (hcs : ∀ c ∈ cs, P c.text)
    {p : List Loop × List Conjunct} (h : countingLoops type vs cs = .ok p) :
    p.1.length = vs.length ∧ ∀ l ∈ p.1, P l.header ∧ l.NamesType type := by
  induction vs generalizing cs p with
  | nil =>
    cases h
    exact ⟨rfl, by simp⟩
  | cons v vs ih =>
    have hv := hvs v List.mem_cons_self
    have hbound := hP.findBound hv (v :: vs) (Bound.parts_empty P) hcs
    have hrest : ∀ c ∈ (ContractChecks.findBound v (v :: vs) {} cs).2, P c.text := by
      intro c hc
      have hmem : c.text ∈ (ContractChecks.findBound v (v :: vs) {} cs).2.map Conjunct.text :=
        List.mem_map_of_mem hc
      rw [texts_findBound] at hmem
      obtain ⟨d, hd, he⟩ := List.mem_map.1 hmem
      exact he ▸ hcs d hd
    simp only [ContractChecks.countingLoops] at h
    split at h
    · cases h
    · cases h
    · rename_i lo hi hlo hhi
      split at h
      · cases h
      · rename_i q hq
        cases h
        obtain ⟨hlen, hloops⟩ := ih (fun v hv => hvs v (List.mem_cons_of_mem _ hv)) hrest hq
        refine ⟨congrArg (· + 1) hlen, ?_⟩
        intro l hl
        rcases List.mem_cons.1 hl with rfl | hl
        · have hlower := hbound.lower lo hlo
          have hinit : P (if type = "int" then lo else type ++ "(" ++ lo ++ ")") := by
            split
            · exact hlower
            · have hcall := hP.append htype (hP.parens hlower) (.inr (startsFresh_cons (by decide) _))
              rw [← List.append_assoc, ← List.append_assoc] at hcall
              exact hcall
          exact ⟨hP.counting_header hv hinit hi.1 (hbound.upper hi hhi),
            counting_namesType (hP.closed hv) hi.1⟩
        · exact hloops l hl

theorem PartProperty.range_header {key value : Option Text} {clause : Text}
    (hkey : ∀ k ∈ key, P k) (hvalue : ∀ v ∈ value, P v) (hclause : P clause) :
    P (Loop.range key value clause).header := by
  have hfor : ∀ {s}, P s → P ("for " ++ s) := fun hs => hP.after (by decide) (by decide) hs
  have hsign : ∀ {s}, P s → P (s ++ " := " ++ clause) := fun hs =>
    hP.between hs (by decide) (by decide) (by decide) hclause
  have hpair : ∀ k v, P k → P v → P ("for " ++ k ++ ", " ++ v ++ " := " ++ clause) := by
    intro k v hk hv
    exact hsign (hP.between (t := ", ") (hfor hk) (by decide) (by decide) (by decide) hv)
  match key, value with
  | none, none => exact hfor hclause
  | some k, none => exact hsign (hfor (hkey k rfl))
  | none, some v => exact hpair ['_'] v (hP.fixed _ (by decide)) (hvalue v rfl)
  | some k, some v => exact hpair k v (hkey k rfl) (hvalue v rfl)

omit hP in
theorem readVariable_mem {used var : Text} (h : P var) : ∀ v ∈ readVariable used var, P v := by
  intro v hv
  unfold readVariable at hv
  split at hv
  · cases hv
    exact h
  · cases hv

/-- the loop of a range binding, whose sides are parts of the binding -/
theorem PartProperty.rangeLoop {lhs rhs used : Text} {l : Loop}
    (h : rangeLoop lhs rhs.trim used = .ok l) (hbinding : P (lhs ++ (":=" ++ rhs))) :
    P l.header := by
  simp only [ContractChecks.rangeLoop] at h
  split at h
  case isFalse => cases h
  case isTrue hnames =>
    obtain ⟨hlhs, hrhs⟩ := hP.binding hnames hbinding
    have hvars := hP.splitTop (m := ",") (by decide) hlhs
    have hclause := hP.trim hrhs
    split at h
    · rename_i k hk
      cases h
      rw [hk] at hvars
      exact hP.range_header (readVariable_mem (hvars k (by simp))) (by simp) hclause
    · rename_i k v hk
      cases h
      rw [hk] at hvars
      exact hP.range_header (readVariable_mem (hvars k (by simp)))
        (readVariable_mem (hvars v (by simp))) hclause
    · cases h

/-! ### declarations -/

omit hP in
/-- a text that does not start with layout starts with its leading name -/
theorem leadingName_spec {s : Text} (hs : ∀ c ∈ s.head?, isLayout c = false)
    (hne : leadingName s ≠ []) : isName (leadingName s) = true ∧
      s = leadingName s ++ s.drop (leadingName s).length ∧
      EndsName (s.drop (leadingName s).length) := by
  cases s with
  | nil => exact absurd rfl hne
  | cons c r =>
    have hlead : leadingName (c :: r) = if isNameStart c then c :: r.takeWhile isNamePart else [] := by
      rw [leadingName, List.dropWhile_cons, hs c rfl]
      rfl
    rw [hlead] at hne ⊢
    by_cases hc : isNameStart c = true
    · rw [if_pos hc]
      have hdrop : (c :: r).drop (c :: r.takeWhile isNamePart).length = r.dropWhile isNamePart := by
        rw [List.length_cons, List.drop_succ_cons]
        nth_rewrite 2 [← List.takeWhile_append_dropWhile (p := isNamePart) (l := r)]
        rw [List.drop_left]
      rw [hdrop, List.cons_append, List.takeWhile_append_dropWhile, isName, hc, List.all_takeWhile]
      exact ⟨rfl, rfl, endsName_dropWhile r⟩
    · rw [if_neg hc] at hne
      exact absurd rfl hne

omit hP in
theorem head?_trim (s : Text) : ∀ c ∈ (Text.trim s).head?, isLayout c = false := by
  intro c hc
  have hhead : c ∈ (Text.trimStart s).head? := by
    obtain ⟨u, hu⟩ := trimEnd_le (Text.trimStart s)
    rw [← hu, List.head?_append]
    exact Option.or_eq_some_iff.2 (.inl hc)
  have hblank := List.head?_dropWhile_not isBlank s
  have hfirst : (s.dropWhile isBlank).head? = some c := hhead
  rw [hfirst] at hblank
  change isBlank c = false at hblank
  cases hlayout : isLayout c with
  | false => rfl
  | true =>
    rw [isBlank_of_isLayout hlayout] at hblank
    cases hblank

theorem PartProperty.declNames? {s : Text} {p : List Text × Text} (h : declNames? s = some p)
    (hhead : ∀ c ∈ s.head?, isLayout c = false) (hs : P s) :
    (∀ n ∈ p.1, P n) ∧ p.1 ≠ [] ∧ P p.2 := by
  fun_induction ContractChecks.declNames? s generalizing p with
  | case1 => cases h
  | case2 t name hne =>
    cases h
    obtain ⟨hname, heq, hend⟩ := leadingName_spec hhead hne
    rw [heq] at hs
    exact ⟨by simpa using (hP.name hname hend hs).1, by simp, hP.nil⟩
  | case3 t name hne r htrim =>
    rename_i ih
    obtain ⟨q, hq, rfl⟩ := Option.map_eq_some_iff.1 h
    obtain ⟨hname, heq, hend⟩ := leadingName_spec hhead hne
    rw [heq] at hs
    obtain ⟨hn, hrest⟩ := hP.name hname hend hs
    have hcomma := hP.trim hrest
    rw [htrim] at hcomma
    obtain ⟨hnames, -, htype⟩ := ih hq (head?_trim r) (hP.trim (hP.comma hcomma))
    exact ⟨List.forall_mem_cons.2 ⟨hn, hnames⟩, by simp, htype⟩
  | case4 t name hne c r htrim =>
    cases h
    obtain ⟨hname, heq, hend⟩ := leadingName_spec hhead hne
    rw [heq] at hs
    obtain ⟨hn, hrest⟩ := hP.name hname hend hs
    have htype := hP.trim hrest
    rw [htrim] at htype
    exact ⟨by simpa using hn, by simp, htype⟩

theorem PartProperty.parseDecl {decl : Text} {p : List Text × Text} (h : parseDecl decl = .ok p)
    (hs : P decl) : (∀ n ∈ p.1, P n) ∧ p.1 ≠ [] ∧ P p.2 := by
  unfold ContractChecks.parseDecl at h
  split at h
  · cases h
  · rename_i names type hnames
    split at h
    · cases h
    · cases h
      exact hP.declNames? hnames (head?_trim decl) (hP.trim hs)

/-! ### quantifiers -/

omit hP in
/-- every part has the property, and the loops name the type of a sum -/
structure Quantified.Parts (P : Text → Prop) (q : Quantified) : Prop where
  headers : ∀ l ∈ q.loops, P l.header
  filters : ∀ g ∈ q.filters, P g
  body : P q.body
  type : P q.type
  loops : q.kind = .sum → ∃ l ∈ q.loops, l.NamesType q.type

theorem PartProperty.parseRange {kind : QuantifierKind} {lhs rhs : Text} {parts : List Text}
    {q : Quantified} (h : Quantified.parseRange kind lhs rhs parts = .ok q)
    (hbinding : P (lhs ++ (":=" ++ rhs))) (hparts : ∀ p ∈ parts, P p) : q.Parts P := by
  obtain ⟨hbody, hfilters⟩ := Quantified.parseRange_parts h
  have hsingle : ∀ {l : Loop} {used : Text}, ContractChecks.rangeLoop lhs rhs.trim used = .ok l →
      ∀ m ∈ [l], P m.header := by
    intro l used hl m hm
    rw [List.mem_singleton.1 hm]
    exact hP.rangeLoop hl hbinding
  simp only [Quantified.parseRange] at h
  split at h
  · cases h
  split at h
  · split at h
    · cases h
    · rename_i hkind
      obtain ⟨l, hl, h⟩ := except_bind_eq_ok h
      cases h
      exact ⟨hsingle hl, fun g hg => hparts g (hfilters g hg), hparts _ hbody, hP.nil,
        fun hsum => absurd hsum hkind⟩
  · split at h
    · cases h
    · rename_i hkind
      obtain ⟨l, hl, h⟩ := except_bind_eq_ok h
      cases h
      exact ⟨hsingle hl, fun g hg => hparts g (hfilters g hg), hparts _ hbody, hP.nil,
        fun hsum => absurd hsum hkind⟩
  · cases h

theorem PartProperty.parseTyped {kind : QuantifierKind} {decl : Text} {parts : List Text}
    {q : Quantified} (h : Quantified.parseTyped kind decl parts = .ok q) (hdecl : P decl)
    (hparts : ∀ p ∈ parts, P p) : q.Parts P := by
  simp only [Quantified.parseTyped] at h
  split at h
  case h_2 => cases h
  case h_1 range body =>
    obtain ⟨p, hp, h⟩ := except_bind_eq_ok h
    obtain ⟨ls, hls, h⟩ := except_bind_eq_ok h
    cases h
    obtain ⟨hnames, hne, htype⟩ := hP.parseDecl hp hdecl
    have hconjuncts : ∀ c ∈ (ContractChecks.splitTop "&&" range).map fun t =>
        ({ text := t } : Conjunct), P c.text := by
      intro c hc
      obtain ⟨t, ht, rfl⟩ := List.mem_map.1 hc
      exact hP.splitTop (by decide) (hparts range (by simp)) t ht
    obtain ⟨hlen, hloops⟩ := hP.countingLoops htype hnames hconjuncts hls
    refine ⟨fun l hl => (hloops l hl).1, ?_, hparts body (by simp), htype, ?_⟩
    · intro g hg
      obtain ⟨c, hc, rfl⟩ := List.mem_map.1 hg
      have hmem : c.text ∈ ls.2.map Conjunct.text := List.mem_map_of_mem (List.mem_filter.1 hc).1
      rw [texts_countingLoops hls] at hmem
      obtain ⟨d, hd, he⟩ := List.mem_map.1 hmem
      exact he ▸ hconjuncts d hd
    · intro _
      obtain ⟨l, hl⟩ := List.exists_mem_of_length_pos (hlen ▸ List.length_pos_iff.2 hne)
      exact ⟨l, hl, (hloops l hl).2⟩

theorem PartProperty.parse {kind : QuantifierKind} {inner : Text} {q : Quantified}
    (h : Quantified.parse kind inner = .ok q) (hs : P inner) : q.Parts P := by
  have hparts := hP.splitTop (m := ";") (by decide) hs
  obtain ⟨r, hr, h⟩ := except_bind_eq_ok h
  split at h
  · cases h
  cases h
  cases hsplit : ContractChecks.splitTop ";" inner with
  | nil =>
    rw [hsplit] at hr
    cases hr
  | cons binding parts =>
    rw [hsplit] at hr hparts
    have hbinding := hparts binding List.mem_cons_self
    have hrest := fun p hp => hparts p (List.mem_cons_of_mem binding hp)
    simp only [Quantified.parseForm] at hr
    split at hr
    · rename_i x hx
      exact hP.parseRange hr (cut?_append hx ▸ hbinding) hrest
    · exact hP.parseTyped hr hbinding hrest

end

abbrev Quantified.PartsClosed (q : Quantified) : Prop := q.Parts LiteralsClosed

theorem Quantified.parse_closed {kind : QuantifierKind} {inner : Text} {q : Quantified}
    (h : parse kind inner = .ok q) (hs : LiteralsClosed inner) : q.PartsClosed :=
  literalsClosed_partProperty.parse h hs

/-! ### spans -/

theorem quantifierFree_of_firstSpan? {s : Text} (h : firstSpan? s = .ok none) :
    QuantifierFree s := by
  simp only [firstSpan?] at h
  unfold QuantifierFree containsQuantifier
  split at h
  · rename_i hnone
    rw [hnone]
    rfl
  split at h
  · obtain ⟨p, -, hp⟩ := except_map_eq_ok h
    cases hp
  · cases h

/-- an opening parenthesis that only layout follows -/
theorem eq_append_of_getLast? {t : Text} {c : Char} (h : t.trimLayoutEnd.getLast? = some c) :
    t = t.trimLayoutEnd.dropLast ++ c :: t.drop t.trimLayoutEnd.length ∧
      ∀ d ∈ t.drop t.trimLayoutEnd.length, isLayout d = true := by
  obtain ⟨u, hu, hlayout⟩ := exists_append_of_dropWhile_reverse isLayout t
  change t.trimLayoutEnd ++ u = t at hu
  generalize t.trimLayoutEnd = front at *
  subst hu
  obtain ⟨init, rfl⟩ := List.getLast?_eq_some_iff.1 h
  rw [List.drop_left, List.dropLast_concat, List.append_assoc]
  exact ⟨rfl, hlayout⟩

theorem not_isQuoteMark_of_keyword (k : QuantifierKind) :
    ∀ c ∈ k.keyword, isQuoteMark c = false := by
  refine noQuote_of_any ?_
  cases k <;> decide

theorem spanOf_closed {head gap : Text} {x : QuantifierCut} {p : QuantifierSpan}
    (h : spanOf head gap x = .ok p) (hgap : ∀ c ∈ gap, isQuoteMark c = false)
    (hkeyword : x.keyword = x.kind.keyword) :
    p.head = head ∧ LiteralsClosed p.inner ∧
      ∃ a c, '(' :: (gap ++ x.keyword ++ x.after) = a ++ c :: p.rest ∧ LiteralsClosed a ∧
        isClosing c = true := by
  simp only [spanOf] at h
  split at h
  case h_2 => cases h
  case h_1 a c rest hcut =>
    cases h
    obtain ⟨ha, d, r, hd, hclosing⟩ := cutClose_closed hcut
    cases hd
    have happend := cutClose_append hcut
    refine ⟨rfl, ?_, a, c, happend.symm, ha, hclosing⟩
    -- the part cut off consists of the parenthesis, the gap and the keyword
    have hlen : ('(' :: (gap ++ x.keyword)).length = 1 + gap.length + x.keyword.length := by
      simp only [List.length_cons, List.length_append]
      omega
    have hstart : ∀ d ∈ a.take (1 + gap.length + x.keyword.length), isQuoteMark d = false := by
      intro d hd
      have hmem : d ∈ ('(' :: (gap ++ x.keyword ++ x.after)).take
          (1 + gap.length + x.keyword.length) := by
        rw [← happend, List.take_append]
        exact List.mem_append_left _ hd
      rw [← List.cons_append, ← hlen, List.take_left] at hmem
      rcases List.mem_cons.1 hmem with rfl | hmem
      · decide
      rcases List.mem_append.1 hmem with hmem | hmem
      · exact hgap d hmem
      · exact not_isQuoteMark_of_keyword x.kind d (hkeyword ▸ hmem)
    rw [← List.take_append_drop (1 + gap.length + x.keyword.length) a] at ha
    exact (literalsClosed_of_noQuote hstart).of_append ha

/-- the first quantifier of a text: no quantifier stands before it, and all literals before it and
inside it are closed -/
theorem firstSpan?_spec {s : Text} {p : QuantifierSpan} (h : firstSpan? s = .ok (some p)) :
    LiteralsClosed p.head ∧ QuantifierFree p.head ∧ LiteralsClosed p.inner ∧
      ∃ a c, s = p.head ++ (a ++ c :: p.rest) ∧ LiteralsClosed a ∧ isClosing c = true := by
  simp only [firstSpan?] at h
  split at h
  · cases h
  rename_i x hx
  split at h
  case isFalse => cases h
  case isTrue hlast =>
    obtain ⟨r, hr, he⟩ := except_map_eq_ok h
    cases he
    obtain ⟨hbefore, hlayout⟩ := eq_append_of_getLast? hlast
    have hgap : ∀ c ∈ x.before.drop x.before.trimLayoutEnd.length, isQuoteMark c = false :=
      fun c hc => not_isQuoteMark_of_isBlank (isBlank_of_isLayout (hlayout c hc))
    obtain ⟨hhead, hinner, a, c, hspan, ha, hc⟩ :=
      spanOf_closed hr hgap (keyword_findQuantifier hx)
    have hs := findQuantifier_append hx
    have hclosed := findQuantifier_closed hx
    have hfree := findQuantifier_free hx
    rw [concat_lexemes] at hs
    generalize x.before.drop x.before.trimLayoutEnd.length = gap at *
    rw [← hhead] at hbefore
    rw [hbefore] at hs hclosed hfree
    have hparen : ∀ c ∈ '(' :: gap, isQuoteMark c = false := by
      intro c hc
      rcases List.mem_cons.1 hc with rfl | hc
      · decide
      · exact hgap c hc
    have hheadClosed := hclosed.of_append_right hparen
    refine ⟨hheadClosed, ?_, hinner, a, c, ?_, ha, hc⟩
    · exact ((quantifierFree_append hheadClosed (startsFresh_cons (by decide) gap)).1 hfree).1
    · rw [← hspan, ← hs]
      simp only [List.append_assoc, List.cons_append]

end ContractChecks
