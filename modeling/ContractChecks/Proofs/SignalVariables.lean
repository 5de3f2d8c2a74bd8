import ContractChecks.Proofs.ConstructedObject
import ContractChecks.Proofs.FilledWords
import ContractChecks.Proofs.SplicedNames
import ContractChecks.Proofs.WrapperLayout

/-!
# The variable of a signals clause

A selection binds the variable of its clause only if the variable is found in the check or in the
closures of the check.  These are read as one text, in which the first closure stands directly behind
the check, and selectors count.  So the variable can be found where nothing reads it, and a variable
at the end of the check can be lost.

* `Quoting.rest`, `words_append_open`: what is found behind a text with an open literal;
* `scannedWords check closures`: the words found in a check and its closures;
* `selectionsIn ss`: the selections among statements; `synthesize_selections`: those of a wrapper,
  one for each signals clause that can fail;
* `Stmt.BindsAsRead v s`: `s` binds `v` exactly if its body reads `v`;
* `signals_bindsAsRead_iff`: when the variable of a clause is bound exactly if it is read.
-/

namespace ContractChecks

/-! ### text behind an open literal -/

namespace Quoting

/-- the text behind the literal that is open, if one is -/
def rest : Quoting → Text → Text
  | .code, s => s
  | .within q, s => (literalTail q s).2
  | .escaped q, s => (literalTail q (s.drop 1)).2

theorem rest_nil (st : Quoting) : st.rest [] = [] := by
  cases st <;> rfl

/-- a character that leaves the literal open belongs to it -/
theorem rest_cons {st : Quoting} {c : Char} (hst : st ≠ .code) (hnext : st.next c ≠ .code)
    (s : Text) : st.rest (c :: s) = (st.next c).rest s := by
  cases st with
  | code => exact absurd rfl hst
  | escaped q => rfl
  | within q =>
    rw [next] at hnext ⊢
    by_cases hesc : (c = '\\' && escapes q) = true
    · rw [if_pos hesc]
      cases s with
      | nil => rfl
      | cons d s =>
        show (literalTail q (c :: d :: s)).2 = (literalTail q s).2
        rw [literalTail, if_pos hesc]
    · rw [if_neg hesc] at hnext ⊢
      by_cases hc : c = q
      · exact absurd (if_pos hc) hnext
      · rw [if_neg hc]
        cases s with
        | nil => rfl
        | cons d s =>
          show (literalTail q (c :: d :: s)).2 = (literalTail q (d :: s)).2
          rw [literalTail, if_neg hesc, if_neg hc]

end Quoting

/-- where the literal begins that a text leaves open -/
theorem exists_openLiteral {a : Text} (h : Quoting.code.after a ≠ .code) :
    ∃ b q r, a = b ++ q :: r ∧ LiteralsClosed b ∧ isQuoteMark q = true ∧
      ∀ t, (literalTail q (r ++ t)).2 = (Quoting.code.after a).rest t := by
  induction a using List.reverseRecOn with
  | nil => exact absurd rfl h
  | append_singleton a c ih =>
    rw [Quoting.after_append] at h ⊢
    show ∃ b q r, _ ∧ _ ∧ _ ∧ ∀ t, _ = ((Quoting.code.after a).next c).rest t
    by_cases ha : Quoting.code.after a = .code
    · rw [ha] at h ⊢
      by_cases hquote : isQuoteMark c = true
      · refine ⟨a, c, [], rfl, ha, hquote, fun t => ?_⟩
        rw [Quoting.next, if_pos hquote]
        rfl
      · exact absurd (next_code (Bool.not_eq_true _ ▸ hquote)) h
    · obtain ⟨b, q, r, heq, hb, hq, hrest⟩ := ih ha
      refine ⟨b, q, r ++ [c], by rw [heq, List.append_assoc]; rfl, hb, hq, fun t => ?_⟩
      rw [List.append_assoc, List.singleton_append, hrest, Quoting.rest_cons ha h]

theorem words_append_open {a : Text} (h : Quoting.code.after a ≠ .code) (t : Text) :
    words (a ++ t) = words a ++ words ((Quoting.code.after a).rest t) := by
  obtain ⟨b, q, r, heq, hb, hq, hrest⟩ := exists_openLiteral h
  have hfresh : ∀ s, StartsFresh (q :: s) := by
    intro s c hc
    cases hc
    cases hpart : isNumberPart q with
    | false => rfl
    | true => exact absurd hq (Bool.eq_false_iff.1 (not_isQuoteMark_of_isNumberPart hpart))
  have hwords : ∀ t, words (a ++ t) = words b ++ words ((Quoting.code.after a).rest t) := by
    intro t
    have hliteral : words (q :: (r ++ t)) = words (literalTail q (r ++ t)).2 := by
      rw [words, lexemes, firstLexeme, if_pos hq]
      rfl
    rw [heq, List.append_assoc, List.cons_append, words_append hb (hfresh _), hliteral, hrest, heq]
  have hself := hwords []
  rw [List.append_nil, Quoting.rest_nil, words_nil, List.append_nil] at hself
  rw [hwords, hself]

/-! ### a check and its closures as one text -/

/-- the words found in a check and its closures.  The name of the first closure is written directly
behind the check.  If a literal of the check is open, what it takes in is not found. -/
def scannedWords (check : Text) : List Text → List Text
  | [] => words check
  | d :: ds =>
    if Quoting.code.after check = .code then
      (spliceName (d.takeWhile isNamePart) (lexemes check)).filterMap Lexeme.word?
        ++ ((words d).tail ++ ds.flatMap words)
    else words check ++ words ((Quoting.code.after check).rest (Text.join "\n" (d :: ds)))

structure DeclaresName (d : Text) : Prop where
  closed : LiteralsClosed d
  named : ∃ n t, d = n ++ ' ' :: t ∧ isName n = true

theorem opening_named (q : Quantified) (name : Text) : ∃ t, q.opening name = name ++ ' ' :: t := by
  unfold Quantified.opening
  cases q.kind
  case sum =>
    refine ⟨":= func() (racSum " ++ (q.type ++ ") \x7b\n"), ?_⟩
    show name ++ (" := func() (racSum " : Text) ++ q.type ++ (") \x7b\n" : Text) = _
    rw [List.append_assoc, List.append_assoc]
    rfl
  all_goals exact ⟨_, rfl⟩

theorem Expanded.declaresName {stem s : Text} {x : Expansion} (hstem : isName stem = true)
    (h : Expanded stem s x) : ∀ d ∈ x.decls, DeclaresName d := by
  have hnamed : ∀ d ∈ x.decls, ∃ n t, d = n ++ ' ' :: t ∧ isName n = true := by
    refine Expanded.induction (motive := fun _ x => ∀ d ∈ x.decls, ∃ n t, d = n ++ ' ' :: t ∧
      isName n = true) ?_ ?_ h
    · intro s _ d hd
      cases hd
    · intro s p q n filters body rest _ _ _ _ hrest
      refine List.forall_mem_cons.2 ⟨?_, hrest⟩
      obtain ⟨t, ht⟩ := opening_named q (stem ++ Text.ofNat n)
      rw [closureOf_eq, ht]
      simp only [List.append_assoc, List.cons_append]
      exact ⟨stem ++ Text.ofNat n, _, List.append_assoc .. |>.symm, (closureName_spec hstem n).1⟩
  exact fun d hd => ⟨(h.complete hstem).decls d hd, hnamed d hd⟩

theorem takeWhile_name_space {n : Text} (hn : isName n = true) (t : Text) :
    (n ++ ' ' :: t).takeWhile isNamePart = n :=
  (takeWhile_of_all (isNamePart_of_isName hn) (endsName_space t)).1

theorem words_scanned (check : Text) {closures : List Text} (h : ∀ d ∈ closures, DeclaresName d) :
    words (check ++ Text.join "\n" closures) = scannedWords check closures := by
  cases closures with
  | nil =>
    show words (check ++ []) = words check
    rw [List.append_nil]
  | cons d ds =>
    rw [scannedWords]
    split
    case isFalse hopen => exact words_append_open hopen _
    case isTrue hclosed =>
      rw [List.forall_mem_cons] at h
      obtain ⟨⟨hd, n, t, rfl, hn⟩, hds⟩ := h
      have hjoin : Text.join "\n" ((n ++ ' ' :: t) :: ds)
          = n ++ Text.join "\n" ((' ' :: t) :: ds) := by
        cases ds with
        | nil => rw [Text.join_singleton, Text.join_singleton]
        | cons e ds => rw [Text.join_cons_cons, Text.join_cons_cons, List.append_assoc]
      have hrest : words (Text.join "\n" ((' ' :: t) :: ds)) = words (' ' :: t) ++ ds.flatMap words := by
        refine words_join (by decide) (List.all_eq_true.1 (by decide)) _ ?_
        exact List.forall_mem_cons.2 ⟨(literalsClosed_of_isName hn).of_append hd,
          fun e he => (hds e he).closed⟩
      have hfresh : StartsFresh (Text.join "\n" ((' ' :: t) :: ds)) := by
        cases ds with
        | nil =>
          rw [Text.join_singleton]
          exact startsFresh_cons (by decide) t
        | cons e ds =>
          rw [Text.join_cons_cons]
          exact startsFresh_cons (by decide) _
      rw [takeWhile_name_space hn, hjoin, words, lexemes_append_name hclosed hn hfresh,
        List.filterMap_append, words_word_append (.inl hn) (endsName_space t), List.tail_cons, ← hrest]
      rfl

/-- the text has closed literals, and a name behind it does not run together with its last lexeme -/
def EndsApart (s : Text) : Prop :=
  LiteralsClosed s ∧ (lexemes s).getLast?.any Lexeme.isOpen = false

instance (s : Text) : Decidable (EndsApart s) :=
  inferInstanceAs
    (Decidable (Quoting.code.after s = .code ∧ (lexemes s).getLast?.any Lexeme.isOpen = false))

theorem spliceName_of_not_isOpen (n : Text) {ls : List Lexeme}
    (h : ls.getLast?.any Lexeme.isOpen = false) : spliceName n ls = ls ++ [.name n] := by
  fun_induction spliceName n ls with
  | case1 => rfl
  | case2 l m hm => exact absurd (grow_cases hm).1 (Bool.eq_false_iff.1 h)
  | case3 l hl => rfl
  | case4 l m ls ih =>
    rw [List.getLast?_cons_cons] at h
    rw [ih h]
    rfl

/-- where the closures stand apart from the check, all words of all texts are found -/
theorem mem_scannedWords {check : Text} {closures : List Text}
    (h : ∀ d ∈ closures, DeclaresName d) (hapart : closures = [] ∨ EndsApart check) (v : Text) :
    v ∈ scannedWords check closures ↔ v ∈ (closures ++ [check]).flatMap words := by
  rw [List.flatMap_append, List.flatMap_singleton, List.mem_append, or_comm, ← List.mem_append]
  cases closures with
  | nil =>
    rw [List.flatMap_nil, List.append_nil]
    exact Iff.rfl
  | cons d ds =>
    obtain ⟨hclosed, hlast⟩ := hapart.resolve_left (List.cons_ne_nil d ds)
    obtain ⟨-, n, t, rfl, hn⟩ := h d List.mem_cons_self
    have hcode : Quoting.code.after check = .code := hclosed
    rw [scannedWords, if_pos hcode, takeWhile_name_space hn, spliceName_of_not_isOpen n hlast,
      List.flatMap_cons, words_word_append (.inl hn) (endsName_space t), List.filterMap_append]
    show v ∈ words check ++ [n] ++ (words (' ' :: t) ++ ds.flatMap words) ↔ _
    rw [List.append_assoc]
    rfl

/-! ### selections -/

def Stmt.body : Stmt → List Stmt
  | .node _ body _ _ => body

mutual

/-- the selections in a statement, depth first -/
def Stmt.selections : Stmt → List Stmt
  | .node a b n e =>
    (if a.kind = .select then [.node a b n e] else [])
      ++ (selectionsIn b ++ selectionsIn n ++ selectionsIn e)

/-- the selections among statements and in them, depth first -/
def selectionsIn : List Stmt → List Stmt
  | [] => []
  | s :: ss => s.selections ++ selectionsIn ss

end

theorem selectionsIn_append (ss ts : List Stmt) :
    selectionsIn (ss ++ ts) = selectionsIn ss ++ selectionsIn ts := by
  induction ss with
  | nil => rw [List.nil_append, selectionsIn, List.nil_append]
  | cons s ss ih => rw [List.cons_append, selectionsIn, ih, selectionsIn, List.append_assoc]

theorem selectionsIn_leaves {phase : Phase} {kinds : List StmtKind} {ss : List Stmt}
    (h : Leaves phase kinds ss) (hkinds : .select ∉ kinds) : selectionsIn ss = [] := by
  induction ss with
  | nil => rfl
  | cons s ss ih =>
    rw [Leaves, List.forall_mem_cons] at h
    obtain ⟨⟨a, rfl, -, ha⟩, hss⟩ := h
    have hkind : a.kind ≠ .select := by
      rintro hselect
      exact hkinds (hselect ▸ ha)
    rw [selectionsIn, ih hss, Stmt.leaf, Stmt.selections, if_neg hkind]
    rfl

/-- the body of a selection has closures and one check in it -/
theorem leaves_signalStmt (signal : ViolationKind) (p : SignalPiece) :
    Leaves .exceptionalPath [.support, .checkCause] (signalStmt signal p).body := by
  let a : Action := {
    phase := .exceptionalPath, kind := .checkCause, text := p.check.piece.text, signal := signal
    message := p.check.message }
  exact (piece_spec (a := a) (k := .checkCause) (by decide) p.check.piece rfl rfl).1

theorem selectionsIn_signals (signal : ViolationKind) (ps : List SignalPiece) :
    selectionsIn (ps.map (signalStmt signal)) = ps.map (signalStmt signal) := by
  induction ps with
  | nil => rfl
  | cons p ps ih =>
    have hbody := selectionsIn_leaves (leaves_signalStmt signal p) (by decide)
    have hone : (signalStmt signal p).selections = [signalStmt signal p] := by
      show [signalStmt signal p]
        ++ (selectionsIn (signalStmt signal p).body ++ selectionsIn [] ++ selectionsIn []) = _
      rw [hbody]
      rfl
    rw [List.map_cons, selectionsIn, ih, hone]
    rfl

theorem selectionsIn_stmts {c : Contract} {mode : Mode} {oracle : Oracle} {w : Wrapper}
    {family : ViolationFamily} {sig : Signature} {plan : Plan} {t : WrapperTexts}
    (h : SynthesisSteps c mode oracle w family sig plan t) (hx : c.xpostCode = []) :
    selectionsIn w.stmts = t.signals.map (signalStmt family.exceptionalPost) := by
  have hshape := shape_parts h fun hne => absurd hx hne
  have hstmts : w.stmts = (t.parts sig plan family).stmts := by
    rw [stmts_parts, h.wrapper_eq]
  have hhandlers : (t.parts sig plan family).handlers
      = t.signals.map (signalStmt family.exceptionalPost) := by
    show List.map _ t.xpostCode ++ _ = _
    rw [h.texts.xpostCode, hx]
    rfl
  have hexceptional : selectionsIn (t.parts sig plan family).exceptional
      = t.signals.map (signalStmt family.exceptionalPost) := by
    rw [WrapperParts.exceptional, hhandlers, ← List.singleton_append, selectionsIn_append,
      selectionsIn_append, selectionsIn_signals]
    exact List.append_nil _
  have hguard : selectionsIn [.node (t.parts sig plan family).guard []
      (t.parts sig plan family).normal (t.parts sig plan family).exceptional]
      = t.signals.map (signalStmt family.exceptionalPost) := by
    rw [selectionsIn, Stmt.selections, if_neg (by rw [hshape.guard.1]; decide),
      selectionsIn_leaves hshape.normal (by decide), hexceptional]
    exact List.append_nil _
  have hresults : selectionsIn (t.parts sig plan family).results = [] := by
    rw [hshape.results]
    split <;> rfl
  rw [hstmts, WrapperParts.stmts]
  simp only [selectionsIn_append, selectionsIn_leaves hshape.declares (by decide),
    selectionsIn_leaves hshape.uses (by decide), selectionsIn_leaves hshape.early (by decide),
    selectionsIn_leaves hshape.check (by decide), selectionsIn_leaves hshape.late (by decide),
    hguard, hresults, List.nil_append, List.append_nil]

/-- the selection of a clause whose predicate was renamed by `f` and expanded -/
def SelectedBy (f : Renaming) (signal : ViolationKind) (e : Int × Signals) (s : Stmt) : Prop :=
  ∃ p, s = signalStmt signal p ∧ ExpandedAs defaultStem f e.2.pred p.check.piece ∧
    p.var = if pieceReads p.check.piece e.2.var then e.2.var else []

theorem yields_expandSignals (stem : Text) (m : Method) (f : Renaming) (e : Int × Signals) :
    Yields stem (expandSignals m f e) fun p => ExpandedAs stem f e.2.pred p.check.piece ∧
      p.var = if pieceReads p.check.piece e.2.var then e.2.var else [] :=
  .bind (yields_expandText stem f e.1 e.2.pred) fun _ hx => .pure ⟨hx, rfl⟩

theorem yields_signalPieces (stem : Text) (c : Contract) (plan : Plan) (f : Renaming) :
    Yields stem (expandTexts c plan f) fun t => c.xpostCode = [] →
      List.Forall₂ (fun e p => ExpandedAs stem f e.2.pred p.check.piece ∧
        p.var = if pieceReads p.check.piece e.2.var then e.2.var else [])
        (checkedSignals c) t.signals := by
  have htexts := fun l => Yields.mapM (fun s => yields_expandText stem f (-1) s) l
  have hpost : ∀ e, Yields stem (expandPost c.method f e) fun p => ExpandedAs stem f e.2 p.piece :=
    fun e => .bind (yields_expandText stem f e.1 e.2) fun x hx => .pure hx
  refine .bind (htexts plan.early) fun _ _ => .bind (htexts plan.preExprs) fun _ _ =>
    .bind (yields_expandPre stem c plan f) fun _ _ => .bind (htexts plan.late) fun _ _ =>
    .bind (Yields.mapM hpost (checkedPosts c)) fun _ _ => ?_
  by_cases hx : c.xpostCode.isEmpty = true
  · simp only [if_pos hx]
    exact .bind (Yields.forall₂_mapM (yields_expandSignals stem c.method f) _)
      fun signals hsignals => .pure fun _ => hsignals
  · simp only [if_neg hx]
    exact .bind (Q := fun _ => True) (.pure trivial) fun _ _ => .pure fun hnil =>
      absurd (List.isEmpty_iff.2 hnil) hx

/-- a wrapper has one selection for each signals clause that can fail, in the same order -/
theorem synthesize_selections {c : Contract} {mode : Mode} {oracle : Oracle} {w : Wrapper}
    (h : synthesize c mode oracle = .ok w) (hx : c.xpostCode = []) :
    ∃ f signal, (f = [] ∨ f = objectRenaming) ∧
      List.Forall₂ (SelectedBy f signal) (checkedSignals c) (selectionsIn w.stmts) := by
  obtain ⟨family, sig, plan, t, e, hsteps, hrun⟩ := synthesize_texts h
  have hpieces := (yields_signalPieces defaultStem c plan sig.renames {} t e rfl hrun).1 hx
  refine ⟨sig.renames, family.exceptionalPost, renames_signature hsteps.sig_eq, ?_⟩
  rw [selectionsIn_stmts hsteps hx, List.forall₂_map_right_iff]
  exact hpieces.imp fun e p hp => ⟨p, rfl, hp⟩

/-! ### what a selection binds and what its body reads -/

namespace Stmt

def bodyTexts (s : Stmt) : List Text := stmtTexts s.body

def bodyReads (s : Stmt) : List Text := s.bodyTexts.flatMap namesIn

/-- the selection binds the variable if its body reads it, and nothing otherwise -/
structure BindsAsRead (v : Text) (s : Stmt) : Prop where
  bound : v ∈ s.bodyReads → s.action.var = v
  unbound : v ∉ s.bodyReads → s.action.var = []

/-- the selection binds the variable if it is found in the check and its closures, and nothing
otherwise -/
structure BindsAsFound (v check : Text) (closures : List Text) (s : Stmt) : Prop where
  texts : s.bodyTexts = closures ++ [check]
  found : v ∈ scannedWords check closures → s.action.var = v
  missed : v ∉ scannedWords check closures → s.action.var = []

theorem BindsAsFound.bindsAsRead_iff {v check : Text} {closures : List Text} {s : Stmt}
    (h : s.BindsAsFound v check closures) (hv : v ≠ []) :
    s.BindsAsRead v ↔ (v ∈ scannedWords check closures ↔ v ∈ s.bodyReads) := by
  constructor
  · intro hread
    constructor
    · intro hfound
      by_contra hunread
      exact hv ((h.found hfound).symm.trans (hread.unbound hunread))
    · intro hmem
      by_contra hmissed
      exact hv ((hread.bound hmem).symm.trans (h.missed hmissed))
  · intro hiff
    exact ⟨fun hmem => h.found (hiff.2 hmem), fun hunread => h.missed fun hf => hunread (hiff.1 hf)⟩

end Stmt

theorem SelectedBy.declaresName {f : Renaming} {signal : ViolationKind} {e : Int × Signals}
    {s : Stmt} (h : SelectedBy f signal e s) :
    ∃ check closures, s.BindsAsFound e.2.var check closures ∧ ∀ d ∈ closures, DeclaresName d := by
  obtain ⟨p, rfl, hexpanded, hvar⟩ := h
  have hclosures := Expanded.declaresName (by decide) hexpanded
  have hfound : pieceReads p.check.piece e.2.var = true ↔
      e.2.var ∈ scannedWords p.check.piece.text p.check.piece.decls := by
    rw [pieceReads, references_iff, words_scanned _ hclosures]
  refine ⟨p.check.piece.text, p.check.piece.decls, ⟨?_, ?_, ?_⟩, hclosures⟩
  · exact stmtTexts_piece .exceptionalPath p.check.piece rfl
  · intro hmem
    exact hvar.trans (if_pos (hfound.2 hmem))
  · intro hmem
    exact hvar.trans (if_neg fun hreads => hmem (hfound.1 hreads))

/-- **The variable of a signals clause is bound exactly if its selection reads it,** provided that it
is found in the check and its closures exactly if they read it.  Where the closures stand apart from
the check, the variable must not be there as a selector only. -/
theorem signals_bindsAsRead_iff {c : Contract} {mode : Mode} {oracle : Oracle} {w : Wrapper}
    (h : synthesize c mode oracle = .ok w) (hx : c.xpostCode = []) :
    List.Forall₂ (fun e s => e.2.var ≠ [] → ∃ check closures,
        s.BindsAsFound e.2.var check closures ∧
        (s.BindsAsRead e.2.var ↔
          (e.2.var ∈ scannedWords check closures ↔ e.2.var ∈ s.bodyReads)) ∧
        (closures = [] ∨ EndsApart check → (s.BindsAsRead e.2.var ↔
          (e.2.var ∈ s.bodyTexts.flatMap words → e.2.var ∈ s.bodyReads))))
      (checkedSignals c) (selectionsIn w.stmts) := by
  obtain ⟨f, signal, -, hselected⟩ := synthesize_selections h hx
  refine hselected.imp fun e s hs hvar => ?_
  obtain ⟨check, closures, hfound, hclosures⟩ := hs.declaresName
  refine ⟨check, closures, hfound, hfound.bindsAsRead_iff hvar, fun hapart => ?_⟩
  rw [hfound.bindsAsRead_iff hvar, mem_scannedWords hclosures hapart, ← hfound.texts]
  -- a name that is read is also a word
  refine iff_iff_implies_and_implies.trans (and_iff_left ?_)
  intro hread
  obtain ⟨t, ht, hmem⟩ := List.mem_flatMap.1 hread
  exact List.mem_flatMap.2 ⟨t, ht, mem_words_of_mem_namesIn hmem⟩

def decantContract (pred : Text) : Contract where
  method := { name := "Decant", owner := "Jug", receiver := "j", visibility := .of .pub }
  pre := .set .empty 0 "true"
  xpost := .set .empty 0 [⟨"*DryError", "e", pred⟩]

/-- a predicate whose closure reads the signal -/
def cupsPredicate : Text := "(\\exists k := range cups; k == e)"

def cupsCheck : Text := "racQuant0()"

def cupsClosure : Text :=
  "racQuant0 := func() bool \x7b\nfor k := range cups \x7b\n"
    ++ "if k == e \x7b\nreturn true\n\x7d\n\x7d\nreturn false\n\x7d"

theorem signals_bindsAsRead_decant :
    ∃ w, synthesize (decantContract cupsPredicate) .direct (.scanning []) = .ok w ∧
      (decantContract cupsPredicate).xpostCode = [] ∧
      ∃ s, selectionsIn w.stmts = [s] ∧ "e".toList ∈ s.bodyReads ∧ s.BindsAsRead "e" := by
  have hrun : ((synthesize (decantContract cupsPredicate) .direct (.scanning [])).toOption.any fun w =>
      (selectionsIn w.stmts).all fun s => s.bodyTexts == [cupsClosure, cupsCheck]) = true := by
    -- the kernel is slow in reading the characters of a literal, so they are put in its place
    unfold decantContract cupsPredicate cupsClosure cupsCheck
    repeat rw [String.toList_ofList]
    decide +kernel
  have hclauses : checkedSignals (decantContract cupsPredicate)
      = [(0, ⟨"*DryError", "e", cupsPredicate⟩)] := by decide +kernel
  have hread : "e".toList ∈ namesIn cupsClosure := by
    unfold cupsClosure
    repeat rw [String.toList_ofList]
    decide +kernel
  obtain ⟨w, h, htexts⟩ := exists_eq_ok hrun
  have hbound := signals_bindsAsRead_iff h rfl
  rw [hclauses] at hbound
  generalize hss : selectionsIn w.stmts = ss at hbound htexts
  obtain _ | @⟨_, s, _, _, hone, _ | _⟩ := hbound
  obtain ⟨check, closures, hfound, -, hiff⟩ := hone (by decide)
  have hbody : s.bodyTexts = [cupsClosure, cupsCheck] := by simpa using htexts
  have hreads : "e".toList ∈ s.bodyReads := by
    rw [Stmt.bodyReads, hbody]
    exact List.mem_append_left _ hread
  have hsplit : closures ++ [check] = [cupsClosure] ++ [cupsCheck] := hfound.texts.symm.trans hbody
  obtain rfl := List.singleton_inj.1 (List.append_inj' hsplit rfl).2
  have hapart : EndsApart cupsCheck := by decide +kernel
  exact ⟨w, h, rfl, s, hss, hreads, (hiff (.inr hapart)).2 fun _ => hreads⟩

/-- a variable at the end of the check runs together with the first closure, and is not bound though
it is read; a selector is found, and the variable is bound though nothing reads it -/
theorem not_bindsAsRead_decant :
    (∃ w, synthesize (decantContract "(\\exists k := range cups; k) && e") .direct (.scanning [])
        = .ok w ∧
      ∃ s ∈ selectionsIn w.stmts, "e".toList ∈ s.bodyReads ∧ s.action.var = []) ∧
    ∃ w, synthesize (decantContract "j.e == 0") .direct (.scanning []) = .ok w ∧
      ∃ s ∈ selectionsIn w.stmts, "e".toList ∉ s.bodyReads ∧ s.action.var = "e".toList := by
  constructor
  · have hlost : ((synthesize (decantContract "(\\exists k := range cups; k) && e") .direct
        (.scanning [])).toOption.any fun w => (selectionsIn w.stmts).any fun s =>
          s.bodyTexts.reverse.any (fun t => (namesIn t).contains "e".toList) && s.action.var == [])
        = true := by
      unfold decantContract
      repeat rw [String.toList_ofList]
      decide +kernel
    obtain ⟨w, h, hany⟩ := exists_eq_ok hlost
    obtain ⟨s, hs, hboth⟩ := List.any_eq_true.1 hany
    rw [Bool.and_eq_true, List.any_reverse, List.any_eq_true, beq_iff_eq] at hboth
    obtain ⟨⟨t, ht, hread⟩, hvar⟩ := hboth
    exact ⟨w, h, s, hs, List.mem_flatMap.2 ⟨t, ht, List.contains_iff_mem.1 hread⟩, hvar⟩
  · have hunread : ((synthesize (decantContract "j.e == 0") .direct (.scanning [])).toOption.any
        fun w => (selectionsIn w.stmts).any fun s =>
          !s.bodyReads.contains "e".toList && s.action.var == "e".toList) = true := by
      unfold decantContract
      repeat rw [String.toList_ofList]
      decide +kernel
    obtain ⟨w, h, hany⟩ := exists_eq_ok hunread
    obtain ⟨s, hs, hboth⟩ := List.any_eq_true.1 hany
    rw [Bool.and_eq_true, Bool.not_eq_true', beq_iff_eq] at hboth
    refine ⟨w, h, s, hs, fun hmem => ?_, hboth.2⟩
    rw [← List.contains_iff_mem, hboth.1] at hmem
    cases hmem

end ContractChecks
