import ContractChecks.Proofs.DirectiveCases
import ContractChecks.Proofs.FilledWords
import ContractChecks.Proofs.InheritedRenaming

/-!
# References to old state

Every old expression of a postcondition becomes a variable of its spec case, which is declared and
captured once there and nowhere else.  What is left of an expression refers to no other old state, and
of its keywords only the quantifiers are left, as long as the parts of the expression stand apart.

* `Contract.CapturedOnce`: a variable is declared and captured once, at one position of one case;
* `CasesOfSegments.capturedOnce`: the variables of old expressions are;
* `KeywordFree s`: no keyword is left in `s` that reading replaces;
* `TidyExpr`, `Declaration.Tidy`: expressions whose parts stand apart;
* `onlyQuantifiers_of_filled`, `old_of_filled`: the keywords and old-state names of what is read;
* `oldReferences_resolve`: the old-state names of a contract are all declared and captured.
-/

namespace ContractChecks

/-! ### captured once -/

/-- the statement assigns `e` to the variable `w`, under the precondition of its case or without -/
def Contract.AssignsIn (c : Contract) (i : Int) (stmt w e : Text) : Prop :=
  stmt = w ++ " = " ++ e ∨ ∃ pre, c.pre.get? i = some pre ∧ stmt = guardedBy pre (w ++ " = " ++ e)

/-- the old expression `e` of case `i` is captured in the variable `w`, which is declared and assigned
at the same position of this case and nowhere else -/
def Contract.CapturedOnce (c : Contract) (i : Int) (e w : Text) : Prop :=
  ∃ p : Nat, (∃ type : Text, (c.oldExprDecls.list i)[p]? = some ("var " ++ w ++ " " ++ type)) ∧
    (∃ stmt, (c.oldExprs.list i)[p]? = some stmt ∧ c.AssignsIn i stmt w e) ∧
    (∀ (j : Int) (q : Nat) d, (c.oldExprDecls.list j)[q]? = some d → declaredName d = w →
      j = i ∧ q = p) ∧
    ∀ (j : Int) (q : Nat) stmt e', (c.oldExprs.list j)[q]? = some stmt → c.AssignsIn j stmt w e' →
      j = i ∧ q = p

theorem oldName_injective : Function.Injective oldName := fun _ _ h =>
  ofNat_injective (List.append_cancel_left h)

theorem plainName_oldName (n : Nat) : PlainName (oldName n) := by
  have hstem : PlainName oldStem := plainName_of_decide (by decide)
  refine hstem.append ?_ fun c hc => .inr (isDigit_of_mem_ofNat hc)
  intro hvar
  cases (List.cons.inj hvar).1

/-- different old expressions have different variables -/
theorem tempOf_inj {occ : List (Int × Text)} {a b : Int × Text} (ha : a ∈ occ) :
    tempOf occ a = tempOf occ b ↔ a = b := by
  refine ⟨fun h => ?_, congrArg _⟩
  exact (List.idxOf_inj (List.mem_eraseDups.2 ha)).1 (oldName_injective h)

theorem nodup_oldsOf (occ : List (Int × Text)) (i : Int) : (oldsOf occ i).Nodup := by
  refine List.Nodup.map_on ?_ ((nodup_eraseDups occ).filter _)
  intro a ha b hb h
  have hi : ∀ {key : Int × Text}, key ∈ occ.eraseDups.filter (fun key => key.1 = i) → key.1 = i :=
    fun hkey => of_decide_eq_true (List.mem_filter.1 hkey).2
  exact Prod.ext ((hi ha).trans (hi hb).symm) h

theorem declaredName_var (n : Nat) (type : Text) :
    declaredName ("var " ++ oldName n ++ " " ++ type) = oldName n := by
  have hdeclares : Declares ("var " ++ oldName n ++ " " ++ type) (oldName n) :=
    ⟨plainName_oldName n, [], "var ", " " ++ type, by simp, by simp,
      fun c hc => by cases hc; decide, .inr ⟨[], rfl, by simp⟩⟩
  exact hdeclares.declaredName

theorem assignment_inj {n k : Nat} {x y : Text}
    (h : oldName n ++ " = " ++ x = oldName k ++ " = " ++ y) : oldName n = oldName k := by
  have hstart : ∀ (n : Nat) (x : Text),
      (oldName n ++ " = " ++ x).takeWhile isNamePart = oldName n := by
    intro n x
    rw [List.append_assoc]
    refine (takeWhile_name (isNamePart_of_isName (plainName_oldName n).name) ?_).1
    intro c hc
    cases hc
    decide
  rw [← hstart n x, h, hstart]

theorem guardedBy_ne_assignment (pre stmt : Text) (n : Nat) (x : Text) :
    guardedBy pre stmt ≠ oldName n ++ " = " ++ x := by
  intro h
  cases (List.cons.inj h).1

namespace CasesOfSegments

variable {sc : Scope} {ds : List Directive} {nss : List (List Text)} {c : Contract}

theorem exists_pre (h : CasesOfSegments sc ds nss c) {i : Int} {e : Text}
    (he : (i, e) ∈ numberedOlds nss) : ∃ pre, c.pre.get? i = some pre := by
  obtain ⟨j, hj, rfl⟩ := index_of_mem_numberedOlds he
  rw [length_of_mapM_eq_ok h.olds] at hj
  refine c.pre.mem_indices_iff.1 ?_
  rw [h.indices]
  exact List.mem_map.2 ⟨j, List.mem_range.2 hj, rfl⟩

theorem oldsOf_eq_nil (h : CasesOfSegments sc ds nss c) {i : Int} (hi : c.pre.get? i = none) :
    oldsOf (numberedOlds nss) i = [] := by
  refine List.eq_nil_iff_forall_not_mem.2 fun e he => ?_
  obtain ⟨pre, hsome⟩ := h.exists_pre (mem_oldsOf.1 he)
  rw [hi] at hsome
  cases hsome

/-- the declarations and captures of each case are those of its old expressions -/
theorem oldLists (h : CasesOfSegments sc ds nss c) (hclosed : c.Closed) (i : Int) :
    (oldsOf (numberedOlds nss) i).mapM (sc.oldDecl fun n => tempOf (numberedOlds nss) (i, n))
        = .ok (c.oldExprDecls.list i) ∧
      ∃ g : Text → Text, (∀ s, g s = s ∨ ∃ pre, c.pre.get? i = some pre ∧ g s = guardedBy pre s) ∧
        c.guardCaptures.oldExprs.list i = (oldsOf (numberedOlds nss) i).map fun e =>
          g (oldCapture (fun n => tempOf (numberedOlds nss) (i, n)) e) := by
  cases hpre : c.pre.get? i with
  | some pre =>
    obtain ⟨j, seg, -, -, hread⟩ := h.caseAt_eq hpre
    obtain ⟨ks, decls, -, hdecls, hcase⟩ := Scope.readCase_eq_ok hread
    have hd : c.oldExprDecls.get? i = listed decls := congrArg SpecCase.oldExprDecls hcase
    have hx : c.oldExprs.get? i = listed _ := congrArg SpecCase.oldExprs hcase
    rw [(c.list_guardCaptures hpre).1, CaseTable.list, CaseTable.list, hd, hx, getD_listed,
      getD_listed]
    refine ⟨hdecls, fun s => if c.GuardsCase i then guardedBy pre s else s, fun s => ?_, ?_⟩
    · by_cases hguard : c.GuardsCase i
      · exact .inr ⟨pre, rfl, if_pos hguard⟩
      · exact .inl (if_neg hguard)
    · rw [List.map_map]
      rfl
  | none =>
    -- nothing is stored for an index without a precondition
    have hempty : ∀ {t : CaseTable (List Text)}, (∀ j ∈ t.indices, j ∈ c.pre.indices) →
        t.list i = [] := by
      intro t ht
      have hnone : t.get? i = none := CaseTable.get?_eq_none_iff.2 fun hmem =>
        CaseTable.get?_eq_none_iff.1 hpre (ht i hmem)
      rw [CaseTable.list, hnone]
      rfl
    have hguarded := hclosed.guardCaptures.oldExprs
    rw [Contract.pre_guardCaptures] at hguarded
    rw [h.oldsOf_eq_nil hpre, hempty hclosed.oldExprDecls, hempty hguarded]
    exact ⟨rfl, id, fun s => .inl rfl, rfl⟩

theorem capturedOnce (h : CasesOfSegments sc ds nss c) (hclosed : c.Closed) {i : Int} {e : Text}
    (he : (i, e) ∈ numberedOlds nss) :
    c.guardCaptures.CapturedOnce i e (tempOf (numberedOlds nss) (i, e)) := by
  obtain ⟨p, hp⟩ := List.mem_iff_getElem?.1 (mem_oldsOf.2 he)
  -- two positions with the same variable are the same
  have hsame : ∀ {j : Int} {q : Nat} {n : Text}, (oldsOf (numberedOlds nss) j)[q]? = some n →
      tempOf (numberedOlds nss) (i, e) = tempOf (numberedOlds nss) (j, n) → j = i ∧ q = p := by
    intro j q n hq htemp
    cases (tempOf_inj he).1 htemp
    have hlt := (List.getElem?_eq_some_iff.1 hq).1
    exact ⟨rfl, (List.getElem?_inj hlt (nodup_oldsOf _ i)).1 (hq.trans hp.symm)⟩
  have hdecls : c.guardCaptures.oldExprDecls = c.oldExprDecls := by rw [c.guardCaptures_eq]
  unfold Contract.CapturedOnce Contract.AssignsIn
  rw [hdecls, Contract.pre_guardCaptures]
  refine ⟨p, ?_, ?_, ?_, ?_⟩
  · obtain ⟨d, hd, hdecl⟩ := mapM_getElem? (h.oldLists hclosed i).1 hp
    obtain ⟨type, -, hpure⟩ := except_bind_eq_ok hdecl
    cases hpure
    exact ⟨type, hd⟩
  · obtain ⟨-, g, hg, hlist⟩ := h.oldLists hclosed i
    refine ⟨_, by rw [hlist, List.getElem?_map, hp]; rfl, ?_⟩
    rcases hg (oldCapture (fun n => tempOf (numberedOlds nss) (i, n)) e) with hg | ⟨pre, hpre, hg⟩
    · exact .inl hg
    · exact .inr ⟨pre, hpre, hg⟩
  · intro j q d hd hname
    obtain ⟨n, hq, hdecl⟩ := mapM_getElem?_inv (h.oldLists hclosed j).1 hd
    obtain ⟨type, -, hpure⟩ := except_bind_eq_ok hdecl
    cases hpure
    refine hsame hq ?_
    rw [← hname]
    exact declaredName_var _ type
  · intro j q stmt e' hstmt hassigns
    obtain ⟨-, g, hg, hlist⟩ := h.oldLists hclosed j
    rw [hlist, List.getElem?_map] at hstmt
    obtain ⟨n, hq, rfl⟩ := Option.map_eq_some_iff.1 hstmt
    refine hsame hq ?_
    -- a guard is the same for all captures of a case
    rcases hg (oldCapture (fun n => tempOf (numberedOlds nss) (j, n)) n) with
      hplain | ⟨pre, hpre, hguard⟩
    · rcases hassigns with hassigns | ⟨pre', -, hassigns⟩
      · exact assignment_inj (hassigns.symm.trans hplain)
      · exact absurd (hassigns.symm.trans hplain) (guardedBy_ne_assignment _ _ _ _)
    · rcases hassigns with hassigns | ⟨pre', hpre', hassigns⟩
      · exact absurd (hguard.symm.trans hassigns) (guardedBy_ne_assignment _ _ _ _)
      · cases Option.some.inj (hpre.symm.trans hpre')
        have hguarded := hassigns.symm.trans hguard
        unfold guardedBy at hguarded
        exact assignment_inj (List.append_cancel_left (List.append_cancel_right hguarded))

end CasesOfSegments

/-! ### what is left of an expression -/

/-- every keyword is a quantifier -/
def OnlyQuantifiers (s : Text) : Prop :=
  ∀ w ∈ words s, isName w = true ∨ ∃ k : QuantifierKind, w = k.keyword

/-- no keyword is left that reading replaces -/
def KeywordFree (s : Text) : Prop := ∀ k ∈ [oldKeyword, resultKeyword, thisKeyword], k ∉ words s

theorem OnlyQuantifiers.keywordFree {s : Text} (h : OnlyQuantifiers s) : KeywordFree s := by
  intro k hk hmem
  have hnone : ∀ k ∈ [oldKeyword, resultKeyword, thisKeyword],
      isName k = false ∧ ∀ q : QuantifierKind, k ≠ q.keyword := by
    intro k hk
    rcases List.mem_cons.1 hk with rfl | hk
    · exact ⟨by decide, fun q => by cases q <;> decide⟩
    rcases List.mem_cons.1 hk with rfl | hk
    · exact ⟨by decide, fun q => by cases q <;> decide⟩
    · rw [List.mem_singleton.1 hk]
      exact ⟨by decide, fun q => by cases q <;> decide⟩
  obtain ⟨hname, hquantifier⟩ := hnone k hk
  rcases h k hmem with h | ⟨q, h⟩
  · rw [hname] at h
    cases h
  · exact hquantifier q h

theorem eq_of_padded {u v w x : Text} (hx : ∀ c ∈ x, isBlank c = false)
    (hblank : ∀ c ∈ u ++ v, isBlank c = true) (h : u ++ (w ++ v) = x) : u = [] ∧ w = x := by
  have hnil : ∀ {y : Text}, (∀ c ∈ y, c ∈ u ++ v ∧ c ∈ x) → y = [] := by
    intro y hy
    refine List.eq_nil_iff_forall_not_mem.2 fun c hc => ?_
    have hboth := hx c (hy c hc).2
    rw [hblank c (hy c hc).1] at hboth
    cases hboth
  have hu : u = [] := hnil fun c hc => ⟨List.mem_append_left _ hc, h ▸ List.mem_append_left _ hc⟩
  have hv : v = [] := hnil fun c hc => ⟨List.mem_append_right _ hc,
    h ▸ List.mem_append_right _ (List.mem_append_right _ hc)⟩
  rw [hu, hv, List.append_nil, List.nil_append] at h
  exact ⟨hu, h⟩

theorem isBlank_keyword (k : QuantifierKind) : ∀ c ∈ k.keyword, isBlank c = false := by
  have hall : k.keyword.all (fun c => !isBlank c) = true := by cases k <;> decide
  intro c hc
  simpa using List.all_eq_true.1 hall c hc

/-- dropping blanks makes no keyword out of a quantifier or a name -/
theorem OnlyQuantifiers.of_padded {s t : Text} (hs : OnlyQuantifiers s)
    (h : ∀ w ∈ words t, Padded w s) : OnlyQuantifiers t := by
  intro w hw
  obtain ⟨u, v, hblank, hmem⟩ := h w hw
  rcases mem_words_cases hw with hname | ⟨n, rfl, -⟩
  · exact .inl hname
  right
  rcases hs _ hmem with hname | ⟨k, hk⟩
  · have hslash := isNamePart_of_isName hname '\\' (by simp)
    exact absurd hslash (by decide)
  · exact ⟨k, (eq_of_padded (isBlank_keyword k) hblank hk).2⟩

/-- the name refers to old state, once blanks before it are dropped -/
def BeginsOld (n : Text) : Prop := oldStem <+: Text.trimStart n

instance (n : Text) : Decidable (BeginsOld n) := inferInstanceAs (Decidable (_ <+: _))

theorem beginsOld_of_padded {u v w : Text} (hu : ∀ c ∈ u, isBlank c = true) (hw : oldStem <+: w) :
    BeginsOld (u ++ (w ++ v)) := by
  obtain ⟨rest, rfl⟩ := hw
  rw [BeginsOld, Text.trimStart, List.dropWhile_append_of_pos hu]
  exact ⟨rest ++ v, by rw [← List.append_assoc]; rfl⟩

/-- an expression whose keywords stand apart from what is before them, whose old expressions stand
apart from `bad` parts after them, and which has no name that refers to old state -/
structure TidyExpr (bad : ExprPart → Bool) (s : Text) : Prop where
  keywords : KeywordsApart s
  olds : OldsApart bad s
  names : ∀ w ∈ words s, ¬BeginsOld w

instance (bad : ExprPart → Bool) (s : Text) : Decidable (TidyExpr bad s) :=
  decidable_of_iff (KeywordsApart s ∧ OldsApart bad s ∧ ∀ w ∈ words s, ¬BeginsOld w)
    ⟨fun h => ⟨h.1, h.2.1, h.2.2⟩, fun h => ⟨h.keywords, h.olds, h.names⟩⟩

/-- the names that stand for keywords are names that do not refer to old state -/
structure Scope.Tidy (sc : Scope) : Prop extends sc.Named where
  this_new : ¬BeginsOld sc.this
  result_new : ¬BeginsOld sc.result

/-- the variables that are put in for old expressions are numbered -/
def NamesOlds (temp : Text → Text) : Prop := ∀ e, ∃ n, temp e = oldName n

theorem NamesOlds.isName {temp : Text → Text} (h : NamesOlds temp) (e : Text) :
    isName (temp e) = true := by
  obtain ⟨n, hn⟩ := h e
  rw [hn]
  exact (plainName_oldName n).name

section
variable {sc : Scope} {temp : Text → Text} {s t w : Text}

theorem FilledWord.word (hsc : sc.Named) (htemp : NamesOlds temp) (h : FilledWord sc temp s w) :
    isName w = true ∨ ∃ k : QuantifierKind, w = k.keyword := by
  cases h with
  | name h => exact .inl (isName_of_mem_lexemes h)
  | quantifier k => exact .inr ⟨k, rfl⟩
  | this => exact .inl hsc.this
  | result h => exact .inl (hsc.result h)
  | old h he => exact .inl (htemp.isName _)

theorem onlyQuantifiers_of_filled (hsc : sc.Named) (htemp : NamesOlds temp)
    (hs : TidyExpr ExprPart.joinsOld s) (h : sc.filled temp s = .ok t) : OnlyQuantifiers t := by
  obtain ⟨us, hus, hpure⟩ := except_bind_eq_ok h
  cases hpure
  have hwords := filledWord_of_mem hsc htemp.isName hs.keywords hs.olds hus
  have honly : OnlyQuantifiers (Text.concat us) := fun w hw => (hwords w hw).word hsc htemp
  exact honly.of_padded fun w hw => padded_of_mem_trim hw

/-- what refers to old state is the variable of an old expression -/
theorem old_of_filled (hsc : sc.Tidy) (htemp : NamesOlds temp)
    (hs : TidyExpr ExprPart.joinsOld s) (h : sc.filled temp s = .ok t) (hw : w ∈ words t)
    (hold : oldStem <+: w) :
    ∃ inner ∈ oldArguments s, ∃ e, sc.oldExpr inner = .ok e ∧ w = temp e := by
  obtain ⟨us, hus, hpure⟩ := except_bind_eq_ok h
  cases hpure
  obtain ⟨u, v, hblank, hmem⟩ := padded_of_mem_trim hw
  have hbegins := beginsOld_of_padded (v := v) (fun c hc => hblank c (List.mem_append_left v hc)) hold
  have hword := filledWord_of_mem hsc.toNamed htemp.isName hs.keywords hs.olds hus _ hmem
  -- trimming can uncover the name of an old variable only where blanks stood before it
  generalize hx : u ++ (w ++ v) = x at hbegins hword
  cases hword with
  | name h => exact absurd hbegins (hs.names _ (List.mem_filterMap.2 ⟨_, h, rfl⟩))
  | quantifier k => exact absurd hbegins (by cases k <;> decide)
  | this => exact absurd hbegins hsc.this_new
  | result h => exact absurd hbegins hsc.result_new
  | @old inner e h he =>
    obtain ⟨n, hn⟩ := htemp e
    rw [hn] at hx
    refine ⟨inner, h, e, he, ?_⟩
    rw [hn]
    exact (eq_of_padded (plainName_oldName n).solid hblank hx).2

end

/-! ### the texts of a spec case -/

/-- the words of a conjunction are those of its parts, if no part but the last leaves a literal open -/
theorem mem_words_conjunction {ps : List Text} (h : ∀ p ∈ ps.dropLast, LiteralsClosed p) {w : Text}
    (hw : w ∈ words (conjunction ps)) : w ∈ words "true" ∨ ∃ p ∈ ps, w ∈ words p := by
  have hparens : ∀ p : Text, words ("(" ++ p ++ ")") = words p := by
    intro p
    show words (['('] ++ p ++ [')']) = words p
    rw [words_append_mark _ (by decide), words_marks_append (List.all_eq_true.1 (by decide))]
  have hjoin : ∀ ps : List Text, (∀ p ∈ ps.dropLast, LiteralsClosed p) →
      ∀ w ∈ words (Text.join " && " (ps.map fun p => "(" ++ p ++ ")")), ∃ p ∈ ps, w ∈ words p := by
    intro ps
    induction ps with
    | nil =>
      intro _ w hw
      change w ∈ words [] at hw
      rw [words_nil] at hw
      cases hw
    | cons p ps ih =>
      intro h w hw
      cases ps with
      | nil =>
        rw [List.map_singleton, Text.join_singleton, hparens] at hw
        exact ⟨p, List.mem_cons_self, hw⟩
      | cons q ps =>
        rw [List.dropLast_cons_cons, List.forall_mem_cons] at h
        have hmarks : ∀ d ∈ (" && " : Text), isMark d = true := List.all_eq_true.1 (by decide)
        have hclosed : LiteralsClosed ("(" ++ p ++ ")") :=
          ((literalsClosed_of_isMark (List.all_eq_true.1 (by decide))).append h.1).append
            (literalsClosed_of_isMark (List.all_eq_true.1 (by decide)))
        rw [List.map_cons, List.map_cons, Text.join_cons_cons,
          words_append hclosed (startsFresh_marks (by decide) hmarks _), hparens,
          words_marks_append hmarks] at hw
        rcases List.mem_append.1 hw with hw | hw
        · exact ⟨p, List.mem_cons_self, hw⟩
        · obtain ⟨r, hr, hw⟩ := ih h.2 w hw
          exact ⟨r, List.mem_cons_of_mem p hr, hw⟩
  match ps with
  | [] => exact .inl hw
  | [p] => exact .inr ⟨p, List.mem_cons_self, hw⟩
  | p :: q :: ps => exact .inr (hjoin (p :: q :: ps) h w hw)

namespace CasesOfSegments

variable {sc : Scope} {ds : List Directive} {nss : List (List Text)} {c : Contract}

/-- the texts of a spec case, as they are read from the directives of its segment -/
theorem caseTexts (h : CasesOfSegments sc ds nss c) {i : Int} {pre : Text}
    (hi : c.pre.get? i = some pre) :
    ∃ seg ∈ caseSegments ds, ∃ requires ensures signals,
      (textsOf .requires seg).mapM sc.preText = .ok requires ∧
      (textsOf .ensures seg).mapM (sc.filled fun n => tempOf (numberedOlds nss) (i, n)) = .ok ensures ∧
      (textsOf .signals seg).mapM (sc.signalsOf fun n => tempOf (numberedOlds nss) (i, n))
        = .ok signals ∧
      pre = conjunction requires ∧ c.post.get? i = (listed ensures).map conjunction ∧
      c.xpost.get? i = listed signals ∧
      ∀ dir ∈ seg, ∃ ns, sc.directiveOlds dir = .ok ns ∧ ∀ e ∈ ns, (i, e) ∈ numberedOlds nss := by
  obtain ⟨j, seg, rfl, hseg, hread⟩ := h.caseAt_eq hi
  obtain ⟨ks, decls, hks, -, hcase⟩ := Scope.readCase_eq_ok hread
  have hread := Scope.readAs_mapM hks
  refine ⟨seg, List.mem_of_getElem? hseg, _, _, _, hread.requires, hread.ensures, hread.signals,
    congrArg SpecCase.pre hcase,
    congrArg SpecCase.post hcase, congrArg SpecCase.signals hcase, fun dir hdir => ?_⟩
  obtain ⟨ns, hns, hsegment⟩ := mapM_getElem? h.olds hseg
  obtain ⟨mss, hmss, hpure⟩ := except_bind_eq_ok hsegment
  cases hpure
  obtain ⟨ms, hms, holds⟩ := mem_of_mapM hmss hdir
  refine ⟨ms, holds, fun e he => ?_⟩
  refine List.mem_flatMap.2 ⟨(mss.flatten, j), List.mem_zipIdx_iff_getElem?.2 hns, ?_⟩
  exact List.mem_map.2 ⟨e, List.mem_flatten.2 ⟨ms, hms, he⟩, rfl⟩

theorem exists_directive (h : CasesOfSegments sc ds nss c) {e : Int × Text}
    (he : e ∈ numberedOlds nss) : ∃ dir ∈ ds, ∃ ns, sc.directiveOlds dir = .ok ns ∧ e.2 ∈ ns := by
  obtain ⟨⟨ns, j⟩, hp, hn⟩ := List.mem_flatMap.1 he
  obtain ⟨n, hmem, rfl⟩ := List.mem_map.1 hn
  have hns : ns ∈ nss := List.mem_of_getElem? (List.mem_zipIdx_iff_getElem?.1 hp)
  obtain ⟨seg, hseg, hread⟩ := exists_mem_of_mapM h.olds hns
  obtain ⟨mss, hmss, hpure⟩ := except_bind_eq_ok hread
  cases hpure
  obtain ⟨ms, hms, hmem⟩ := List.mem_flatten.1 hmem
  obtain ⟨dir, hdir, holds⟩ := exists_mem_of_mapM hmss hms
  exact ⟨dir, subset_of_mem_caseSegments hseg hdir, ms, holds, hmem⟩

end CasesOfSegments

/-! ### tidy declarations -/

/-- the expression of a directive: its text, or what follows the equals sign or the parentheses -/
def Directive.expression? (dir : Directive) : Option Text :=
  match dir.kind with
  | .requires | .ensures => some dir.text
  | .signals => (Signals.parse dir.text).toOption.map Signals.pred
  | .old => (OldForm.parse dir.text).toOption.map OldForm.expr
  | .let => (LetForm.parse dir.text).toOption.map LetForm.expr
  | .also | .constructor | .crosscut | .visibility => none

/-- the text `t` is `e` without blanks and parentheses around it -/
def Strips (e t : Text) : Prop :=
  ∃ u v, e = u ++ (t ++ v) ∧ (∀ c ∈ u, isBlank c = true ∨ c = '(') ∧
    ∀ c ∈ v, isBlank c = true ∨ c = ')'

def stripsCheck (e t : Text) : Bool :=
  (List.range (e.length + 1)).any fun k => e = e.take k ++ (t ++ e.drop (k + t.length)) &&
    (e.take k).all (fun c => isBlank c || c = '(') &&
    (e.drop (k + t.length)).all fun c => isBlank c || c = ')'

theorem stripsCheck_iff {e t : Text} : stripsCheck e t = true ↔ Strips e t := by
  simp only [stripsCheck, List.any_eq_true, List.mem_range, Bool.and_eq_true, decide_eq_true_eq,
    List.all_eq_true, Bool.or_eq_true]
  constructor
  · rintro ⟨k, -, ⟨heq, hu⟩, hv⟩
    exact ⟨_, _, heq, hu, hv⟩
  · rintro ⟨u, v, rfl, hu, hv⟩
    have hdrop : (u ++ (t ++ v)).drop (u.length + t.length) = v := by
      rw [← List.append_assoc, ← List.length_append, List.drop_left]
    have hlt : u.length < (u ++ (t ++ v)).length + 1 := by
      rw [List.length_append]
      omega
    refine ⟨u.length, hlt, ?_⟩
    rw [hdrop, List.take_left]
    exact ⟨⟨rfl, hu⟩, hv⟩

instance (e t : Text) : Decidable (Strips e t) := decidable_of_iff _ stripsCheck_iff

/-- a declaration whose expressions are tidy, whose receiver does not refer to old state, and whose old
expressions are captured without the blanks and parentheses around them -/
structure Declaration.Tidy (bad : ExprPart → Bool) (d : Declaration) (m : Method) : Prop where
  receiver : m.receiver = [] ∨ (isName m.receiver = true ∧ ¬BeginsOld m.receiver)
  exprs : ∀ dir ∈ d.directives, ∀ s ∈ dir.expression?, TidyExpr bad s
  olds : ∀ dir ∈ d.directives, ∀ s ∈ dir.expression?, ∀ inner ∈ oldArguments s,
    ∀ e ∈ ((d.scope m).preText inner).toOption, Strips e (d.eval.core e)

instance (bad : ExprPart → Bool) (d : Declaration) (m : Method) : Decidable (d.Tidy bad m) :=
  decidable_of_iff ((m.receiver = [] ∨ (isName m.receiver = true ∧ ¬BeginsOld m.receiver)) ∧
      (∀ dir ∈ d.directives, ∀ s ∈ dir.expression?, TidyExpr bad s) ∧
      ∀ dir ∈ d.directives, ∀ s ∈ dir.expression?, ∀ inner ∈ oldArguments s,
        ∀ e ∈ ((d.scope m).preText inner).toOption, Strips e (d.eval.core e))
    ⟨fun h => ⟨h.1, h.2.1, h.2.2⟩, fun h => ⟨h.receiver, h.exprs, h.olds⟩⟩

/-- no clause of a case but the last of its kind leaves a literal open -/
def Declaration.ClosesLiterals (d : Declaration) : Prop :=
  ∀ seg ∈ caseSegments d.directives, ∀ kind ∈ [DirectiveKind.requires, .ensures],
    ∀ s ∈ (textsOf kind seg).dropLast, LiteralsClosed s

instance (d : Declaration) : Decidable d.ClosesLiterals :=
  inferInstanceAs (Decidable (∀ seg ∈ caseSegments d.directives,
    ∀ kind ∈ [DirectiveKind.requires, .ensures],
      ∀ s ∈ (textsOf kind seg).dropLast, LiteralsClosed s))

theorem Padded.strips {w e t : Text} (h : Strips e t) (hw : Padded w t) : Padded w e := by
  obtain ⟨u, v, rfl, hu, hv⟩ := h
  -- a parenthesis is a mark and changes no word
  have hafter : Padded w (t ++ v) := by
    induction v using List.reverseRecOn with
    | nil => rwa [List.append_nil]
    | append_singleton v c ih =>
      have hrest := ih fun d hd => hv d (List.mem_append_left _ hd)
      rw [← List.append_assoc]
      rcases hv c (List.mem_append_right _ List.mem_cons_self) with hblank | rfl
      · exact hrest.append_blank hblank
      · obtain ⟨x, y, hblank, hmem⟩ := hrest
        exact ⟨x, y, hblank, by rw [words_append_mark _ (by decide)]; exact hmem⟩
  induction u with
  | nil => exact hafter
  | cons c u ih =>
    rw [List.forall_mem_cons] at hu
    rcases hu.1 with hblank | rfl
    · exact (ih hu.2).cons_blank hblank
    · obtain ⟨x, y, hblank, hmem⟩ := ih hu.2
      refine ⟨x, y, hblank, ?_⟩
      show _ ∈ words (['('] ++ (u ++ (t ++ v)))
      rw [words_marks_append (List.all_eq_true.1 (by decide))]
      exact hmem

theorem oldsApart_of_nil (bad : ExprPart → Bool) {s : Text} (h : oldArguments s = []) :
    OldsApart bad s := by
  unfold OldsApart
  unfold oldArguments at h
  generalize exprParts s = parts at h ⊢
  induction parts with
  | nil => exact List.isChain_nil
  | cons p ps ih =>
    cases hp : p.inner? with
    | some inner =>
      rw [List.filterMap_cons, hp] at h
      cases h
    | none =>
      rw [List.filterMap_cons, hp] at h
      refine List.isChain_cons.2 ⟨fun q _ hold => ?_, ih h⟩
      rw [hp] at hold
      cases hold

theorem Scope.directiveOlds_cases {sc : Scope} {dir : Directive} {ns : List Text}
    (h : sc.directiveOlds dir = .ok ns) :
    (∃ s, dir.expression? = some s ∧ sc.oldExprsIn s = .ok ns) ∨
      (dir.kind ≠ .ensures ∧ dir.kind ≠ .signals ∧ ns = []) := by
  unfold Scope.directiveOlds at h
  unfold Directive.expression?
  cases hk : dir.kind <;> rw [hk] at h
  case ensures => exact .inl ⟨dir.text, rfl, h⟩
  case signals =>
    obtain ⟨s, hs, hns⟩ := except_bind_eq_ok h
    refine .inl ⟨s.pred, ?_, hns⟩
    show (Signals.parse dir.text).toOption.map Signals.pred = _
    rw [hs]
    rfl
  all_goals
    cases h
    exact .inr ⟨by decide, by decide, rfl⟩

namespace Declaration.Tidy

variable {d : Declaration} {m : Method}

theorem scope {bad : ExprPart → Bool} (h : d.Tidy bad m) : (d.scope m).Tidy := by
  have hthis : isName m.receiverName = true ∧ ¬BeginsOld m.receiverName := by
    unfold Method.receiverName
    split
    · decide
    case isFalse hne => exact h.receiver.resolve_left hne
  have hresult : (m.resultName ≠ [] → isName m.resultName = true) ∧ ¬BeginsOld m.resultName := by
    unfold Method.resultName
    split
    · decide
    split <;> decide
  exact { this := hthis.1, result := hresult.1, this_new := hthis.2, result_new := hresult.2 }

theorem argument (h : d.Tidy ExprPart.joinsOld m) {dir : Directive} (hdir : dir ∈ d.directives)
    {s inner e : Text} (hs : dir.expression? = some s) (hinner : inner ∈ oldArguments s)
    (he : (d.scope m).preText inner = .ok e) : TidyExpr ExprPart.joinsOld inner := by
  have hexpr := h.exprs dir hdir s hs
  have hlexemes := lexemes_infix_of_mem_oldArguments hinner
  exact {
    keywords := hexpr.keywords.infix hlexemes
    olds := oldsApart_of_nil _ (filled_of_preText he id).1
    names := fun w hw => hexpr.names w (hlexemes.filterMap _ |>.subset hw) }

/-- of the keywords of an expression of the state before the call only quantifiers are left -/
theorem onlyQuantifiers_preText (h : d.Tidy ExprPart.joinsOld m) {s t : Text}
    (hs : TidyExpr ExprPart.joinsOld s) (ht : (d.scope m).preText s = .ok t) : OnlyQuantifiers t := by
  have hnames : NamesOlds fun _ => oldName 0 := fun _ => ⟨0, rfl⟩
  exact onlyQuantifiers_of_filled h.scope.toNamed hnames hs (filled_of_preText ht _).2

theorem onlyQuantifiers_old (h : d.Tidy ExprPart.joinsOld m) {dir : Directive}
    (hdir : dir ∈ d.directives) {ns : List Text} (hns : (d.scope m).directiveOlds dir = .ok ns)
    {e : Text} (he : e ∈ ns) : OnlyQuantifiers e := by
  rcases Scope.directiveOlds_cases hns with ⟨s, hs, hold⟩ | ⟨-, -, rfl⟩
  · obtain ⟨inner, hinner, hexpr⟩ := exists_mem_of_mapM hold he
    obtain ⟨x, hx, hread⟩ := except_bind_eq_ok hexpr
    obtain ⟨-, -, hpure⟩ := except_bind_eq_ok hread
    cases hpure
    have honly := h.onlyQuantifiers_preText (h.argument hdir hs hinner hx) hx
    -- the argument is captured without the blanks and parentheses around it, which are no words
    have hstrips := h.olds dir hdir s hs inner hinner x (by rw [hx]; rfl)
    exact honly.of_padded fun w hw => (padded_of_mem hw).strips hstrips
  · cases he

end Declaration.Tidy

/-! ### the texts of a contract -/

/-- a word of what is read for case `i`: a name or a quantifier, and if it refers to old state, the
variable of an old expression of this case -/
def ResolvedWord (occ : List (Int × Text)) (i : Int) (w : Text) : Prop :=
  (isName w = true ∨ ∃ k : QuantifierKind, w = k.keyword) ∧
    (oldStem <+: w → ∃ e, (i, e) ∈ occ ∧ w = tempOf occ (i, e))

theorem forall_words_conjunction {p : Text → Prop} {ps : List Text} (htrue : p "true")
    (hclosed : ∀ s ∈ ps.dropLast, LiteralsClosed s) (h : ∀ s ∈ ps, ∀ w ∈ words s, p w) :
    ∀ w ∈ words (conjunction ps), p w := by
  intro w hw
  have hwords : words "true" = (["true"] : List Text) := by decide +kernel
  rcases mem_words_conjunction hclosed hw with hw | ⟨s, hs, hw⟩
  · rw [hwords, List.mem_singleton] at hw
    rw [hw]
    exact htrue
  · exact h s hs w hw

theorem literalsClosed_dropLast {f : Text → Except DirectiveFault Text} {ss ts : List Text}
    (hf : ∀ s t, LiteralsClosed s → f s = .ok t → LiteralsClosed t) (h : ss.mapM f = .ok ts)
    (hss : ∀ s ∈ ss.dropLast, LiteralsClosed s) : ∀ t ∈ ts.dropLast, LiteralsClosed t := by
  intro t ht
  obtain ⟨s, hs, hst⟩ := exists_mem_of_mapM (mapM_dropLast h) ht
  exact hf s t (hss s hs) hst

theorem Scope.Named.literalsClosed {sc : Scope} {temp : Text → Text} {s t : Text} (hsc : sc.Named)
    (htemp : NamesOlds temp) (hs : LiteralsClosed s) (h : sc.filled temp s = .ok t) :
    LiteralsClosed t := by
  obtain ⟨us, hus, hpure⟩ := except_bind_eq_ok h
  cases hpure
  exact (literalsClosed_filled hsc htemp.isName hs hus).trim

theorem isName_of_letForm {text : Text} {f : LetForm} (h : LetForm.parse text = .ok f) :
    isName f.name = true := by
  simp only [LetForm.parse] at h
  split at h
  · cases h
  case isFalse hshape =>
    cases h
    simpa using (not_or.1 (mt (Bool.or_eq_true_iff.2) hshape)).2

namespace Declaration.Tidy

variable {d : Declaration} {m : Method} {nss : List (List Text)} {c : Contract}

/-- the words of what is read from an expression of case `i` -/
theorem resolvedWord (h : d.Tidy ExprPart.joinsOld m) {i : Int} {dir : Directive}
    (hdir : dir ∈ d.directives) {s t : Text} (hs : dir.expression? = some s) {ns : List Text}
    (hns : (d.scope m).oldExprsIn s = .ok ns) (hmem : ∀ e ∈ ns, (i, e) ∈ numberedOlds nss)
    (ht : (d.scope m).filled (fun n => tempOf (numberedOlds nss) (i, n)) s = .ok t) :
    ∀ w ∈ words t, ResolvedWord (numberedOlds nss) i w := by
  intro w hw
  have htemp : NamesOlds fun n => tempOf (numberedOlds nss) (i, n) := fun e => ⟨_, rfl⟩
  have hexpr := h.exprs dir hdir s hs
  refine ⟨onlyQuantifiers_of_filled h.scope.toNamed htemp hexpr ht w hw, fun hold => ?_⟩
  obtain ⟨inner, hinner, e, he, rfl⟩ := old_of_filled h.scope htemp hexpr ht hw hold
  obtain ⟨e', hmem', he'⟩ := mem_of_mapM hns hinner
  cases he.symm.trans he'
  exact ⟨e, hmem e hmem', rfl⟩

theorem onlyQuantifiers_pre (h : d.Tidy ExprPart.joinsOld m) (hclosed : d.ClosesLiterals)
    (hcases : CasesOfSegments (d.scope m) d.directives nss c) {i : Int} {pre : Text}
    (hi : c.pre.get? i = some pre) : OnlyQuantifiers pre := by
  obtain ⟨seg, hseg, requires, ensures, signals, hreq, -, -, rfl, -⟩ := hcases.caseTexts hi
  have hnames : NamesOlds fun _ => oldName 0 := fun _ => ⟨0, rfl⟩
  refine forall_words_conjunction (.inl (by decide)) ?_ fun t ht => ?_
  · refine literalsClosed_dropLast (fun s t hs hst => ?_) hreq
      (hclosed seg hseg .requires List.mem_cons_self)
    exact h.scope.toNamed.literalsClosed hnames hs (filled_of_preText hst _).2
  · obtain ⟨s, hs, hst⟩ := exists_mem_of_mapM hreq ht
    obtain ⟨dir, hdir, hkind, rfl⟩ := exists_of_mem_textsOf hs
    refine h.onlyQuantifiers_preText ?_ hst
    refine h.exprs dir (subset_of_mem_caseSegments hseg hdir) dir.text ?_
    rw [Directive.expression?, hkind]
    rfl

theorem resolvedWord_normal (h : d.Tidy ExprPart.joinsOld m) (hclosed : d.ClosesLiterals)
    (hcases : CasesOfSegments (d.scope m) d.directives nss c) {i : Int} {pre t : Text}
    (hi : c.pre.get? i = some pre) (ht : c.post.get? i = some t) :
    ∀ w ∈ words t, ResolvedWord (numberedOlds nss) i w := by
  have hnames : NamesOlds fun n => tempOf (numberedOlds nss) (i, n) := fun e => ⟨_, rfl⟩
  obtain ⟨seg, hseg, -, ensures, -, -, hens, -, -, hpost, -, holds⟩ := hcases.caseTexts hi
  obtain ⟨l, hl, rfl⟩ := Option.map_eq_some_iff.1 (hpost.symm.trans ht)
  obtain rfl := eq_of_listed hl
  -- the clauses are read one by one, so a literal left open by one would end in the next
  have htrue : ResolvedWord (numberedOlds nss) i "true" :=
    ⟨.inl (by decide), fun hold => absurd hold (by decide)⟩
  refine forall_words_conjunction htrue ?_ fun u hu => ?_
  · exact literalsClosed_dropLast (fun s t hs hst => h.scope.toNamed.literalsClosed hnames hs hst)
      hens (hclosed seg hseg .ensures (List.mem_cons_of_mem _ List.mem_cons_self))
  · obtain ⟨s, hs, hsu⟩ := exists_mem_of_mapM hens hu
    obtain ⟨dir, hdir, hkind, rfl⟩ := exists_of_mem_textsOf hs
    obtain ⟨ns, hns, hmem⟩ := holds dir hdir
    have hexpr : dir.expression? = some dir.text := by rw [Directive.expression?, hkind]
    rw [Scope.directiveOlds, hkind] at hns
    exact h.resolvedWord (subset_of_mem_caseSegments hseg hdir) hexpr hns hmem hsu

theorem resolvedWord_exceptional (h : d.Tidy ExprPart.joinsOld m)
    (hcases : CasesOfSegments (d.scope m) d.directives nss c) {i : Int} {pre : Text}
    (hi : c.pre.get? i = some pre) {sigs : List Signals} (ht : c.xpost.get? i = some sigs)
    {sig : Signals} (hsig : sig ∈ sigs) :
    ∀ w ∈ words sig.pred, ResolvedWord (numberedOlds nss) i w := by
  obtain ⟨seg, hseg, -, -, signals, -, -, hsignals, -, -, hxpost, holds⟩ := hcases.caseTexts hi
  obtain rfl := eq_of_listed (hxpost.symm.trans ht)
  obtain ⟨s, hs, hread⟩ := exists_mem_of_mapM hsignals hsig
  obtain ⟨dir, hdir, hkind, rfl⟩ := exists_of_mem_textsOf hs
  obtain ⟨form, hform, hread⟩ := except_bind_eq_ok hread
  obtain ⟨pred, hpred, hpure⟩ := except_bind_eq_ok hread
  cases hpure
  obtain ⟨ns, hns, hmem⟩ := holds dir hdir
  have hexpr : dir.expression? = some form.pred := by
    rw [Directive.expression?, hkind, hform]
    rfl
  rw [Scope.directiveOlds, hkind, hform] at hns
  exact h.resolvedWord (subset_of_mem_caseSegments hseg hdir) hexpr hns hmem hpred

theorem resolvedWord_post (h : d.Tidy ExprPart.joinsOld m) (hclosed : d.ClosesLiterals)
    (hcases : CasesOfSegments (d.scope m) d.directives nss c) (hc : c.Closed) {e : Int × Text}
    (he : e ∈ Plan.postTexts c) : ∀ w ∈ words e.2, ResolvedWord (numberedOlds nss) e.1 w := by
  rcases List.mem_append.1 he with he | he
  · obtain ⟨pre, hi⟩ := c.pre.mem_indices_iff.1 (hc.post e.1 (List.mem_map.2 ⟨e, he, rfl⟩))
    exact h.resolvedWord_normal hclosed hcases hi (c.post.mem_entries_iff.1 he)
  · obtain ⟨entry, hentry, hsig⟩ := List.mem_flatMap.1 he
    obtain ⟨sig, hmem, rfl⟩ := List.mem_map.1 hsig
    obtain ⟨pre, hi⟩ := c.pre.mem_indices_iff.1 (hc.xpost _ (List.mem_map.2 ⟨entry, hentry, rfl⟩))
    exact h.resolvedWord_exceptional hcases hi (c.xpost.mem_entries_iff.1 hentry) hmem

theorem onlyQuantifiers_preExprs (h : d.Tidy ExprPart.joinsOld m)
    (hcases : CasesOfSegments (d.scope m) d.directives nss c) {s : Text} (hs : s ∈ c.preExprs) :
    OnlyQuantifiers s := by
  obtain ⟨ls, hls, -, hexprs⟩ := hcases.lets
  rw [hexprs] at hs
  obtain ⟨p, hp, rfl⟩ := List.mem_map.1 hs
  obtain ⟨text, htext, hlet⟩ := exists_mem_of_mapM hls hp
  obtain ⟨dir, hdir, hkind, rfl⟩ := exists_of_mem_textsOf htext
  obtain ⟨form, hform, hlet⟩ := except_bind_eq_ok hlet
  obtain ⟨t, ht, hpure⟩ := except_bind_eq_ok hlet
  cases hpure
  have hexpr : dir.expression? = some form.expr := by
    rw [Directive.expression?, hkind, hform]
    rfl
  have honly := h.onlyQuantifiers_preText (h.exprs dir hdir _ hexpr) ht
  have hname := isName_of_letForm hform
  have hends : EndsName (" = " ++ t) := by
    intro c hc
    cases hc
    decide
  show OnlyQuantifiers (form.name ++ " = " ++ t)
  rw [OnlyQuantifiers, List.append_assoc, words_word_append (.inl hname) hends,
    words_marks_append (List.all_eq_true.1 (by decide))]
  exact List.forall_mem_cons.2 ⟨.inl hname, honly⟩

theorem onlyQuantifiers_oldVar (h : d.Tidy ExprPart.joinsOld m) {dir : Directive}
    (hdir : dir ∈ d.directives) (hkind : dir.kind = .old) {form : OldForm}
    (hform : OldForm.parse dir.text = .ok form) {t : Text}
    (ht : (d.scope m).preText form.expr = .ok t) : OnlyQuantifiers t := by
  refine h.onlyQuantifiers_preText (h.exprs dir hdir _ ?_) ht
  rw [Directive.expression?, hkind, hform]
  rfl

end Declaration.Tidy

/-! ### the check -/

theorem mem_words_of_mem_oldTokens {s w : Text} (h : w ∈ Plan.oldTokens s) :
    w ∈ words s ∧ Plan.isOldToken w = true := by
  obtain ⟨o, ho, rfl⟩ := List.mem_map.1 h
  obtain ⟨hmem, htoken⟩ := List.mem_filter.1 ho
  refine ⟨?_, (Bool.and_eq_true_iff.1 htoken).2⟩
  rw [words, ← texts_occurrencesFrom 0 none]
  exact List.mem_map.2 ⟨o, hmem, rfl⟩

/-- the check passes if the postconditions name no old state but what their cases declare -/
theorem checkOld_eq_ok {c : Contract} (h : ∀ e ∈ Plan.postTexts c, ∀ w ∈ words e.2,
    Plan.isOldToken w = true → w ∈ Plan.declaredOld c e.1) : Plan.checkOld c = .ok () := by
  refine forM_eq_ok_of_forall fun e he => ?_
  have hnone : Plan.undeclaredOld? c e.1 e.2 = none := by
    refine List.find?_eq_none.2 fun w hw => ?_
    obtain ⟨hword, htoken⟩ := mem_words_of_mem_oldTokens hw
    have hdeclared := List.contains_iff_mem.2 (h e he w hword htoken)
    rw [hdeclared]
    decide
  rw [hnone]

theorem Contract.CapturedOnce.mem_declaredOld {c : Contract} {i : Int} {e : Text} {n : Nat}
    (h : c.CapturedOnce i e (oldName n)) : oldName n ∈ Plan.declaredOld c i := by
  obtain ⟨p, ⟨type, htype⟩, -⟩ := h
  refine List.mem_append_right _ (List.mem_map.2 ⟨_, List.mem_of_getElem? htype, ?_⟩)
  exact declaredName_var n type

/-- If the parts of its expressions stand apart and its clauses leave no literal open, the references
of a declaration to old state resolve.  Every name in a postcondition that refers to old state is the
variable of an old expression of the same case, which is declared and captured once, and two old
expressions share a variable only if they are the same expression of the same case.  No keyword for
old state, the result or the receiver is left in a precondition, a postcondition, a pre-expression or
an expression that is captured. -/
theorem oldReferences_resolve {d : Declaration} {m : Method} {r : DeclaredContract}
    (h : d.contract = .ok r) (hm : d.method = .ok m) (htidy : d.Tidy ExprPart.joinsOld m)
    (hliterals : d.ClosesLiterals) :
    ∃ c nss, d.plainContract = .ok c ∧ r.contract = c.guardCaptures ∧
      CasesOfSegments (d.scope m) d.directives nss c ∧
      Plan.checkOld r.contract = .ok () ∧
      (∀ e ∈ Plan.postTexts r.contract, ∀ w ∈ words e.2, oldStem <+: w →
        ∃ expr, (e.1, expr) ∈ numberedOlds nss ∧ w = tempOf (numberedOlds nss) (e.1, expr) ∧
          r.contract.CapturedOnce e.1 expr w) ∧
      (∀ a ∈ numberedOlds nss, ∀ b ∈ numberedOlds nss,
        tempOf (numberedOlds nss) a = tempOf (numberedOlds nss) b ↔ a = b) ∧
      (∀ e ∈ r.contract.pre.entries, KeywordFree e.2) ∧
      (∀ e ∈ Plan.postTexts r.contract, KeywordFree e.2) ∧
      (∀ s ∈ r.contract.preExprs, KeywordFree s) ∧
      (∀ e ∈ numberedOlds nss, KeywordFree e.2) ∧
      ∀ dir ∈ d.directives, dir.kind = .old → ∀ form t, OldForm.parse dir.text = .ok form →
        (d.scope m).preText form.expr = .ok t → KeywordFree t := by
  obtain ⟨c, hplain, hr⟩ := Declaration.contract_eq_ok h
  obtain ⟨m', nss, hm', hcases, hc⟩ := Declaration.plainContract_cases hplain
  cases hm.symm.trans hm'
  -- guards change captures only
  have hpost : Plan.postTexts r.contract = Plan.postTexts c := by
    rw [hr, c.guardCaptures_eq]
    rfl
  have hexprs : r.contract.preExprs = c.preExprs := by rw [hr, c.guardCaptures_eq]
  have hwords : ∀ e ∈ Plan.postTexts c, ∀ w ∈ words e.2, ResolvedWord (numberedOlds nss) e.1 w :=
    fun e he => htidy.resolvedWord_post hliterals hcases hc he
  have hfree : ∀ e ∈ Plan.postTexts c, KeywordFree e.2 :=
    fun e he => OnlyQuantifiers.keywordFree fun w hw => (hwords e he w hw).1
  have hcaptured : ∀ {i : Int} {e : Text}, (i, e) ∈ numberedOlds nss →
      r.contract.CapturedOnce i e (tempOf (numberedOlds nss) (i, e)) := by
    rw [hr]
    exact hcases.capturedOnce hc
  refine ⟨c, nss, hplain, hr, hcases, ?_, ?_, ?_, ?_, ?_, ?_, ?_, ?_⟩
  · refine checkOld_eq_ok fun e he w hw htoken => ?_
    rw [hpost] at he
    rcases Bool.or_eq_true_iff.1 htoken with hold | hold
    · obtain rfl : w = oldKeyword := of_decide_eq_true hold
      exact absurd hw (hfree e he oldKeyword List.mem_cons_self)
    · obtain ⟨expr, hexpr, rfl⟩ := (hwords e he w hw).2 (List.isPrefixOf_iff_prefix.1 hold)
      exact (hcaptured hexpr).mem_declaredOld
  · rw [hpost]
    intro e he w hw hold
    obtain ⟨expr, hexpr, rfl⟩ := (hwords e he w hw).2 hold
    exact ⟨expr, hexpr, rfl, hcaptured hexpr⟩
  · exact fun a ha b hb => tempOf_inj ha
  · rw [hr, Contract.pre_guardCaptures]
    exact fun e he =>
      (htidy.onlyQuantifiers_pre hliterals hcases (c.pre.mem_entries_iff.1 he)).keywordFree
  · rw [hpost]
    exact hfree
  · rw [hexprs]
    exact fun s hs => (htidy.onlyQuantifiers_preExprs hcases hs).keywordFree
  · intro e he
    obtain ⟨dir, hdir, ns, hns, hmem⟩ := hcases.exists_directive he
    exact (htidy.onlyQuantifiers_old hdir hns hmem).keywordFree
  · exact fun dir hdir hkind form t hform ht =>
      (htidy.onlyQuantifiers_oldVar hdir hkind hform ht).keywordFree

/-- two cases, the first with clauses that share an old expression -/
def decantDeclaration : Declaration where
  package := "tank"
  name := "Decant"
  holder := .receiver { name := "t", type := "Tank" } false
  params := [{ name := "n", type := "int" }]
  results := [{ text := "int" }]
  directives := [
    { kind := .let, text := "full = \\this.level == 9" },
    { kind := .requires, text := "\\this.tag != \"\\\"\"" },
    { kind := .requires, text := "n <= \\this.level" },
    { kind := .ensures, text := "\\result == \\old((\\this.level))" },
    { kind := .ensures, text := "\\this.level + n == \\old( \\this.level)" },
    { kind := .also },
    { kind := .old, text := "left int = \\this.level" },
    { kind := .signals, text := "(Dry d) \\old(\\this.level) == left" }]
  eval := .ofFacts [("t.level", .type "int")]

theorem oldReferences_resolve_decant : ∃ m r, decantDeclaration.contract = .ok r ∧
    decantDeclaration.method = .ok m ∧ decantDeclaration.Tidy ExprPart.joinsOld m ∧
    decantDeclaration.ClosesLiterals ∧
    ∃ c nss, decantDeclaration.plainContract = .ok c ∧ r.contract = c.guardCaptures ∧
      CasesOfSegments (decantDeclaration.scope m) decantDeclaration.directives nss c ∧
      Plan.checkOld r.contract = .ok () ∧
      (∀ e ∈ Plan.postTexts r.contract, ∀ w ∈ words e.2, oldStem <+: w →
        ∃ expr, (e.1, expr) ∈ numberedOlds nss ∧ w = tempOf (numberedOlds nss) (e.1, expr) ∧
          r.contract.CapturedOnce e.1 expr w) ∧
      (∀ a ∈ numberedOlds nss, ∀ b ∈ numberedOlds nss,
        tempOf (numberedOlds nss) a = tempOf (numberedOlds nss) b ↔ a = b) ∧
      (∀ e ∈ r.contract.pre.entries, KeywordFree e.2) ∧
      (∀ e ∈ Plan.postTexts r.contract, KeywordFree e.2) ∧
      (∀ s ∈ r.contract.preExprs, KeywordFree s) ∧
      (∀ e ∈ numberedOlds nss, KeywordFree e.2) ∧
      ∀ dir ∈ decantDeclaration.directives, dir.kind = .old → ∀ form t,
        OldForm.parse dir.text = .ok form →
        (decantDeclaration.scope m).preText form.expr = .ok t → KeywordFree t := by
  obtain ⟨r, hr, -⟩ := exists_eq_ok (p := fun _ => true)
    (show (decantDeclaration.contract).toOption.any _ = true by
      -- the kernel is slow in reading the characters of a literal, so they are put in its place
      unfold decantDeclaration
      repeat rw [String.toList_ofList]
      decide +kernel)
  obtain ⟨m, hm, htidy⟩ := exists_eq_ok
    (p := fun m => decide (decantDeclaration.Tidy ExprPart.joinsOld m))
    (show (decantDeclaration.method).toOption.any _ = true by
      unfold decantDeclaration
      repeat rw [String.toList_ofList]
      decide +kernel)
  have hliterals : decantDeclaration.ClosesLiterals := by decide +kernel
  exact ⟨m, r, hr, hm, of_decide_eq_true htidy, hliterals,
    oldReferences_resolve hr hm (of_decide_eq_true htidy) hliterals⟩

def checkDeclaration (clauses : List Text) : Declaration where
  package := "tank"
  name := "Check"
  holder := .receiver { name := "t", type := "Tank" } false
  params := [{ name := "x", type := "int" }]
  results := []
  directives := clauses.map fun s => { kind := .ensures, text := s }
  eval := .ofFacts [("x", .type "int")]

/-- the contract of a tidy declaration refers to old state by `tok`, which it does not declare -/
def Declaration.LeavesOld (bad : ExprPart → Bool) (d : Declaration) (tok : Text) : Prop :=
  ∃ m r, d.method = .ok m ∧ d.contract = .ok r ∧ d.Tidy bad m ∧
    Plan.checkOld r.contract = .error (.unresolvedOld 0 tok)

theorem leavesOld_of_any {bad : ExprPart → Bool} {d : Declaration} {tok : Text}
    (hm : d.method.toOption.any (fun m => decide (d.Tidy bad m)) = true)
    (hr : d.contract.toOption.any
      (fun r => decide (Plan.checkOld r.contract = .error (.unresolvedOld 0 tok))) = true) :
    d.LeavesOld bad tok := by
  obtain ⟨m, hm, htidy⟩ := exists_eq_ok hm
  obtain ⟨r, hr, hcheck⟩ := exists_eq_ok hr
  exact ⟨m, r, hm, hr, of_decide_eq_true htidy, of_decide_eq_true hcheck⟩

/-- It is not enough that no name follows an old expression: the name put in for a keyword runs into
that of the old expression.  And a literal that a clause leaves open ends in the next clause, whose own
literal is then read as code. -/
theorem old_not_resolved :
    ((checkDeclaration ["\\old(x)\\this"]).ClosesLiterals ∧
      (checkDeclaration ["\\old(x)\\this"]).LeavesOld ExprPart.startsName "racOld0t") ∧
    (checkDeclaration ["x == \"abc", "x == \"\\old(x)\""]).LeavesOld ExprPart.joinsOld "\\old" := by
  refine ⟨⟨?_, ?_⟩, ?_⟩
  · decide +kernel
  · exact leavesOld_of_any (by decide +kernel) (by decide +kernel)
  · exact leavesOld_of_any (by decide +kernel) (by decide +kernel)

end ContractChecks
