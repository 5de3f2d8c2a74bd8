import ContractChecks.Proofs.ExpandedNames
import ContractChecks.Proofs.StatementTexts
import ContractChecks.Proofs.WholeWords

/-!
# The object under construction in a wrapper

The clauses of a constructor speak of the object under construction by a name that the wrapper does
not declare.  Where the wrapper has a result, that name is replaced by the variable of the result
before quantifiers are expanded.

* `Yields stem m Q`: a run of `m` on an expander with the given stem gives a value with `Q`, and
  keeps the stem;
* `expanded_object`: expansion after the renaming leaves the name out, unless it stands in a
  quantified text with blanks attached to it;
* `call_object`: the call of the checked method has the name only if its signature has;
* `synthesize_object`: no statement of the wrapper names the object.
-/

namespace ContractChecks

/-! ### runs that keep the stem of closure names -/

/-- a run of `m` gives a value with the property and keeps the stem -/
def Yields {α : Type} (stem : Text) (m : SynthM α) (Q : α → Prop) : Prop :=
  ∀ e a e', e.stem = stem → m e = .ok (a, e') → Q a ∧ e'.stem = stem

namespace Yields
variable {α β : Type} {stem : Text}

theorem pure {Q : α → Prop} {a : α} (h : Q a) : Yields stem (pure a) Q := by
  intro e b e' he hrun
  cases SynthM.pure_eq_ok hrun
  exact ⟨h, he⟩

theorem bind {m : SynthM α} {k : α → SynthM β} {Q : α → Prop} {R : β → Prop}
    (hm : Yields stem m Q) (hk : ∀ a, Q a → Yields stem (k a) R) : Yields stem (m >>= k) R := by
  intro e b e' he hrun
  obtain ⟨a, e₁, ha, hb⟩ := SynthM.bind_eq_ok hrun
  obtain ⟨hQ, he₁⟩ := hm e a e₁ he ha
  exact hk a hQ e₁ b e' he₁ hb

theorem imp {m : SynthM α} {Q R : α → Prop} (hm : Yields stem m Q) (h : ∀ a, Q a → R a) :
    Yields stem m R := fun e a e' he hrun => ⟨h a (hm e a e' he hrun).1, (hm e a e' he hrun).2⟩

theorem forall₂_mapM {g : α → SynthM β} {R : α → β → Prop} (hg : ∀ x, Yields stem (g x) (R x))
    (l : List α) : Yields stem (l.mapM g) (List.Forall₂ R l) := by
  induction l with
  | nil => exact pure .nil
  | cons x l ih =>
    rw [List.mapM_cons]
    exact bind (hg x) fun y hy => bind ih fun ys hys => pure (.cons hy hys)

theorem mapM {g : α → SynthM β} {R : α → β → Prop} (hg : ∀ x, Yields stem (g x) (R x)) (l : List α) :
    Yields stem (l.mapM g) fun ys => ∀ y ∈ ys, ∃ x ∈ l, R x y :=
  (forall₂_mapM hg l).imp fun _ => exists_mem_of_forall₂

end Yields

/-- the expansion of a renamed text whose closures are named after the stem -/
def ExpandedAs (stem : Text) (f : Renaming) (s : Text) (x : Expansion) : Prop :=
  Expanded stem (rename f s) x

theorem yields_expandText (stem : Text) (f : Renaming) (i : Int) (s : Text) :
    Yields stem (expandText f i s) (ExpandedAs stem f s) := by
  intro e x e' he hrun
  unfold expandText Expander.expand at hrun
  cases hp : (expandFrom e.stem (rename f s)).run e.next with
  | mk r n =>
    rw [hp] at hrun
    cases r with
    | error q => cases hrun
    | ok y =>
      cases hrun
      exact ⟨⟨e.next, n, he ▸ hp⟩, he⟩

/-- every piece is the expansion of one of the texts -/
def Covered (stem : Text) (f : Renaming) (ss : List Text) (xs : List Expansion) : Prop :=
  ∀ x ∈ xs, ∃ s ∈ ss, ExpandedAs stem f s x

theorem Covered.append {stem : Text} {f : Renaming} {ss ts : List Text} {xs ys : List Expansion}
    (hx : Covered stem f ss xs) (hy : Covered stem f ts ys) :
    Covered stem f (ss ++ ts) (xs ++ ys) := by
  intro x h
  rcases List.mem_append.1 h with h | h
  · obtain ⟨s, hs, hexp⟩ := hx x h
    exact ⟨s, List.mem_append_left _ hs, hexp⟩
  · obtain ⟨s, hs, hexp⟩ := hy x h
    exact ⟨s, List.mem_append_right _ hs, hexp⟩

theorem covered_map {α β : Type} {stem : Text} {f : Renaming} {g : α → Text} {p : β → Expansion}
    {l : List α} {ys : List β} (h : ∀ y ∈ ys, ∃ x ∈ l, ExpandedAs stem f (g x) (p y)) :
    Covered stem f (l.map g) (ys.map p) := by
  intro x hx
  obtain ⟨y, hy, rfl⟩ := List.mem_map.1 hx
  obtain ⟨u, hu, hexp⟩ := h y hy
  exact ⟨g u, List.mem_map_of_mem hu, hexp⟩

theorem yields_expandPre (stem : Text) (c : Contract) (plan : Plan) (f : Renaming) :
    Yields stem (expandPre c plan f) fun y => Covered stem f
      (if checksPrecondition c plan then [c.precondition] else [])
      (y.toList.map CheckPiece.piece) := by
  unfold expandPre
  split
  · refine .bind (yields_expandText stem f (-1) c.precondition) fun x hx => .pure ?_
    exact covered_map (g := id) (l := [c.precondition]) (by simpa using hx)
  · exact .pure (by simp [Covered])

theorem yields_signals (stem : Text) (c : Contract) (f : Renaming) :
    Yields stem (if c.xpostCode.isEmpty then (checkedSignals c).mapM (expandSignals c.method f)
        else pure []) fun ys => Covered stem f
      (if c.xpostCode.isEmpty then (checkedSignals c).map (fun e => e.2.pred) else [])
      (ys.map fun s => s.check.piece) := by
  have hone : ∀ e, Yields stem (expandSignals c.method f e) fun p =>
      ExpandedAs stem f e.2.pred p.check.piece :=
    fun e => .bind (yields_expandText stem f e.1 e.2.pred) fun x hx => .pure hx
  split
  · exact (Yields.mapM hone _).imp fun ys hys => covered_map hys
  · exact .pure (by simp [Covered])

theorem yields_expandTexts (stem : Text) (c : Contract) (plan : Plan) (f : Renaming) :
    Yields stem (expandTexts c plan f) fun t => Covered stem f (c.expandedTexts plan) t.pieces := by
  have htexts := fun l => Yields.mapM (fun s => yields_expandText stem f (-1) s) l
  have hpost : ∀ e, Yields stem (expandPost c.method f e) fun p => ExpandedAs stem f e.2 p.piece :=
    fun e => .bind (yields_expandText stem f e.1 e.2) fun x hx => .pure hx
  refine .bind (htexts plan.early) fun early hearly => .bind (htexts plan.preExprs)
    fun preExprs hpreExprs => .bind (yields_expandPre stem c plan f) fun pre hpre =>
    .bind (htexts plan.late) fun late hlate => .bind (Yields.mapM hpost (checkedPosts c))
    fun posts hposts => ?_
  have hlast : ∀ signals : List SignalPiece, Covered stem f (if c.xpostCode.isEmpty then
      (checkedSignals c).map (fun e => e.2.pred) else []) (signals.map fun s => s.check.piece) →
      Yields stem (pure ⟨early, preExprs, pre, late, posts, signals, c.xpostCode.map (rename f)⟩ :
        SynthM WrapperTexts) fun t => Covered stem f (c.expandedTexts plan) t.pieces := by
    intro signals hsignals
    exact .pure (Covered.append hearly (Covered.append hpreExprs (hpre.append (Covered.append hlate
      ((covered_map hposts).append hsignals)))))
  have hsignals := yields_signals stem c f
  by_cases hx : c.xpostCode.isEmpty = true
  · simp only [if_pos hx] at hsignals hlast ⊢
    exact .bind hsignals hlast
  · simp only [if_neg hx] at hsignals hlast ⊢
    exact .bind hsignals hlast

/-! ### the renaming of the object -/

def objectRenaming : Renaming := [(objectName, resultVar)]

theorem get?_objectRenaming {a x : Text} (h : objectRenaming.get? a = some x) :
    a = objectName ∧ x = resultVar := by
  rw [objectRenaming, Renaming.get?, List.lookup_cons] at h
  split at h
  · rename_i ha
    exact ⟨beq_iff_eq.1 ha, (Option.some.inj h).symm⟩
  · cases h

theorem named_objectRenaming : objectRenaming.Named := by
  intro a x h
  obtain ⟨rfl, rfl⟩ := get?_objectRenaming h
  decide

theorem image_objectRenaming (a : Text) :
    objectRenaming.image a = if a = objectName then resultVar else a := by
  split
  · rename_i ha
    subst ha
    rfl
  · rename_i ha
    refine Renaming.image_of_none ?_
    cases h : objectRenaming.get? a with
    | none => rfl
    | some x => exact absurd (get?_objectRenaming h).1 ha

theorem not_mem_rename_object (s : Text) : objectName ∉ namesIn (rename objectRenaming s) := by
  rw [namesIn_rename named_objectRenaming]
  intro h
  obtain ⟨a, -, ha⟩ := List.mem_map.1 h
  rw [image_objectRenaming] at ha
  split at ha
  · revert ha
    decide
  · contradiction

/-- no blank is attached to the name of the object -/
def PlainlyNamed (s : Text) : Prop := ∀ v ∈ namesIn s, Text.trim v = objectName → v = objectName

instance (s : Text) : Decidable (PlainlyNamed s) :=
  inferInstanceAs (Decidable (∀ v ∈ namesIn s, Text.trim v = objectName → v = objectName))

theorem PlainlyNamed.avoids {s : Text} (h : PlainlyNamed s) :
    Avoids objectName (rename objectRenaming s) := by
  rw [Avoids, namesIn_rename named_objectRenaming]
  intro w hw
  obtain ⟨a, ha, rfl⟩ := List.mem_map.1 hw
  rw [image_objectRenaming]
  split
  · decide
  · rename_i hne
    exact fun htrim => hne (h a ha htrim)

theorem isQuantifier_renamedLexemes (f : Renaming) (last : Option Char) (ls : List Lexeme) :
    (renamedLexemes f last ls).any Lexeme.isQuantifier = ls.any Lexeme.isQuantifier := by
  induction ls generalizing last with
  | nil => rfl
  | cons l ls ih =>
    have hl : (l.mapName f last).isQuantifier = l.isQuantifier := by
      cases l with
      | name raw =>
        rw [Lexeme.mapName]
        split <;> rfl
      | keyword raw => rfl
      | literal raw => rfl
      | number raw => rfl
      | other c => rfl
    rw [renamedLexemes, List.any_cons, List.any_cons, hl, ih]

theorem containsQuantifier_rename {f : Renaming} (hf : f.Named) (s : Text) :
    containsQuantifier (rename f s) = containsQuantifier s := by
  rw [containsQuantifier, containsQuantifier, lexemes_rename hf, isSome_findQuantifier,
    isSome_findQuantifier, isQuantifier_renamedLexemes]

/-- without a quantifier the text stays as it is after the renaming -/
theorem ExpandedAs.plain {stem : Text} {f : Renaming} {s : Text} {x : Expansion}
    (h : ExpandedAs stem f s x) (hf : f.Named) (hs : containsQuantifier s = false) :
    x = ⟨[], rename f s⟩ := by
  have hnone : findQuantifier (lexemes (rename f s)) = none := by
    rw [← containsQuantifier_rename hf] at hs
    exact Option.isSome_eq_false_iff.1 hs |> Option.isNone_iff_eq_none.1
  rcases expandFrom_eq_ok h with ⟨-, rfl⟩ | ⟨p, -, -, -, -, -, hspan, -⟩
  · rfl
  · simp only [firstSpan?, hnone] at hspan
    cases hspan

theorem foreign_object : Foreign objectName := ⟨by decide, by decide⟩

theorem expanded_object {s : Text} {x : Expansion} (h : ExpandedAs defaultStem objectRenaming s x)
    (hs : containsQuantifier s = true → PlainlyNamed s) :
    ∀ u ∈ checkReads x, objectName ∉ namesIn u := by
  cases hq : containsQuantifier s with
  | true =>
    exact Expanded.not_reads foreign_object (by decide) (by decide) h (hs hq).avoids
  | false =>
    cases h.plain named_objectRenaming hq
    intro u hu
    rw [List.mem_singleton.1 hu]
    exact not_mem_rename_object s

/-! ### the call -/

/-- the texts of a signature that a wrapper writes down -/
def Method.signatureTexts (m : Method) : List Text :=
  m.name :: m.receiver :: m.owner :: m.ownerType :: m.returnType :: m.paramNames

theorem standsIn_param {p : Param} {i : Nat} (h : StandsIn objectName (namedParam p i).name) :
    StandsIn objectName p.name := by
  unfold namedParam at h
  split at h
  · -- a generated name does not begin like that of the object
    have hparts : ∀ c ∈ ("racArg" : Text) ++ Text.ofNat i, isNamePart c = true := by
      intro c hc
      rcases List.mem_append.1 hc with hc | hc
      · exact isNamePart_of_isName (n := "racArg") (by decide) c hc
      · exact (isDigit_spec (isDigit_of_mem_ofNat hc)).1
    have htake := congrArg (List.take 4) (h.eq hparts)
    rw [List.take_append_of_le_length (by decide)] at htake
    exact absurd htake (by decide)
  · exact h

theorem standsIn_argument {p : Param} (h : StandsIn objectName (argument p)) :
    StandsIn objectName p.name := by
  unfold argument at h
  split at h
  · rcases StandsIn.split (y := "..") (by decide) (by decide) h with h | h
    · exact h
    rcases StandsIn.split (x := []) (y := ".") (by decide) (by decide) h with h | h
    · exact absurd h (not_standsIn_nil (by decide))
    rcases StandsIn.split (x := []) (y := []) (by decide) (by decide) h with h | h
    · exact absurd h (not_standsIn_nil (by decide))
    · exact absurd h (not_standsIn_nil (by decide))
  · exact h

theorem standsIn_callText {target : Text} {ps : List Param}
    (h : StandsIn objectName (callText target ps)) :
    StandsIn objectName target ∨ ∃ p ∈ ps, StandsIn objectName p.name := by
  unfold callText at h
  rcases StandsIn.split (y := []) (by decide) (by decide) h with h | h
  · rw [List.append_assoc] at h
    rcases StandsIn.split (x := target) (by decide) (by decide) h with h | h
    · exact .inl h
    · obtain ⟨t, ht, hstands⟩ := StandsIn.of_join (by decide) (by decide) (by decide) h
      obtain ⟨p, hp, rfl⟩ := List.mem_map.1 ht
      exact .inr ⟨p, hp, standsIn_argument hstands⟩
  · exact absurd h (not_standsIn_nil (by decide))

theorem standsIn_qualifiedTarget {m : Method} {name : Text}
    (h : StandsIn objectName (qualifiedTarget m name)) :
    StandsIn objectName m.receiver ∨ StandsIn objectName name := by
  unfold qualifiedTarget at h
  split at h
  · exact .inr h
  rw [List.append_assoc] at h
  rcases StandsIn.split (by decide) (by decide) h with h | h
  · unfold Method.receiverName at h
    split at h
    · exact absurd (h.eq (isNamePart_of_isName (by decide))) (by decide)
    · exact .inl h
  · exact .inr h

theorem standsIn_bodyName {name : Text} (h : StandsIn objectName (bodyStem ++ name)) :
    StandsIn objectName name :=
  h.of_stem (isNamePart_of_isName (by decide)) (by decide) (by decide) (by decide)

/-- the call of the checked method has the name of the object only if its signature has -/
theorem call_object {m : Method} (hm : ∀ t ∈ m.signatureTexts, ¬StandsIn objectName t)
    (mode : Mode) : objectName ∉ namesIn (wrapperHead m mode false).callTarget := by
  intro hmem
  have hstands := standsIn_of_mem_namesIn (by decide) hmem
  have hparams : ∀ p ∈ namedParams m.params, ¬StandsIn objectName p.name := by
    intro p hp h
    obtain ⟨⟨q, i⟩, hq, rfl⟩ := List.mem_map.1 hp
    refine hm q.name ?_ (standsIn_param h)
    have hmem : q ∈ m.params := List.fst_mem_of_mem_zipIdx hq
    simp [Method.signatureTexts, Method.paramNames, List.mem_map_of_mem hmem]
  have htarget : ∀ name, (StandsIn objectName name → StandsIn objectName m.name) →
      ¬StandsIn objectName (callText (qualifiedTarget m name) (namedParams m.params)) := by
    intro name hname h
    rcases standsIn_callText h with h | ⟨p, hp, h⟩
    · rcases standsIn_qualifiedTarget h with h | h
      · exact hm m.receiver (by simp [Method.signatureTexts]) h
      · exact hm m.name (by simp [Method.signatureTexts]) (hname h)
    · exact hparams p hp h
  cases mode with
  | direct => exact htarget _ standsIn_bodyName hstands
  | _ => exact htarget _ id hstands

/-! ### wrappers of constructors -/

theorem renames_signature {c : Contract} {mode : Mode} {oracle : Oracle} {sig : Signature}
    (h : Signature.of c mode oracle = .ok sig) : sig.renames = [] ∨ sig.renames = objectRenaming := by
  simp only [Signature.of] at h
  split at h
  · cases h
  · cases h
    show (if _ then _ else _) = _ ∨ (if _ then _ else _) = _
    split
    · exact .inr rfl
    · exact .inl rfl

/-- the signature of a constructor's wrapper that has a result -/
theorem signature_constructor {c : Contract} {mode : Mode} {oracle : Oracle} {sig : Signature}
    (h : Signature.of c mode oracle = .ok sig) (hctor : c.method.constructor = true)
    (hresult : mode.wrapsCalls = true ∨ c.method.returnType ≠ []) :
    sig.renames = objectRenaming ∧ sig.resultType ≠ [] ∧
      (sig.resultType = c.method.returnType ∨ sig.resultType = c.method.constructedType) ∧
      sig.wrapper.callTarget = (wrapperHead c.method mode false).callTarget := by
  have hconstructed : c.method.constructedType ≠ [] := by
    unfold Method.constructedType
    split
    · exact List.cons_ne_nil _ _
    · assumption
  have htype : resultTypeOf c.method mode false ≠ [] ∧
      (resultTypeOf c.method mode false = c.method.returnType ∨
        resultTypeOf c.method mode false = c.method.constructedType) := by
    unfold resultTypeOf
    rw [if_neg (by decide)]
    by_cases hreturn : (c.method.returnType != []) = true
    · rw [if_pos hreturn]
      exact ⟨bne_iff_ne.1 hreturn, .inl rfl⟩
    · have hwraps : mode.wrapsCalls = true := hresult.resolve_right fun hne => hreturn (bne_iff_ne.2 hne)
      rw [if_neg hreturn, hctor, hwraps]
      exact ⟨hconstructed, .inr rfl⟩
  simp only [Signature.of] at h
  split at h
  · cases h
  · rename_i hsupported
    -- a constructor that intercepts other members is not supported
    have hcrosscut : oracle.isCrosscut c.method = false := by
      cases hcross : oracle.isCrosscut c.method with
      | false => rfl
      | true =>
        rw [unsupported?, hcross, hctor] at hsupported
        cases hsupported
    rw [hcrosscut] at h
    cases h
    refine ⟨?_, htype.1, htype.2, rfl⟩
    rw [hctor, bne_iff_ne.2 htype.1]
    rfl

/-- a text after a fixed one -/
theorem object_append {a b : Text} (ha : Clean objectName a)
    (hlast : a.getLast?.any isMark = true) (hb : objectName ∉ namesIn b) :
    objectName ∉ namesIn (a ++ b) := by
  intro h
  rcases List.mem_append.1 (namesIn_append_subset ((ha.block hlast).block.lexemes_append b) h) with
    h | h
  · exact ha.2 objectName h (by decide)
  · exact hb h

theorem resultType_object {m : Method} (hm : ∀ t ∈ m.signatureTexts, ¬StandsIn objectName t)
    {type : Text} (htype : type = m.returnType ∨ type = m.constructedType) :
    objectName ∉ namesIn type := by
  intro hmem
  have hstands := standsIn_of_mem_namesIn (by decide) hmem
  rcases htype with rfl | rfl
  · exact hm _ (by simp [Method.signatureTexts]) hstands
  · unfold Method.constructedType at hstands
    split at hstands
    · rcases StandsIn.split (x := []) (by decide) (by decide) hstands with h | h
      · exact not_standsIn_nil (by decide) h
      · exact hm _ (by simp [Method.signatureTexts]) h
    · exact hm _ (by simp [Method.signatureTexts]) hstands

theorem temps_object {plan : Plan} (htemps : objectName ∉ plan.temps) :
    ∀ x ∈ plan.temps, objectName ∉ namesIn x := by
  intro x hx
  obtain ⟨hmem, hne⟩ := List.mem_filter.1 hx
  obtain ⟨d, -, rfl⟩ := List.mem_map.1 hmem
  have hname : isName (declaredName d) = true := isName_leadingName (bne_iff_ne.1 hne)
  have hnames := namesIn_name hname (b := []) (by simp [EndsName])
  rw [List.append_nil, namesIn_nil] at hnames
  rw [hnames, List.mem_singleton]
  intro heq
  exact htemps (heq ▸ hx)

theorem declarations_object {t : WrapperTexts} {sig : Signature} {plan : Plan}
    (hrenames : sig.renames = objectRenaming) (htype : objectName ∉ namesIn sig.resultType)
    (htemps : objectName ∉ plan.temps) :
    ∀ s ∈ stmtTexts (t.declarations sig plan), objectName ∉ namesIn s := by
  have hdecls : stmtTexts (plan.decls.map fun d => declareStmt (rename sig.renames d))
      = plan.decls.map (rename sig.renames) := stmtTexts_map_leaf _ _
  have huses : stmtTexts ((plan.temps.filter fun x => !references t.reads x).map useStmt)
      = (plan.temps.filter fun x => !references t.reads x).map fun x => ("_ = " : Text) ++ x :=
    stmtTexts_map_leaf _ _
  intro s hs
  rw [WrapperTexts.declarations, stmtTexts_append, stmtTexts_append, stmtTexts_append, hdecls,
    huses] at hs
  rcases List.mem_append.1 hs with hs | hs
  · rcases List.mem_append.1 hs with hs | hs
    · rcases List.mem_append.1 hs with hs | hs
      · split at hs
        · cases hs
        · rw [List.mem_singleton.1 hs]
          exact object_append (a := "var " ++ resultVar ++ " ") (by decide +kernel) (by decide) htype
      · split at hs
        · rw [List.mem_singleton.1 hs]
          decide +kernel
        · cases hs
    · obtain ⟨d, -, rfl⟩ := List.mem_map.1 hs
      rw [hrenames]
      exact not_mem_rename_object d
  · obtain ⟨x, hx, rfl⟩ := List.mem_map.1 hs
    exact object_append (a := "_ = ") (by decide +kernel) (by decide)
      (temps_object htemps x (List.mem_filter.1 hx).1)

theorem invocation_object {sig : Signature} (hresult : sig.resultType ≠ [])
    (hcall : objectName ∉ namesIn sig.wrapper.callTarget) :
    objectName ∉ namesIn (WrapperTexts.invocation sig) ∧
      ∀ s ∈ stmtTexts (WrapperTexts.returnStmts sig), objectName ∉ namesIn s := by
  have hassigned : sig.assigned = [resultVar] ∨ sig.assigned = [resultVar, errorVar] := by
    rw [Signature.assigned, if_neg hresult]
    split
    · exact .inr rfl
    · exact .inl rfl
  unfold WrapperTexts.invocation WrapperTexts.returnStmts
  rcases hassigned with hassigned | hassigned
  · rw [hassigned]
    refine ⟨object_append (a := Text.join ", " [resultVar] ++ " = ") (by decide +kernel)
      (by decide) hcall, ?_⟩
    intro s hs
    rw [List.mem_singleton.1 hs]
    decide +kernel
  · rw [hassigned]
    refine ⟨object_append (a := Text.join ", " [resultVar, errorVar] ++ " = ") (by decide +kernel)
      (by decide) hcall, ?_⟩
    intro s hs
    rw [List.mem_singleton.1 hs]
    decide +kernel

theorem plainTexts_object {t : WrapperTexts} {sig : Signature} {plan : Plan} {code : List Text}
    (hrenames : sig.renames = objectRenaming) (hresult : sig.resultType ≠ [])
    (htype : objectName ∉ namesIn sig.resultType) (htemps : objectName ∉ plan.temps)
    (hcall : objectName ∉ namesIn sig.wrapper.callTarget)
    (hcode : t.xpostCode = code.map (rename objectRenaming)) :
    ∀ s ∈ t.plainTexts sig plan, objectName ∉ namesIn s := by
  obtain ⟨hinvoke, hreturn⟩ := invocation_object hresult hcall
  intro s hs
  rcases List.mem_append.1 hs with hs | hs
  · rcases List.mem_append.1 hs with hs | hs
    · rcases List.mem_append.1 hs with hs | hs
      · exact declarations_object hrenames htype htemps s hs
      rcases List.mem_cons.1 hs with rfl | hs
      · exact hinvoke
      · rw [hcode] at hs
        obtain ⟨x, -, rfl⟩ := List.mem_map.1 hs
        exact not_mem_rename_object x
    · exact hreturn s hs
  · rw [List.mem_singleton.1 hs, namesIn_nil]
    exact List.not_mem_nil

/-- **Every text of a constructor is emitted with the result in the place of the object, and no
statement names the object,** if its signature and its temporaries do not, and if no blank is
attached to the name of the object in a text with a quantifier -/
theorem synthesize_object {c : Contract} {mode : Mode} {oracle : Oracle} {w : Wrapper} {plan : Plan}
    (h : synthesize c mode oracle = .ok w) (hctor : c.method.constructor = true)
    (hresult : mode.wrapsCalls = true ∨ c.method.returnType ≠ [])
    (hplan : Plan.extract c oracle = .ok plan) (htemps : objectName ∉ plan.temps)
    (hsig : ∀ t ∈ c.method.signatureTexts, ¬StandsIn objectName t)
    (hplain : ∀ s ∈ c.expandedTexts plan, containsQuantifier s = true → PlainlyNamed s) :
    (∀ s ∈ c.expandedTexts plan, ∃ a ∈ flatten w.stmts, ∃ x,
      Expands [(objectName, resultVar)] s x ∧ a.text = x.text) ∧
    ∀ a ∈ flatten w.stmts, objectName ∉ namesIn a.text := by
  obtain ⟨family, sig, plan', t, e, hsteps, hrun⟩ := synthesize_texts h
  obtain rfl : plan' = plan := Except.ok.inj (hsteps.plan_eq.symm.trans hplan)
  obtain ⟨hrenames, hne, htype, hcall⟩ := signature_constructor hsteps.sig_eq hctor hresult
  have hstmts : w.stmts = t.stmts sig plan' family := by rw [hsteps.wrapper_eq]
  have htexts := hsteps.texts
  rw [hrenames] at htexts hrun
  constructor
  · intro s hs
    rw [hstmts]
    exact htexts.exists_action (signals_expandTexts hrun) hs
  · intro a ha
    have hmem : a.text ∈ stmtTexts w.stmts := List.mem_map_of_mem ha
    rw [hstmts] at hmem
    rcases mem_stmtTexts.1 hmem with hplainText | ⟨x, hx, hread⟩
    · have hcode : t.xpostCode = c.xpostCode.map (rename objectRenaming) := htexts.xpostCode
      exact plainTexts_object hrenames hne (resultType_object hsig htype) htemps
        (hcall ▸ call_object hsig mode) hcode _ hplainText
    · have hcovered := (yields_expandTexts defaultStem c plan' objectRenaming {} t e rfl hrun).1
      obtain ⟨s, hs, hexp⟩ := hcovered x hx
      exact expanded_object hexp (hplain s hs) _ hread

/-- a constructor that captures old state, quantifies over the object and has code for failures -/
def listContract : Contract where
  method := {
    name := "NewList", owner := "List", static := true, constructor := true
    params := [{ name := "items", type := "[]*List" }, { name := "_", type := "int" }]
    returnType := "*List", returnsError := true, visibility := .of .pub }
  pre := .set .empty 0 "len(items) > 0"
  post := .set .empty 0
    "(\\exists i int; 0 <= i && i < n; items[i] == racObject ) && racObject.racObject != nil"
  oldVars := .set .empty 0 [⟨"n int/n = len(items)"⟩]
  xpostCode := ["racObject.close(racE)"]

def listPlan : Plan where
  decls := ["var n int"]
  late := ["n = len(items)"]
  bindings := [⟨0, "n", ⟨"n int/n = len(items)"⟩, false, false⟩]

theorem synthesize_object_list :
    ∃ w, synthesize listContract .direct (.scanning []) = .ok w ∧
      listContract.method.constructor = true ∧
      Plan.extract listContract (.scanning []) = .ok listPlan ∧
      (∀ s ∈ listContract.expandedTexts listPlan, ∃ a ∈ flatten w.stmts, ∃ x,
        Expands [(objectName, resultVar)] s x ∧ a.text = x.text) ∧
      ∀ a ∈ flatten w.stmts, objectName ∉ namesIn a.text := by
  have hplan : Plan.extract listContract (.scanning []) = .ok listPlan := by
    -- the kernel is slow in reading the characters of a literal, so they are put in its place
    unfold listContract listPlan
    repeat rw [String.toList_ofList]
    decide +kernel
  have hshort : ∀ t ∈ listContract.method.signatureTexts, t.length < objectName.length := by
    decide +kernel
  have hplain : ∀ s ∈ listContract.expandedTexts listPlan, containsQuantifier s = true →
      PlainlyNamed s := by
    unfold listContract listPlan
    repeat rw [String.toList_ofList]
    decide +kernel
  obtain ⟨w, h, -⟩ := exists_eq_ok (p := fun _ => true)
    (show (synthesize listContract .direct (.scanning [])).toOption.any _ = true by
      unfold listContract
      repeat rw [String.toList_ofList]
      decide +kernel)
  refine ⟨w, h, rfl, hplan, synthesize_object h rfl (.inr (by decide)) hplan (by decide +kernel)
    (fun t ht hstands => ?_) hplain⟩
  have hlen := hshort t ht
  have hle := hstands.length_le
  omega

/-- a constructor whose postcondition has a blank outside ASCII after the name of the object -/
def paddedContract : Contract where
  method := {
    name := "NewList", owner := "List", static := true, constructor := true
    params := [{ name := "items", type := "[]*List" }]
    returnType := "*List", visibility := .of .pub }
  pre := .set .empty 0 "len(items) > 0"
  post := .set .empty 0
    "(\\exists i int; 0 <= i && i < len(items); items[i] == racObject\u00a0)"

/-- the blank is part of the name when the object is renamed, and gone when the closure is made -/
theorem object_named_padded :
    ∃ w, synthesize paddedContract .direct (.scanning []) = .ok w ∧
      paddedContract.method.constructor = true ∧ paddedContract.method.returnType ≠ [] ∧
      ∃ a ∈ flatten w.stmts, objectName ∈ namesIn a.text := by
  have hnamed : ((synthesize paddedContract .direct (.scanning [])).toOption.any fun w =>
      (flatten w.stmts).any fun a => (namesIn a.text).contains objectName) = true := by
    unfold paddedContract
    repeat rw [String.toList_ofList]
    decide +kernel
  obtain ⟨w, h, hnamed⟩ := exists_eq_ok hnamed
  obtain ⟨a, ha, hmem⟩ := List.any_eq_true.1 hnamed
  exact ⟨w, h, rfl, by decide, a, ha, List.contains_iff_mem.1 hmem⟩

end ContractChecks
