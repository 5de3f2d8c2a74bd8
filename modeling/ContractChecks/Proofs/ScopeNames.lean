import Mathlib.Data.List.Nodup
import Mathlib.Data.List.Perm.Basic
import Mathlib.Data.List.Dedup
import ContractChecks.Proofs.CaptureOrder
import ContractChecks.Proofs.ConstructedObject
import ContractChecks.Proofs.InheritedTexts

/-!
# The names in the scope of a wrapper

A wrapper declares its receiver and parameters, variables for the results and for a caught signal,
and the temporaries of the capture plan, all in one scope.  Made-up names never clash with each
other, and neither do the old variables.  Any other two of these names can.

* `Method.ownNames m`, `Method.madeUpNames m crosscut`: the names of the signature that come from the
  method, and those that are made up; `signatureNames_perm`: a wrapper has both;
* `madeUpNames_nodup`, `madeUpNames_disjoint`: made-up names are apart;
* `declaredNames_synthesize`: the names that the statements of a wrapper declare;
* `variableNames_nodup`: those of old variables are apart;
* `NamesApart`: what it takes beyond that; `scopeNames_nodup_iff`: nothing more is needed.
-/

namespace ContractChecks

/-! ### names of the signature -/

/-- the name made up for the parameter at a position -/
def argName (i : Nat) : Text := ("racArg" : Text) ++ Text.ofNat i

theorem argName_ne (i : Nat) {n : Text} (h : n.take 6 ≠ ("racArg" : Text)) : argName i ≠ n := by
  rintro rfl
  exact h rfl

theorem argName_injective : Function.Injective argName := fun _ _ h =>
  ofNat_injective (List.append_cancel_left h)

namespace Method

def givenNames (m : Method) : List Text := m.paramNames.filter fun n => !isBlankName n

/-- the names made up for the other parameters -/
def argNames (m : Method) : List Text :=
  (m.params.zipIdx.filter fun p => isBlankName p.1.name).map fun p => argName p.2

/-- the receiver's name, if the method has a receiver with a name -/
def givenReceiver (m : Method) : List Text :=
  if m.receiverType = [] ∨ m.receiver = [] then [] else [m.receiver]

def madeUpReceiver (m : Method) : List Text :=
  if m.receiverType = [] ∨ m.receiver ≠ [] then [] else [thisName]

def ownNames (m : Method) : List Text := m.givenReceiver ++ m.givenNames

def madeUpNames (m : Method) (crosscut : Bool) : List Text :=
  m.madeUpReceiver ++ (m.argNames ++ if crosscut then [proceedName] else [])

end Method

def Wrapper.signatureNames (w : Wrapper) : List Text := (w.recv.toList ++ w.params).map Param.name

theorem receiverNames_eq (m : Method) :
    (receiverParam? m).toList.map Param.name = m.givenReceiver ++ m.madeUpReceiver := by
  unfold receiverParam? Method.givenReceiver Method.madeUpReceiver Method.receiverName
  by_cases htype : m.receiverType = []
  · simp [htype]
  · by_cases hname : m.receiver = [] <;> simp [htype, hname]

theorem namedParams_perm (m : Method) :
    ((namedParams m.params).map Param.name).Perm (m.givenNames ++ m.argNames) := by
  let named : Param × Nat → Bool := fun p => !isBlankName p.1.name
  let name : Param × Nat → Text := fun p => (namedParam p.1 p.2).name
  have hgiven : m.givenNames = (m.params.zipIdx.filter named).map name := by
    have hsame : (m.params.zipIdx.filter named).map name
        = (m.params.zipIdx.filter named).map fun p => p.1.name := by
      refine List.map_congr_left fun p hp => ?_
      have hnamed : isBlankName p.1.name = false := by simpa [named] using (List.mem_filter.1 hp).2
      show (namedParam p.1 p.2).name = p.1.name
      rw [namedParam, hnamed]
      rfl
    have hnames : m.paramNames = (m.params.zipIdx.map Prod.fst).map Param.name := by
      rw [List.zipIdx_map_fst]
      rfl
    rw [hsame, Method.givenNames, hnames, List.map_map, List.filter_map]
    rfl
  have hargs : m.argNames = (m.params.zipIdx.filter fun p => !named p).map name := by
    have hfilter : (m.params.zipIdx.filter fun p => !named p)
        = m.params.zipIdx.filter fun p => isBlankName p.1.name := by simp [named]
    rw [hfilter]
    refine List.map_congr_left fun p hp => ?_
    show argName p.2 = (namedParam p.1 p.2).name
    rw [namedParam, if_pos (List.mem_filter.1 hp).2]
    rfl
  rw [hgiven, hargs, ← List.map_append, namedParams, List.map_map]
  exact ((List.filter_append_perm named _).map name).symm

theorem signatureNames_eq (m : Method) (mode : Mode) (crosscut : Bool) :
    (wrapperHead m mode crosscut).signatureNames
      = (receiverParam? m).toList.map Param.name ++ ((namedParams m.params).map Param.name
        ++ if crosscut then [proceedName] else []) := by
  unfold Wrapper.signatureNames
  cases crosscut with
  | true => simp [wrapperHead]
  | false => cases mode <;> simp [wrapperHead]

theorem signatureNames_perm (m : Method) (mode : Mode) (crosscut : Bool) :
    (wrapperHead m mode crosscut).signatureNames.Perm (m.ownNames ++ m.madeUpNames crosscut) := by
  rw [signatureNames_eq, receiverNames_eq]
  refine (((namedParams_perm m).append_right _).append_left _).trans ?_
  rw [List.perm_iff_count]
  intro n
  simp only [Method.ownNames, Method.madeUpNames, List.count_append]
  omega

theorem signature_head {c : Contract} {mode : Mode} {oracle : Oracle} {sig : Signature}
    (h : Signature.of c mode oracle = .ok sig) :
    sig.crosscut = oracle.isCrosscut c.method ∧
      sig.wrapper.recv = (wrapperHead c.method mode sig.crosscut).recv ∧
      sig.wrapper.params = (wrapperHead c.method mode sig.crosscut).params := by
  simp only [Signature.of] at h
  split at h
  · cases h
  · cases h
    exact ⟨rfl, rfl, rfl⟩

/-! ### names that never clash -/

theorem argNames_nodup (m : Method) : m.argNames.Nodup := by
  have hindices : (m.params.zipIdx.map Prod.snd).Nodup := by
    rw [List.zipIdx_map_snd]
    exact List.nodup_range'
  have hsub : ((m.params.zipIdx.filter fun p => isBlankName p.1.name).map Prod.snd).Nodup :=
    hindices.sublist (List.filter_sublist.map _)
  have hmap := hsub.map argName_injective
  rw [List.map_map] at hmap
  exact hmap

theorem mem_argNames {m : Method} {n : Text} (h : n ∈ m.argNames) : ∃ i, n = argName i := by
  obtain ⟨p, -, rfl⟩ := List.mem_map.1 h
  exact ⟨p.2, rfl⟩

theorem mem_madeUpReceiver {m : Method} {n : Text} (h : n ∈ m.madeUpReceiver) : n = thisName := by
  unfold Method.madeUpReceiver at h
  split at h
  · cases h
  · exact List.mem_singleton.1 h

/-- a made-up name is that of the receiver, of a parameter or of what a wrapper proceeds with -/
theorem mem_madeUpNames {m : Method} {crosscut : Bool} {n : Text} (h : n ∈ m.madeUpNames crosscut) :
    n = thisName ∨ (∃ i, n = argName i) ∨ n = proceedName := by
  rcases List.mem_append.1 h with h | h
  · exact .inl (mem_madeUpReceiver h)
  rcases List.mem_append.1 h with h | h
  · exact .inr (.inl (mem_argNames h))
  · cases crosscut with
    | false => cases h
    | true => exact .inr (.inr (List.mem_singleton.1 h))

theorem madeUpNames_nodup (m : Method) (crosscut : Bool) : (m.madeUpNames crosscut).Nodup := by
  have hreceiver : m.madeUpReceiver.Nodup := by
    unfold Method.madeUpReceiver
    split <;> decide
  have hothers : (m.argNames ++ if crosscut then [proceedName] else []).Nodup := by
    cases crosscut with
    | false =>
      show (m.argNames ++ []).Nodup
      rw [List.append_nil]
      exact argNames_nodup m
    | true =>
      show (m.argNames ++ [proceedName]).Nodup
      refine List.nodup_append'.2 ⟨argNames_nodup m, List.nodup_singleton _, fun n hn hlast => ?_⟩
      obtain ⟨i, rfl⟩ := mem_argNames hn
      exact argName_ne i (by decide) (List.mem_singleton.1 hlast)
  refine List.nodup_append'.2 ⟨hreceiver, hothers, fun n hn hother => ?_⟩
  rw [mem_madeUpReceiver hn] at hother
  rcases List.mem_append.1 hother with h | h
  · obtain ⟨i, hi⟩ := mem_argNames h
    exact argName_ne i (by decide) hi.symm
  · cases crosscut with
    | false => cases h
    | true => exact absurd h (by decide)

/-- the variables for results and for a caught signal -/
def Signature.reserved (sig : Signature) : List Text := sig.assigned ++ [caughtVar]

theorem reserved_sublist (sig : Signature) :
    sig.reserved.Sublist [resultVar, errorVar, caughtVar] := by
  unfold Signature.reserved Signature.assigned
  split <;> split <;> decide

theorem reserved_nodup (sig : Signature) : sig.reserved.Nodup :=
  List.Nodup.sublist (reserved_sublist sig) (by decide)

theorem madeUpNames_disjoint (m : Method) (crosscut : Bool) (sig : Signature) :
    (m.madeUpNames crosscut).Disjoint sig.reserved := by
  intro n hn hreserved
  have hmem : n ∈ [resultVar, errorVar, caughtVar] := (reserved_sublist sig).subset hreserved
  rcases mem_madeUpNames hn with rfl | ⟨i, rfl⟩ | rfl
  · exact absurd hmem (by decide)
  · have hstem : ∀ x ∈ [resultVar, errorVar, caughtVar], x.take 6 ≠ ("racArg" : Text) := by decide
    exact argName_ne i (hstem _ hmem) rfl
  · exact absurd hmem (by decide)

/-! ### declarations -/

def namesOf (decls : List Text) : List Text := (decls.map declaredName).filter (· != [])

theorem namesOf_append (ds es : List Text) : namesOf (ds ++ es) = namesOf ds ++ namesOf es := by
  rw [namesOf, List.map_append, List.filter_append]
  rfl

def declareTexts (ss : List Stmt) : List Text :=
  (ss.filter fun s => s.action.kind = .declare).map fun s => s.action.text

theorem declareTexts_append (ss ts : List Stmt) :
    declareTexts (ss ++ ts) = declareTexts ss ++ declareTexts ts := by
  rw [declareTexts, List.filter_append, List.map_append]
  rfl

namespace Wrapper

def declaredNames (w : Wrapper) : List Text := namesOf (declareTexts w.stmts)

/-- the names of receiver and parameters, the variable of a caught signal, and the names that the
statements declare -/
def scopeNames (w : Wrapper) : List Text := w.signatureNames ++ caughtVar :: w.declaredNames

end Wrapper

def Signature.declarations (sig : Signature) : List Text :=
  (if sig.resultType = [] then [] else ["var " ++ resultVar ++ " " ++ sig.resultType])
    ++ if sig.errResult then ["var " ++ errorVar ++ " error"] else []

theorem namesOf_signature (sig : Signature) : namesOf sig.declarations = sig.assigned := by
  have hresult : declaredName ("var " ++ resultVar ++ " " ++ sig.resultType) = resultVar := by
    have hdeclares : Declares ("var " ++ resultVar ++ " " ++ sig.resultType) resultVar :=
      ⟨plainName_of_decide (by decide), [], "var ", " " ++ sig.resultType, rfl, by simp,
        fun c hc => by cases hc; decide, .inr ⟨[], rfl, by simp⟩⟩
    exact hdeclares.declaredName
  have herror : declaredName ("var " ++ errorVar ++ " error") = errorVar := by decide
  unfold Signature.declarations Signature.assigned
  rw [namesOf_append]
  congr 1
  · split
    · rfl
    · rw [namesOf, List.map_singleton, hresult]
      rfl
  · split
    · rw [namesOf, List.map_singleton, herror]
      rfl
    · rfl

theorem declareTexts_flatMap {α : Type} {g : α → List Stmt} {l : List α}
    (h : ∀ x ∈ l, declareTexts (g x) = []) : declareTexts (l.flatMap g) = [] := by
  induction l with
  | nil => rfl
  | cons x l ih =>
    rw [List.flatMap_cons, declareTexts_append, h x List.mem_cons_self,
      ih fun y hy => h y (List.mem_cons_of_mem x hy)]
    rfl

theorem declareTexts_closureStmts (phase : Phase) (x : Expansion) :
    declareTexts (closureStmts phase x) = [] := by
  rw [closureStmts]
  induction x.decls with
  | nil => rfl
  | cons d ds ih => exact ih

theorem declareTexts_captureStmts (phase : Phase) (x : Expansion) :
    declareTexts (captureStmts phase x) = [] := by
  rw [captureStmts, declareTexts_append, declareTexts_closureStmts]
  rfl

theorem declareTexts_checkStmts (phase : Phase) (signal : ViolationKind) (p : CheckPiece) :
    declareTexts (checkStmts phase signal p) = [] := by
  rw [checkStmts, declareTexts_append, declareTexts_closureStmts]
  rfl

theorem declareTexts_declareStmts (ds : List Text) : declareTexts (ds.map declareStmt) = ds := by
  induction ds with
  | nil => rfl
  | cons d ds ih =>
    show d :: declareTexts (ds.map declareStmt) = d :: ds
    rw [ih]

theorem declareTexts_useStmts (ns : List Text) : declareTexts (ns.map useStmt) = [] := by
  induction ns with
  | nil => rfl
  | cons n ns ih => exact ih

theorem declareTexts_declarations (t : WrapperTexts) (sig : Signature) (plan : Plan) :
    declareTexts (t.declarations sig plan)
      = sig.declarations ++ plan.decls.map (rename sig.renames) := by
  have hdecls : declareTexts (plan.decls.map fun d => declareStmt (rename sig.renames d))
      = plan.decls.map (rename sig.renames) := by
    have h := declareTexts_declareStmts (plan.decls.map (rename sig.renames))
    rw [List.map_map] at h
    exact h
  rw [WrapperTexts.declarations, declareTexts_append, declareTexts_append, declareTexts_append,
    declareTexts_useStmts, hdecls, List.append_nil, Signature.declarations]
  congr 2
  · split <;> rfl
  · split <;> rfl

theorem declareTexts_stmts (t : WrapperTexts) (sig : Signature) (plan : Plan)
    (family : ViolationFamily) :
    declareTexts (t.stmts sig plan family)
      = sig.declarations ++ plan.decls.map (rename sig.renames) := by
  have hreturn : declareTexts (WrapperTexts.returnStmts sig) = [] := by
    unfold WrapperTexts.returnStmts
    split <;> rfl
  rw [WrapperTexts.stmts]
  simp only [declareTexts_append, declareTexts_declarations, hreturn, List.append_nil,
    declareTexts_flatMap fun x _ => declareTexts_captureStmts _ x,
    declareTexts_flatMap fun p _ => declareTexts_checkStmts _ _ p]
  show _ ++ [] = _
  rw [List.append_nil]

theorem declaredNames_synthesize {c : Contract} {mode : Mode} {oracle : Oracle} {w : Wrapper}
    {family : ViolationFamily} {sig : Signature} {plan : Plan} {t : WrapperTexts}
    (h : SynthesisSteps c mode oracle w family sig plan t) :
    w.declaredNames = sig.assigned ++ namesOf (plan.decls.map (rename sig.renames)) := by
  have hdecls : declareTexts w.stmts = sig.declarations ++ plan.decls.map (rename sig.renames) := by
    rw [h.wrapper_eq]
    exact declareTexts_stmts t sig plan family
  rw [Wrapper.declaredNames, hdecls, namesOf_append, namesOf_signature]

/-! ### temporaries -/

namespace Contract

def oldVariables (c : Contract) : List OldVar := ((Plan.oldVarsInOrder c).map Prod.snd).dedup

def variableNames (c : Contract) (f : Renaming) : List Text :=
  namesOf (c.oldVariables.map fun v => rename f v.decl)

def expressionNames (c : Contract) (f : Renaming) : List Text :=
  namesOf ((c.preExprDecls.map Plan.preExprDecl ++ c.pre.indices.flatMap c.oldExprDecls.list).map
    (rename f))

end Contract

section

variable {c : Contract} {oracle : Oracle} {plan : Plan} {f : Renaming}

/-- old variables of one name that differ are an error -/
theorem names_bindings_nodup (h : Plan.extract c oracle = .ok plan) :
    ((plan.bindings.map Binding.var).map OldVar.name).Nodup := by
  have hbinds := Plan.binds_extract h
  have hnames : (plan.bindings.map Binding.var).map OldVar.name
      = plan.bindings.map Binding.name := by
    rw [List.map_map]
    exact List.map_congr_left fun b hb => (hbinds.source b hb).2.1.symm
  rw [hnames]
  exact hbinds.nodup

theorem bindings_perm (h : Plan.extract c oracle = .ok plan) :
    (plan.bindings.map Binding.var).Perm c.oldVariables := by
  have hbinds := Plan.binds_extract h
  have hnodup := (names_bindings_nodup h).of_map
  refine (List.perm_ext_iff_of_nodup hnodup (List.nodup_dedup _)).2 fun v => ?_
  rw [List.mem_dedup]
  constructor
  · intro hv
    obtain ⟨b, hb, rfl⟩ := List.mem_map.1 hv
    exact List.mem_map.2 ⟨_, (hbinds.source b hb).1, rfl⟩
  · intro hv
    obtain ⟨e, he, rfl⟩ := List.mem_map.1 hv
    obtain ⟨b, hb, hvar⟩ := hbinds.bound e he
    exact List.mem_map.2 ⟨b, hb, hvar⟩

/-- a plan declares each old variable once, and the names of the expressions -/
theorem namesOf_decls (h : Plan.extract c oracle = .ok plan) (f : Renaming) :
    (namesOf (plan.decls.map (rename f))).Perm (c.variableNames f ++ c.expressionNames f) := by
  have hdecls : plan.decls = plan.bindings.map (fun b => b.var.decl)
      ++ (c.preExprDecls.map Plan.preExprDecl ++ c.pre.indices.flatMap c.oldExprDecls.list) := by
    obtain ⟨hplan, -, -⟩ := Plan.extract_eq_ok h
    rw [hplan, ← List.append_assoc]
    rfl
  have hvars : (namesOf ((plan.bindings.map fun b => b.var.decl).map (rename f))).Perm
      (c.variableNames f) := by
    have hperm := (((bindings_perm h).map fun v => rename f v.decl).map declaredName).filter (· != [])
    rw [List.map_map, List.map_map] at hperm
    rw [namesOf, List.map_map, List.map_map]
    exact hperm
  rw [hdecls, List.map_append, namesOf_append]
  exact hvars.append_right _

/-- no two old variables have one name, unless a declaration declares another name than its own -/
theorem variableNames_nodup (h : Plan.extract c oracle = .ok plan)
    (hvars : ∀ v ∈ c.oldVariables, declaredName (rename f v.decl) = v.name) :
    (c.variableNames f).Nodup := by
  have hnames : (c.oldVariables.map fun v => rename f v.decl).map declaredName
      = c.oldVariables.map OldVar.name := by
    rw [List.map_map]
    exact List.map_congr_left hvars
  have hnodup : (c.oldVariables.map OldVar.name).Nodup :=
    ((bindings_perm h).map OldVar.name).nodup_iff.1 (names_bindings_nodup h)
  rw [Contract.variableNames, namesOf, hnames]
  exact hnodup.filter _

end

/-! ### when all names are apart -/

/-- what it takes for the names in the scope of a wrapper to differ, beyond what always holds -/
structure NamesApart (c : Contract) (sig : Signature) : Prop where
  /-- no name of the signature is made up or stands for a result or a signal -/
  signature : c.method.ownNames.Disjoint (c.method.madeUpNames sig.crosscut ++ sig.reserved)
  variable_nodup : (c.variableNames sig.renames).Nodup
  expression_nodup : (c.expressionNames sig.renames).Nodup
  /-- no old variable has a name declared for an expression -/
  expression : (c.variableNames sig.renames).Disjoint (c.expressionNames sig.renames)
  /-- no temporary has any of the other names -/
  temporary : (c.method.ownNames ++ (c.method.madeUpNames sig.crosscut ++ sig.reserved)).Disjoint
    (c.variableNames sig.renames ++ c.expressionNames sig.renames)

instance (l m : List Text) : Decidable (l.Disjoint m) :=
  decidable_of_iff (∀ a ∈ l, ∀ b ∈ m, a ≠ b)
    ⟨fun h a ha hb => h a ha a hb rfl, fun h _ ha _ hb hab => h ha (hab ▸ hb)⟩

instance (c : Contract) (sig : Signature) : Decidable (NamesApart c sig) :=
  decidable_of_iff
    (c.method.ownNames.Disjoint (c.method.madeUpNames sig.crosscut ++ sig.reserved) ∧
      (c.variableNames sig.renames).Nodup ∧ (c.expressionNames sig.renames).Nodup ∧
      (c.variableNames sig.renames).Disjoint (c.expressionNames sig.renames) ∧
      (c.method.ownNames ++ (c.method.madeUpNames sig.crosscut ++ sig.reserved)).Disjoint
        (c.variableNames sig.renames ++ c.expressionNames sig.renames))
    ⟨fun h => ⟨h.1, h.2.1, h.2.2.1, h.2.2.2.1, h.2.2.2.2⟩,
      fun h => ⟨h.signature, h.variable_nodup, h.expression_nodup, h.expression, h.temporary⟩⟩

section

variable {c : Contract} {mode : Mode} {oracle : Oracle} {w : Wrapper} {family : ViolationFamily}
  {sig : Signature} {plan : Plan} {t : WrapperTexts}

/-- the names in scope: those of the method, those made up, the variables for results and for a
signal, and the temporaries -/
theorem scopeNames_perm (h : SynthesisSteps c mode oracle w family sig plan t) :
    w.scopeNames.Perm (c.method.ownNames ++ (c.method.madeUpNames sig.crosscut ++ sig.reserved)
      ++ (c.variableNames sig.renames ++ c.expressionNames sig.renames)) := by
  have hhead : w.signatureNames = (wrapperHead c.method mode sig.crosscut).signatureNames := by
    obtain ⟨-, hrecv, hparams⟩ := signature_head h.sig_eq
    rw [h.wrapper_eq, Wrapper.signatureNames, hrecv, hparams]
    rfl
  have htemps := namesOf_decls h.plan_eq sig.renames
  rw [Wrapper.scopeNames, hhead, declaredNames_synthesize h]
  refine ((signatureNames_perm c.method mode sig.crosscut).append
    ((htemps.append_left sig.assigned).cons caughtVar)).trans ?_
  rw [List.perm_iff_count]
  intro n
  simp only [Signature.reserved, List.count_append, List.count_cons, List.count_nil]
  omega

theorem nodup_iff_namesApart (c : Contract) (sig : Signature) (hown : c.method.ownNames.Nodup) :
    (c.method.ownNames ++ (c.method.madeUpNames sig.crosscut ++ sig.reserved)
      ++ (c.variableNames sig.renames ++ c.expressionNames sig.renames)).Nodup
        ↔ NamesApart c sig := by
  have hmade : (c.method.madeUpNames sig.crosscut ++ sig.reserved).Nodup :=
    List.nodup_append'.2 ⟨madeUpNames_nodup _ _, reserved_nodup sig, madeUpNames_disjoint _ _ sig⟩
  constructor
  · intro h
    obtain ⟨hmethod, htemps, hapart⟩ := List.nodup_append'.1 h
    obtain ⟨-, -, hsignature⟩ := List.nodup_append'.1 hmethod
    obtain ⟨hvars, hexprs, hexpr⟩ := List.nodup_append'.1 htemps
    exact ⟨hsignature, hvars, hexprs, hexpr, hapart⟩
  · intro h
    have hmethod := List.nodup_append'.2 ⟨hown, hmade, h.signature⟩
    have htemps := List.nodup_append'.2 ⟨h.variable_nodup, h.expression_nodup, h.expression⟩
    exact List.nodup_append'.2 ⟨hmethod, htemps, h.temporary⟩

/-- declarations that do not speak of the object are not renamed -/
theorem declaredNames_eq_temps (h : SynthesisSteps c mode oracle w family sig plan t)
    (hobject : ∀ d ∈ plan.decls, objectName ∉ namesIn d) :
    w.declaredNames = sig.assigned ++ plan.temps := by
  have hsame : ∀ d ∈ plan.decls, rename sig.renames d = d := by
    intro d hd
    apply rename_eq_self
    intro n hn
    rcases renames_signature h.sig_eq with hf | hf
    · rw [hf]
      rfl
    · rw [hf, Option.eq_none_iff_forall_ne_some]
      intro x hx
      obtain ⟨rfl, -⟩ := get?_objectRenaming hx
      exact hobject d hd hn
  rw [declaredNames_synthesize h, List.map_congr_left hsame, List.map_id']
  rfl

/-- the names in the scope of a wrapper, which are those of the plan's temporaries among others; two
old variables of one name are found out, and no other clash is -/
theorem scopeNames_nodup_iff (h : synthesize c mode oracle = .ok w)
    (hown : c.method.ownNames.Nodup) :
    ∃ sig plan, Signature.of c mode oracle = .ok sig ∧ Plan.extract c oracle = .ok plan ∧
      ((∀ d ∈ plan.decls, objectName ∉ namesIn d) →
        w.declaredNames = sig.assigned ++ plan.temps) ∧
      ((∀ v ∈ c.oldVariables, declaredName (rename sig.renames v.decl) = v.name) →
        (c.variableNames sig.renames).Nodup) ∧
      (w.scopeNames.Nodup ↔ NamesApart c sig) := by
  obtain ⟨family, sig, plan, t, hsteps⟩ := synthesize_eq_ok h
  refine ⟨sig, plan, hsteps.sig_eq, hsteps.plan_eq, declaredNames_eq_temps hsteps,
    variableNames_nodup hsteps.plan_eq, ?_⟩
  rw [(scopeNames_perm hsteps).nodup_iff]
  exact nodup_iff_namesApart c sig hown

end

/-- a method whose receiver and two of whose parameters have no names, with all sorts of
temporaries -/
def drawContract : Contract where
  method := {
    name := "Draw", owner := "Stack", pointerReceiver := true
    params := [⟨"n", "int", false⟩, ⟨"_", "int", false⟩, ⟨[], "string", false⟩]
    returnType := "int", returnsError := true, visibility := .of .pub }
  pre := .set .empty 0 "racOldOpen"
  post := .set .empty 0 "racResult == racOldSize - n && top == racOldTop"
  oldVars := .set .empty 0
    [⟨"racOldSize int/racOldSize = racThis.size"⟩, ⟨"top int/top = racThis.top()"⟩]
  oldExprDecls := .set .empty 0 ["racOldTop int"]
  oldExprs := .set .empty 0 ["racOldTop = racThis.top()"]
  preExprDecls := ["racOldOpen"]
  preExprs := ["racOldOpen = racThis.open"]

theorem scopeNames_nodup_draw :
    ∃ w sig, drawContract.method.ownNames.Nodup ∧
      synthesize drawContract .direct (.scanning []) = .ok w ∧
      Signature.of drawContract .direct (.scanning []) = .ok sig ∧ NamesApart drawContract sig ∧
      w.scopeNames.Nodup := by
  have hown : drawContract.method.ownNames.Nodup := by decide +kernel
  obtain ⟨w, hw, -⟩ := exists_eq_ok (p := fun _ => true)
    (show (synthesize drawContract .direct (.scanning [])).toOption.any _ = true by
      -- the kernel is slow in reading the characters of a literal, so they are put in its place
      unfold drawContract
      repeat rw [String.toList_ofList]
      decide +kernel)
  obtain ⟨s, hs, happart⟩ := exists_eq_ok (show ((Signature.of drawContract .direct
    (.scanning [])).toOption.any fun sig => NamesApart drawContract sig) = true by
      unfold drawContract
      repeat rw [String.toList_ofList]
      decide +kernel)
  obtain ⟨sig, plan, hsig, -, -, -, hnodup⟩ := scopeNames_nodup_iff hw hown
  cases hs.symm.trans hsig
  have happart := of_decide_eq_true happart
  exact ⟨w, s, hown, hw, hs, happart, hnodup.2 happart⟩

/-- an old variable that has the name of a parameter -/
def shadowedPushContract : Contract where
  method := {
    name := "Push", owner := "Stack", receiver := "s", params := [⟨"n", "int", false⟩]
    visibility := .of .pub }
  pre := .set .empty 0 "true"
  post := .set .empty 0 "s.size == n + 1"
  oldVars := .set .empty 0 [⟨"n int/n = s.size"⟩]

theorem scopeNames_shadowed_push :
    ∃ w, shadowedPushContract.method.ownNames.Nodup ∧
      synthesize shadowedPushContract .direct (.scanning []) = .ok w ∧ ¬w.scopeNames.Nodup := by
  have hclash : ((synthesize shadowedPushContract .direct (.scanning [])).toOption.any fun w =>
      ¬w.scopeNames.Nodup) = true := by
    decide +kernel
  obtain ⟨w, hw, hclash⟩ := exists_eq_ok hclash
  exact ⟨w, by decide +kernel, hw, of_decide_eq_true hclash⟩

end ContractChecks
