import ContractChecks.Proofs.RenamedText

/-!
# Guarded captures of a composed contract

Each contract guards its captures by its own preconditions, and only if it has several spec cases.
A composition renames what it gets and guards nothing more, so a capture of the composed contract is
guarded exactly if the contract it comes from has guarded it.

* `Contract.CapturesGuarded c`: in every case whose precondition can fail, the captures run only if
  it holds, those of variables that are read early apart;
* `Contract.Written c`: names, literals and captures are written as declarations write them;
* `Contract.GuardsCase c i`: the contract guards the captures of its case `i` itself;
* `sourcesOf own inherited`: the contracts of a composition, each with its renaming;
* `Contract.withGuard c g i`: an entry of case `i`, changed by the guard of the case;
* `inheritedLevels_guardCaptures`: guards do not change how inherited contracts are renamed;
* `capturesGuarded_caseAt`: the captures of one case, renamed;
* `capturesGuarded_compose_iff`: when all captures of a composed contract are guarded.
-/

namespace ContractChecks

/-! ### captures under a guard -/

/-- the name of a variable that records whether a spec case applied -/
def IsCaseName (n : Text) : Prop := ∃ i : Int, n = Merge.caseName i

/-- in every spec case whose precondition can fail, captures run only if it holds: all those of old
expressions, and of the old variables those that no precondition or pre-expression reads -/
def Contract.CapturesGuarded (c : Contract) : Prop :=
  ∀ i pre, c.caseGuard? i = some pre →
    (∀ e ∈ c.oldExprs.list i, GuardedWith pre e) ∧
      ∀ v ∈ c.oldVars.list i, ¬IsCaseName v.name → v.capture ≠ [] → c.readsEarly v = false →
        GuardedWith pre v.capture

/-- the same for one case, where `early` tells which variables are read early -/
def SpecCase.CapturesGuarded (early : OldVar → Bool) (k : SpecCase) : Prop :=
  assertable k.pre = true →
    (∀ e ∈ k.oldExprs.getD [], GuardedWith k.pre e) ∧
      ∀ v ∈ k.oldVars.getD [], ¬IsCaseName v.name → v.capture ≠ [] → early v = false →
        GuardedWith k.pre v.capture

theorem Contract.HasCases.capturesGuarded_iff {c : Contract} {ks : List SpecCase}
    (h : c.HasCases ks) :
    c.CapturesGuarded ↔ ∀ k ∈ ks, k.CapturesGuarded c.readsEarly := by
  have hguard : ∀ j pre, c.caseGuard? j = some pre ↔
      ∃ k, caseNumbered ks j = some k ∧ k.pre = pre ∧ assertable k.pre = true := by
    intro j pre
    rw [caseGuard?, h.pre, Option.filter_eq_some_iff, Option.map_eq_some_iff]
    constructor
    · rintro ⟨⟨k, hk, rfl⟩, ha⟩
      exact ⟨k, hk, rfl, ha⟩
    · rintro ⟨k, hk, rfl, ha⟩
      exact ⟨⟨k, hk, rfl⟩, ha⟩
  have hlists : ∀ {j k}, caseNumbered ks j = some k →
      c.oldExprs.list j = k.oldExprs.getD [] ∧ c.oldVars.list j = k.oldVars.getD [] := by
    intro j k hk
    unfold CaseTable.list
    rw [h.oldExprs, h.oldVars, hk]
    exact ⟨rfl, rfl⟩
  constructor
  · intro hall k hk ha
    obtain ⟨i, hi⟩ := List.mem_iff_getElem?.1 hk
    have hnum : caseNumbered ks i = some k := by rw [caseNumbered_natCast, hi]
    have hcase := hall i k.pre ((hguard i k.pre).2 ⟨k, hnum, rfl, ha⟩)
    rw [(hlists hnum).1, (hlists hnum).2] at hcase
    exact hcase
  · intro hall j pre hpre
    obtain ⟨k, hnum, rfl, ha⟩ := (hguard j pre).1 hpre
    obtain ⟨i, rfl, hi⟩ := caseNumbered_eq_some hnum
    rw [(hlists hnum).1, (hlists hnum).2]
    exact hall k (List.mem_of_getElem? hi) ha

/-- the variable that records whether a case applied is the only capture that a guard adds -/
theorem SpecCase.capturesGuarded_guarded (early : OldVar → Bool) (k : SpecCase) (i : Nat) :
    (k.guarded i).CapturesGuarded early ↔ k.CapturesGuarded early := by
  unfold SpecCase.guarded
  by_cases hg : k.isGuarded = true
  · rw [if_pos hg]
    refine imp_congr_right fun _ => and_congr_right fun _ => ?_
    show (∀ v ∈ k.oldVars.getD [] ++ [caseFlag i k.pre], _) ↔ _
    constructor
    · exact fun h v hv => h v (List.mem_append_left _ hv)
    · intro h v hv hname
      rcases List.mem_append.1 hv with hv | hv
      · exact h v hv hname
      · rw [List.mem_singleton.1 hv, name_caseFlag] at hname
        exact absurd ⟨i, rfl⟩ hname
  · rw [if_neg hg]

theorem capturesGuarded_guardedCases (early : OldVar → Bool) (ks : List SpecCase) :
    (∀ k ∈ guardedCases ks, k.CapturesGuarded early) ↔ ∀ k ∈ ks, k.CapturesGuarded early := by
  have hfrom : ∀ i, (∀ k ∈ guardedFrom i ks, k.CapturesGuarded early) ↔
      ∀ k ∈ ks, k.CapturesGuarded early := by
    induction ks with
    | nil => exact fun i => Iff.rfl
    | cons k ks ih =>
      intro i
      rw [guardedFrom_cons, List.forall_mem_cons, List.forall_mem_cons,
        SpecCase.capturesGuarded_guarded, ih]
  unfold guardedCases
  split
  · exact hfrom 0
  · exact Iff.rfl

/-! ### old variables as they are written -/

namespace OldVar

def renamed (f : Renaming) (v : OldVar) : OldVar := ⟨rename f v.text⟩

/-- a variable name with its type and, if the value is captured, a slash and an assignment -/
structure Written (v : OldVar) : Prop where
  name : VariableName (v.text.takeWhile isNamePart)
  parts : ∀ p ∈ Text.cut? "/" v.text, LiteralsClosed p.1 ∧ Assigns p.2

instance (v : OldVar) : Decidable v.Written :=
  decidable_of_iff (VariableName (v.text.takeWhile isNamePart) ∧
      ∀ p ∈ Text.cut? "/" v.text, LiteralsClosed p.1 ∧ Assigns p.2)
    ⟨fun h => ⟨h.1, h.2⟩, fun h => ⟨h.1, h.2⟩⟩

theorem capture_of_not_mem {s : Text} (h : '/' ∉ s) : OldVar.capture ⟨s⟩ = [] := by
  unfold capture split
  rw [cut?_of_not_mem h]

theorem capture_append {a : Text} (h : '/' ∉ a) (b : Text) :
    OldVar.capture ⟨a ++ '/' :: b⟩ = b.trim := by
  unfold capture split
  rw [cut?_append_slash h]

/-- a text that begins with a variable name still does when it is trimmed -/
theorem trim_name {n rest : Text} (hn : VariableName n) (hrest : EndsName rest) :
    ∃ rest', (n ++ rest).trim = n ++ rest' ∧ EndsName rest' :=
  ⟨Text.trimEnd rest, hn.isSolid.trim_append rest, hrest.mono (trimEnd_le rest)⟩

namespace Written

variable {v : OldVar}

theorem declares (hv : v.Written) : Declares v.text v.name ∧ VariableName v.name := by
  have hdeclares := declares_append hv.name.toPlainName (endsName_dropWhile v.text)
  rw [List.takeWhile_append_dropWhile] at hdeclares
  rw [hdeclares.oldVarName]
  exact ⟨hdeclares, hv.name⟩

/-- either nothing is captured, or a slash stands between declaration and assignment -/
theorem slash_cases (hv : v.Written) :
    '/' ∉ v.text ∨
      ∃ a b, v.text = a ++ '/' :: b ∧ '/' ∉ a ∧ LiteralsClosed a ∧ Assigns b := by
  by_cases hslash : '/' ∈ v.text
  · obtain ⟨a, b, htext, ha⟩ := List.eq_append_cons_of_mem hslash
    have hcut : Text.cut? "/" v.text = some (a, b) := by rw [htext, cut?_append_slash ha]
    obtain ⟨hclosed, hassigns⟩ := hv.parts _ hcut
    exact .inr ⟨a, b, htext, ha, hclosed, hassigns⟩
  · exact .inl hslash

/-- without a guard, the renamed capture is still an assignment -/
theorem capture_renamed (hv : v.Written) {f : Renaming} (hf : f.Plain) :
    (v.capture = [] ∧ (v.renamed f).capture = []) ∨
      (v.capture ≠ [] ∧ ∃ n rest, (v.renamed f).capture = n ++ rest ∧ VariableName n ∧
        EndsName rest) := by
  obtain ⟨text⟩ := v
  rcases hv.slash_cases with hslash | ⟨a, b, rfl, ha, hclosed, hb⟩
  · exact .inl ⟨capture_of_not_mem hslash, capture_of_not_mem (hf.slash_not_mem hslash)⟩
  · right
    obtain ⟨n, rest, hrename, hn, hrest⟩ := hb.rename_eq hf
    obtain ⟨rest', htrim, hrest'⟩ := trim_name hn hrest
    constructor
    · -- an assignment is not blank
      obtain ⟨rest, hown, -⟩ := trim_name hb.target (endsName_dropWhile b)
      rw [List.takeWhile_append_dropWhile] at hown
      rw [capture_append ha, hown]
      exact List.append_ne_nil_of_left_ne_nil hb.target.toPlainName.ne_nil _
    · refine ⟨n, rest', ?_, hn, hrest'⟩
      unfold renamed
      rw [rename_append_mark f hclosed (by decide) (by decide),
        capture_append (hf.slash_not_mem ha), hrename, htrim]

end Written

end OldVar

theorem trim_guardedBy (pre stmt : Text) : (guardedBy pre stmt).trim = guardedBy pre stmt := by
  have hsolid : Solid (guardedBy pre stmt) := by
    constructor
    · exact ⟨'i', _, rfl, by decide⟩
    · refine ⟨("if " : Text) ++ pre ++ (" \x7b\n" : Text) ++ stmt ++ ("\n" : Text), '\x7d', ?_,
        by decide⟩
      show ("if " : Text) ++ pre ++ (" \x7b\n" : Text) ++ stmt ++ (("\n" : Text) ++ ['\x7d']) = _
      simp only [List.append_assoc]
  have htrim := hsolid.trim_append []
  rw [List.append_nil] at htrim
  rw [htrim]
  exact List.append_nil _

/-! ### one contract with its guards -/

namespace Contract

/-- the contract guards the captures of its spec case `i` -/
def GuardsCase (c : Contract) (i : Int) : Prop := 2 ≤ c.pre.size ∧ (c.caseGuard? i).isSome = true

instance (c : Contract) (i : Int) : Decidable (c.GuardsCase i) :=
  inferInstanceAs (Decidable (2 ≤ c.pre.size ∧ (c.caseGuard? i).isSome = true))

/-- names, literals and captures are written as declarations write them -/
structure Written (c : Contract) : Prop where
  signature : ∀ a ∈ c.method.receiver :: c.method.paramNames, a = [] ∨ VariableName a
  temporaries : ∀ t ∈ c.temporaries, VariableName t
  pre : ∀ e ∈ c.pre.entries, LiteralsClosed e.2
  oldExprs : ∀ e ∈ c.oldExprs.entries, ∀ s ∈ e.2, Assigns s
  oldVars : ∀ e ∈ c.oldVars.entries, ∀ v ∈ e.2, v.Written

theorem readsEarly_congr (c : Contract) {v w : OldVar} (h : v.name = w.name) :
    c.readsEarly v = c.readsEarly w := by
  unfold readsEarly Oracle.readEarly
  rw [h]

theorem declares_guardOldVar (c : Contract) {v : OldVar} (hv : v.Written) (pre : Text) :
    Declares (c.guardOldVar pre v).text v.name := by
  unfold guardOldVar
  split
  · exact hv.declares.1
  · have hslash : EndsName (['/'] ++ guardedBy pre v.capture) := by
      intro d hd
      cases hd
      decide
    have hdecl := hv.declares.1.decl.append hslash
    rw [← List.append_assoc] at hdecl
    exact hdecl

/-- a variable that is captured late has its capture guarded, by the renamed precondition -/
theorem capture_renamed_guardOldVar {c : Contract} {v : OldVar} (hv : v.Written) {f : Renaming}
    (hf : f.Plain) {pre : Text} (hpre : LiteralsClosed pre) (hlate : c.readsEarly v = false)
    (hcapture : v.capture ≠ []) :
    ((c.guardOldVar pre v).renamed f).capture = guardedBy (rename f pre) (rename f v.capture) := by
  obtain ⟨text⟩ := v
  rcases hv.slash_cases with hslash | ⟨a, b, rfl, ha, hclosed, hb⟩
  · exact absurd (OldVar.capture_of_not_mem hslash) hcapture
  have hdecl : '/' ∉ OldVar.decl ⟨a ++ '/' :: b⟩ ∧
      LiteralsClosed (OldVar.decl ⟨a ++ '/' :: b⟩) := by
    have htrim : '/' ∉ a.trim := fun hmem => ha (Text.mem_of_mem_trim hmem)
    have hvar : LiteralsClosed ("var " : Text) := rfl
    unfold OldVar.decl OldVar.split
    rw [cut?_append_slash ha]
    dsimp only
    split
    · exact ⟨htrim, hclosed.trim⟩
    · refine ⟨?_, hvar.append hclosed.trim⟩
      rw [List.mem_append, not_or]
      exact ⟨by decide, htrim⟩
  have hstmt : LiteralsClosed (OldVar.capture ⟨a ++ '/' :: b⟩) := by
    rw [OldVar.capture_append ha]
    exact hb.closed.trim
  have hguard : c.guardOldVar pre ⟨a ++ '/' :: b⟩
      = ⟨OldVar.decl ⟨a ++ '/' :: b⟩ ++ ['/']
          ++ guardedBy pre (OldVar.capture ⟨a ++ '/' :: b⟩)⟩ := by
    unfold guardOldVar
    rw [hlate, Bool.false_or, if_neg (by simpa using hcapture)]
    rfl
  rw [hguard]
  unfold OldVar.renamed
  rw [List.append_assoc, List.singleton_append,
    rename_append_mark f hdecl.2 (by decide) (by decide),
    OldVar.capture_append (hf.slash_not_mem hdecl.1), rename_guardedBy hf hpre hstmt,
    trim_guardedBy]

/-! ### the tables of a guarded contract -/

/-- the precondition that guards the captures of a case: one that can fail, among several cases -/
def guardOf? (c : Contract) (i : Int) : Option Text :=
  if c.pre.size < 2 then none else c.caseGuard? i

/-- an entry of case `i`, changed by the guard of the case if there is one -/
def withGuard {β : Type} (c : Contract) (g : Text → β → β) (i : Int) (x : β) : β :=
  match c.guardOf? i with
  | some pre => g pre x
  | none => x

def guardVar (c : Contract) : Int → OldVar → OldVar := c.withGuard c.guardOldVar

theorem mapValues_withGuard {β : Type} (c : Contract) (g : Text → β → β) (t : CaseTable (List β)) :
    t.mapValues (fun i xs => xs.map (c.withGuard g i)) = if c.pre.size < 2 then t
      else t.mapValues fun i xs =>
        match c.caseGuard? i with
        | some pre => xs.map (g pre)
        | none => xs := by
  have hid : ∀ i, c.guardOf? i = none → c.withGuard g i = id := by
    intro i hi
    funext x
    rw [withGuard, hi]
    rfl
  split
  case isTrue hsize =>
    refine CaseTable.mapValues_id (fun i xs => ?_) t
    rw [hid i (if_pos hsize), List.map_id]
  case isFalse hsize =>
    congr 1
    funext i xs
    have hguard : c.guardOf? i = c.caseGuard? i := if_neg hsize
    cases hi : c.caseGuard? i with
    | none => rw [hid i (hguard.trans hi), List.map_id]
    | some pre =>
      refine List.map_congr_left fun x _ => ?_
      rw [withGuard, hguard, hi]

theorem oldExprs_guardCaptures (c : Contract) (i : Int) :
    c.guardCaptures.oldExprs.list i = (c.oldExprs.list i).map (c.withGuard guardedBy i) := by
  rw [← CaseTable.list_mapValues, mapValues_withGuard, guardCaptures]
  split <;> rfl

theorem oldVars_guardCaptures (c : Contract) (i : Int) :
    c.guardCaptures.oldVars.list i = (c.oldVars.list i).map (c.guardVar i) := by
  rw [← CaseTable.list_mapValues, guardVar, mapValues_withGuard, guardCaptures]
  split <;> rfl

section

variable {c : Contract} {i : Int} {pre : Text}

theorem guardsCase_iff (h : c.pre.get? i = some pre) :
    c.GuardsCase i ↔ 2 ≤ c.pre.size ∧ assertable pre = true := by
  unfold GuardsCase caseGuard?
  rw [h, Option.filter_some]
  by_cases ha : assertable pre = true
  · simp [ha]
  · simp [ha]

theorem withGuard_eq {β : Type} (h : c.pre.get? i = some pre) (g : Text → β → β) :
    c.withGuard g i = fun x => if c.GuardsCase i then g pre x else x := by
  have hcase : c.caseGuard? i = if assertable pre = true then some pre else none := by
    unfold caseGuard?
    rw [h, Option.filter_some]
  funext x
  unfold withGuard guardOf?
  by_cases hguards : c.GuardsCase i
  · obtain ⟨hsize, ha⟩ := (guardsCase_iff h).1 hguards
    rw [if_neg (Nat.not_lt.2 hsize), hcase, if_pos ha, if_pos hguards]
  · rw [if_neg hguards]
    by_cases hsize : c.pre.size < 2
    · rw [if_pos hsize]
    · have ha : ¬assertable pre = true := fun ha =>
        hguards ((guardsCase_iff h).2 ⟨Nat.not_lt.1 hsize, ha⟩)
      rw [if_neg hsize, hcase, if_neg ha]

theorem list_guardCaptures (h : c.pre.get? i = some pre) :
    c.guardCaptures.oldExprs.list i
        = (c.oldExprs.list i).map (fun e => if c.GuardsCase i then guardedBy pre e else e) ∧
      c.guardCaptures.oldVars.list i
        = (c.oldVars.list i).map (fun v => if c.GuardsCase i then c.guardOldVar pre v else v) := by
  rw [oldExprs_guardCaptures, oldVars_guardCaptures, guardVar, withGuard_eq h, withGuard_eq h]
  exact ⟨rfl, rfl⟩

theorem pre_guardCaptures (c : Contract) : c.guardCaptures.pre = c.pre := by
  unfold guardCaptures
  split <;> rfl

theorem method_guardCaptures (c : Contract) : c.guardCaptures.method = c.method := by
  unfold guardCaptures
  split <;> rfl

theorem temporaries_guardCaptures (hc : c.Written) :
    c.guardCaptures.temporaries = c.temporaries := by
  unfold guardCaptures
  split
  · rfl
  · unfold temporaries CaseTable.mapValues
    rw [List.flatMap_map]
    congr 2
    refine List.flatMap_congr fun e he => ?_
    dsimp only
    split
    · rw [List.map_map]
      refine List.map_congr_left fun v hv => ?_
      exact (c.declares_guardOldVar (hc.oldVars e he v hv) _).oldVarName
    · rfl

/-! ### one case of a guarded and renamed contract -/

/-- the variable with the guard that the contract puts on its capture -/
def guardedVar (c : Contract) (i : Int) (pre : Text) (v : OldVar) : OldVar :=
  if c.GuardsCase i then c.guardOldVar pre v else v

theorem name_guardedVar {v : OldVar} (hv : v.Written) {f : Renaming} (hf : f.Plain) (c : Contract)
    (i : Int) (pre : Text) : ((c.guardedVar i pre v).renamed f).name = (v.renamed f).name := by
  have hdeclares : Declares (c.guardedVar i pre v).text v.name := by
    unfold guardedVar
    split
    · exact c.declares_guardOldVar hv pre
    · exact hv.declares.1
  have hplain := (hf.image hv.declares.2).toPlainName
  rw [OldVar.renamed, OldVar.renamed, (hdeclares.rename hf.keepsWords hplain).oldVarName,
    (hv.declares.1.rename hf.keepsWords hplain).oldVarName]

/-- the contract guards a capture if it guards the case and reads the variable late; any other
variable stays as it is -/
theorem guardedVar_cases {v : OldVar} (hv : v.Written) {f : Renaming} (hf : f.Plain)
    (hpre : LiteralsClosed pre) :
    ((c.GuardsCase i ∧ c.readsEarly v = false) ∧ v.capture ≠ [] ∧
        ((c.guardedVar i pre v).renamed f).capture
          = guardedBy (rename f pre) (rename f v.capture)) ∨
      (¬((c.GuardsCase i ∧ c.readsEarly v = false) ∧ v.capture ≠ []) ∧
        c.guardedVar i pre v = v) := by
  by_cases hguards : c.GuardsCase i
  · have heq : c.guardedVar i pre v = c.guardOldVar pre v := if_pos hguards
    rw [heq]
    by_cases hlate : c.readsEarly v = false ∧ v.capture ≠ []
    · exact .inl ⟨⟨hguards, hlate.1⟩, hlate.2,
        capture_renamed_guardOldVar hv hf hpre hlate.1 hlate.2⟩
    · refine .inr ⟨fun h => hlate ⟨h.1.2, h.2⟩, if_pos ?_⟩
      by_cases hearly : c.readsEarly v = true
      · rw [hearly, Bool.true_or]
      · have hcapture : v.capture = [] := by
          by_contra hne
          exact hlate ⟨Bool.eq_false_iff.2 hearly, hne⟩
        rw [decide_eq_true hcapture, Bool.or_true]
  · exact .inr ⟨fun h => hguards h.1.1, if_neg hguards⟩

theorem capture_guardedVar_ne_nil {v : OldVar} (hv : v.Written) {f : Renaming} (hf : f.Plain)
    (hpre : LiteralsClosed pre) :
    ((c.guardedVar i pre v).renamed f).capture ≠ [] ↔ v.capture ≠ [] := by
  rcases guardedVar_cases (c := c) (i := i) hv hf hpre with ⟨-, hcapture, heq⟩ | ⟨-, heq⟩
  · rw [heq]
    exact iff_of_true (guardedBy_ne_nil _ _) hcapture
  · rw [heq]
    rcases hv.capture_renamed hf with ⟨hnone, hnone'⟩ | ⟨hcapture, n, rest, hrename, hn, -⟩
    · rw [hnone, hnone']
    · rw [hrename]
      exact iff_of_true (List.append_ne_nil_of_left_ne_nil hn.toPlainName.ne_nil _) hcapture

theorem guardedWith_guardedVar {v : OldVar} (hv : v.Written) {f : Renaming} (hf : f.Plain)
    (hpre : LiteralsClosed pre) (hcapture : v.capture ≠ []) :
    GuardedWith (rename f pre) ((c.guardedVar i pre v).renamed f).capture ↔
      c.GuardsCase i ∧ c.readsEarly v = false := by
  rcases guardedVar_cases (c := c) (i := i) hv hf hpre with ⟨hlate, -, heq⟩ | ⟨hnot, heq⟩
  · rw [heq]
    exact iff_of_true ⟨_, rfl⟩ hlate
  · rw [heq]
    refine iff_of_false ?_ fun h => hnot ⟨h, hcapture⟩
    rcases hv.capture_renamed hf with ⟨hnone, -⟩ | ⟨-, n, rest, hrename, hn, hrest⟩
    · exact absurd hnone hcapture
    · rw [hrename]
      exact not_guardedWith_of_name hn hrest _

theorem capture_guardedExprs {es : List Text} (hes : ∀ e ∈ es, Assigns e) {f : Renaming}
    (hf : f.Plain) (hpre : LiteralsClosed pre) :
    (∀ e ∈ es, GuardedWith (rename f pre)
        (rename f (if c.GuardsCase i then guardedBy pre e else e))) ↔ es = [] ∨ c.GuardsCase i := by
  by_cases hguards : c.GuardsCase i
  · simp only [if_pos hguards]
    refine iff_of_true (fun e he => ?_) (.inr hguards)
    rw [rename_guardedBy hf hpre (hes e he).closed]
    exact ⟨_, rfl⟩
  · simp only [if_neg hguards]
    cases es with
    | nil => simp
    | cons e es =>
      refine iff_of_false (fun hall => ?_) fun h => h.elim (List.cons_ne_nil e es) hguards
      obtain ⟨n, rest, hrename, hn, hrest⟩ := (hes e List.mem_cons_self).rename_eq hf
      have hguarded := hall e List.mem_cons_self
      rw [hrename] at hguarded
      exact not_guardedWith_of_name hn hrest _ hguarded

end

/-- if the precondition of a case can fail after the renaming, the contract has guarded the captures
of the case itself: those of old expressions, and those of the old variables that `r` reads late -/
def HasGuarded (c : Contract) (f : Renaming) (r : Contract) (i : Int) (pre : Text) : Prop :=
  assertable (rename f pre) = true →
    (c.oldExprs.list i = [] ∨ c.GuardsCase i) ∧
      ∀ v ∈ c.oldVars.list i, ¬IsCaseName (v.renamed f).name → v.capture ≠ [] →
        r.readsEarly (v.renamed f) = false → c.GuardsCase i ∧ c.readsEarly v = false

theorem capturesGuarded_caseAt {c : Contract} (hc : c.Written) {f : Renaming} (hf : f.Plain)
    (r : Contract) {e : Int × Text} (he : e ∈ c.pre.entries) :
    ((c.guardCaptures.renamed f).caseAt e.1 (rename f e.2)).CapturesGuarded r.readsEarly ↔
      c.HasGuarded f r e.1 e.2 := by
  obtain ⟨i, pre⟩ := e
  have hget : c.pre.get? i = some pre := c.pre.mem_entries_iff.1 he
  have hpre : LiteralsClosed pre := hc.pre _ he
  have hexprs : (c.guardCaptures.renamed f).oldExprs.list i
      = (c.oldExprs.list i).map fun e =>
          rename f (if c.GuardsCase i then guardedBy pre e else e) := by
    show (c.guardCaptures.oldExprs.mapValues fun _ es => es.map (rename f)).list i = _
    rw [CaseTable.list_mapValues, (list_guardCaptures hget).1, List.map_map]
    rfl
  have hvars : (c.guardCaptures.renamed f).oldVars.list i
      = (c.oldVars.list i).map fun v => (c.guardedVar i pre v).renamed f := by
    show (c.guardCaptures.oldVars.mapValues fun _ vs => vs.map (OldVar.renamed f)).list i = _
    rw [CaseTable.list_mapValues, (list_guardCaptures hget).2, List.map_map]
    rfl
  have hassigns : ∀ e ∈ c.oldExprs.list i, Assigns e := by
    intro e he
    obtain ⟨es, hes, he⟩ := CaseTable.mem_list he
    exact hc.oldExprs _ hes e he
  have hwritten : ∀ v ∈ c.oldVars.list i, v.Written := by
    intro v hv
    obtain ⟨vs, hvs, hv⟩ := CaseTable.mem_list hv
    exact hc.oldVars _ hvs v hv
  refine imp_congr_right fun _ => and_congr ?_ ?_
  · show (∀ e ∈ (c.guardCaptures.renamed f).oldExprs.list i, GuardedWith (rename f pre) e) ↔ _
    rw [hexprs, List.forall_mem_map]
    exact capture_guardedExprs hassigns hf hpre
  · show (∀ v ∈ (c.guardCaptures.renamed f).oldVars.list i, _ → _ → _ → _) ↔ _
    rw [hvars, List.forall_mem_map]
    refine forall₂_congr fun v hv => ?_
    have hname := name_guardedVar (hwritten v hv) hf c i pre
    rw [hname, r.readsEarly_congr hname]
    refine imp_congr_right fun _ => ?_
    rw [capture_guardedVar_ne_nil (hwritten v hv) hf hpre]
    refine imp_congr_right fun hcapture => imp_congr_right fun _ => ?_
    exact guardedWith_guardedVar (hwritten v hv) hf hpre hcapture

theorem cases_renamed_guardCaptures (c : Contract) (f : Renaming) :
    (c.guardCaptures.renamed f).cases = c.pre.entries.map fun e =>
      (c.guardCaptures.renamed f).caseAt e.1 (rename f e.2) := by
  have hentries : (c.guardCaptures.renamed f).pre.entries
      = c.pre.entries.map fun e => (e.1, rename f e.2) := by
    show (c.guardCaptures.pre.mapValues fun _ => rename f).entries = _
    rw [pre_guardCaptures]
    rfl
  rw [cases, hentries, List.map_map]
  rfl

end Contract

/-! ### the sources of a composition -/

/-- the contracts that a composition merges, each with its renaming -/
def sourcesOf (own : Contract) (inherited : List Contract) : List (Contract × Renaming) :=
  (own, []) :: levelsOf own inherited

theorem Contract.renamed_nil (c : Contract) : c.renamed [] = c := by
  have htexts : ∀ ts : List Text, ts.map (rename []) = ts := by
    intro ts
    rw [List.map_congr_left fun t _ => rename_nil_left t, List.map_id']
  have hsignals : ∀ ss : List Signals,
      (ss.map fun s => ⟨s.type, rename [] s.var, rename [] s.pred⟩) = ss := by
    intro ss
    simp only [rename_nil_left, List.map_id']
  have hvars : ∀ vs : List OldVar, (vs.map fun v => ⟨rename [] v.text⟩) = vs := by
    intro vs
    simp only [rename_nil_left, List.map_id']
  unfold Contract.renamed
  rw [CaseTable.mapValues_id fun _ s => rename_nil_left s,
    CaseTable.mapValues_id fun _ s => rename_nil_left s,
    CaseTable.mapValues_id fun _ ss => hsignals ss, CaseTable.mapValues_id fun _ vs => hvars vs,
    CaseTable.mapValues_id fun _ ts => htexts ts, CaseTable.mapValues_id fun _ ts => htexts ts,
    htexts, htexts, htexts]

section

variable {own : Contract} {inherited : List Contract}

theorem inheritedLevels_guardCaptures (m : Method) {ps : List (Contract × Nat)}
    (hps : ∀ p ∈ ps, p.1.Written) (taken : List Text) :
    inheritedLevels m taken (ps.map (Prod.map Contract.guardCaptures id))
      = (inheritedLevels m taken ps).map fun l => (l.1.guardCaptures, l.2) := by
  -- a guard changes neither the method nor the temporaries, on which the renaming depends
  induction ps generalizing taken with
  | nil => rfl
  | cons p ps ih =>
    have htemps := Contract.temporaries_guardCaptures (hps p List.mem_cons_self)
    have hrenaming : inheritedRenaming taken m p.1.guardCaptures p.2
        = inheritedRenaming taken m p.1 p.2 := by
      unfold inheritedRenaming
      rw [htemps, Contract.method_guardCaptures]
    rw [List.map_cons, inheritedLevels, inheritedLevels, List.map_cons]
    show (p.1.guardCaptures, (inheritedRenaming taken m p.1.guardCaptures p.2).1)
      :: inheritedLevels m ((inheritedRenaming taken m p.1.guardCaptures p.2).2
        ++ p.1.guardCaptures.temporaries) _ = _
    rw [hrenaming, htemps, ih fun q hq => hps q (List.mem_cons_of_mem _ hq)]

theorem composedSources_guardCaptures (hown : own.Written)
    (hinherited : ∀ c ∈ inherited, c.Written) :
    composedSources own.guardCaptures (inherited.map Contract.guardCaptures)
      = (sourcesOf own inherited).map fun l => l.1.guardCaptures.renamed l.2 := by
  have hps : ∀ p ∈ inherited.zipIdx 1, p.1.Written := fun p hp =>
    hinherited p.1 (List.fst_mem_of_mem_zipIdx hp)
  unfold composedSources sourcesOf levelsOf
  rw [Contract.method_guardCaptures, Contract.temporaries_guardCaptures hown, List.zipIdx_map,
    inheritedLevels_guardCaptures own.method hps, List.map_map, List.map_cons, Contract.renamed_nil]
  rfl

theorem written_of_mem_sourcesOf (hown : own.Written) (hinherited : ∀ c ∈ inherited, c.Written)
    {l : Contract × Renaming} (hl : l ∈ sourcesOf own inherited) : l.1.Written ∧ l.2.Plain := by
  rcases List.mem_cons.1 hl with rfl | hl
  · exact ⟨hown, Renaming.Plain.nil⟩
  · have hc := hinherited l.1 (mem_levelsOf hl)
    obtain ⟨p, -, heq, taken, hf⟩ := mem_levels hl
    rw [hf, ← heq]
    exact ⟨hc, inheritedRenaming_plain hown.signature hc.signature hc.temporaries taken p.2⟩

end

/-- **When the captures of a composed contract are guarded.**  Each contract has put guards on its
captures before the composition.  The captures of the composed contract run only if the precondition
of their case holds exactly if every case that has captures comes from a contract that guards it:
one with several spec cases, where the precondition can fail, and where the variable is read late. -/
theorem capturesGuarded_compose_iff {own : Contract} {inherited : List Contract} {r : Contract}
    (hown : own.Written) (hinherited : ∀ c ∈ inherited, c.Written)
    (h : compose own.guardCaptures (inherited.map Contract.guardCaptures) = .ok r) :
    r.CapturesGuarded ↔
      ∀ l ∈ sourcesOf own inherited, ∀ e ∈ l.1.pre.entries, l.1.HasGuarded l.2 r e.1 e.2 := by
  have hc := compose_eq_ok h
  rw [hc.cases.capturesGuarded_iff, capturesGuarded_guardedCases, composedCases,
    composedSources_guardCaptures hown hinherited, List.flatMap_map, List.forall_mem_flatMap]
  refine forall₂_congr fun l hl => ?_
  obtain ⟨hwritten, hplain⟩ := written_of_mem_sourcesOf hown hinherited hl
  rw [Contract.cases_renamed_guardCaptures, List.forall_mem_map]
  exact forall₂_congr fun e he => Contract.capturesGuarded_caseAt hwritten hplain r he

/-! ### two cases in each contract, and one -/

/-- a method that records the first item in its first case -/
def peekContract (owner receiver : Text) (pre : CaseTable Text) (vars : CaseTable (List OldVar)) :
    Contract where
  method := {
    name := "Peek", owner := owner, receiver := receiver
    returnType := "int", visibility := .of .pub }
  pre := pre
  post := .set .empty 0 "racResult == racOld0"
  oldVars := vars
  oldExprDecls := .set .empty 0 ["var racOld0 int"]
  oldExprs := .set .empty 0 ["racOld0 = " ++ receiver ++ ".items[0]"]

def stackPeek : Contract :=
  peekContract "Stack" "s" (.set (.set .empty 0 "len(s.items) > 0") 1 "s.closed")
    (.set .empty 1 [⟨"n int/n = s.count()"⟩])

def bagPeek : Contract :=
  peekContract "Bag" "b" (.set (.set .empty 0 "len(b.items) > 0") 1 "b.closed")
    (.set .empty 1 [⟨"n int/n = b.count()"⟩])

/-- one case, but nothing to capture -/
def closerPeek : Contract where
  method := {
    name := "Peek", owner := "Closer", receiver := "c"
    returnType := "int", visibility := .of .pub }
  pre := .set .empty 0 "c.closed"

theorem capturesGuarded_compose_iff_peek :
    stackPeek.Written ∧ (∀ c ∈ [bagPeek, closerPeek], c.Written) ∧
      ∃ r, compose stackPeek.guardCaptures ([bagPeek, closerPeek].map Contract.guardCaptures)
          = .ok r ∧ r.pre.size = 5 ∧ r.CapturesGuarded := by
  have hown : stackPeek.Written :=
    ⟨by decide +kernel, by decide +kernel, by decide +kernel, by decide +kernel, by decide +kernel⟩
  have hinherited : ∀ c ∈ [bagPeek, closerPeek], c.Written := by
    intro c hc
    rcases List.mem_cons.1 hc with rfl | hc
    · exact ⟨by decide +kernel, by decide +kernel, by decide +kernel, by decide +kernel,
        by decide +kernel⟩
    · rw [List.mem_singleton.1 hc]
      exact ⟨by decide +kernel, by decide +kernel, by decide +kernel, by decide +kernel,
        by decide +kernel⟩
  have hguards : ∀ l ∈ sourcesOf stackPeek [bagPeek, closerPeek], ∀ e ∈ l.1.pre.entries,
      (l.1.oldExprs.list e.1 = [] ∨ l.1.GuardsCase e.1) ∧
        ∀ v ∈ l.1.oldVars.list e.1, l.1.GuardsCase e.1 ∧ l.1.readsEarly v = false := by
    decide +kernel
  have hsize : ((compose stackPeek.guardCaptures
      ([bagPeek, closerPeek].map Contract.guardCaptures)).toOption.map fun r => r.pre.size)
        = some 5 := by decide +kernel
  refine ⟨hown, hinherited, ?_⟩
  cases h : compose stackPeek.guardCaptures ([bagPeek, closerPeek].map Contract.guardCaptures) with
  | error e =>
    rw [h] at hsize
    cases hsize
  | ok r =>
    rw [h] at hsize
    refine ⟨r, rfl, Option.some.inj hsize, ?_⟩
    refine (capturesGuarded_compose_iff hown hinherited h).2 fun l hl e he _ => ?_
    obtain ⟨hexprs, hvars⟩ := hguards l hl e he
    exact ⟨hexprs, fun v hv _ _ _ => hvars v hv⟩

/-- the override alone has one case, so its capture stays without a guard -/
def stackPeekOnce : Contract := peekContract "Stack" "s" (.set .empty 0 "len(s.items) > 0") .empty

def bagPeekOnce : Contract := peekContract "Bag" "b" (.set .empty 0 "b.closed") .empty

theorem not_capturesGuarded_peekOnce :
    stackPeekOnce.Written ∧ bagPeekOnce.Written ∧
      ∃ r, compose stackPeekOnce.guardCaptures [bagPeekOnce.guardCaptures] = .ok r ∧
        1 < r.pre.size ∧ ¬r.CapturesGuarded := by
  have hval : ((compose stackPeekOnce.guardCaptures [bagPeekOnce.guardCaptures]).toOption.map
      fun r => (r.pre.size, r.caseGuard? 0, r.oldExprs.list 0))
        = some (2, some ("len(s.items) > 0" : Text), [("racOld0 = s.items[0]" : Text)]) := by
    decide +kernel
  refine ⟨⟨by decide +kernel, by decide +kernel, by decide +kernel, by decide +kernel,
      by decide +kernel⟩, ⟨by decide +kernel, by decide +kernel, by decide +kernel,
      by decide +kernel, by decide +kernel⟩, ?_⟩
  cases h : compose stackPeekOnce.guardCaptures [bagPeekOnce.guardCaptures] with
  | error e =>
    rw [h] at hval
    cases hval
  | ok r =>
    rw [h] at hval
    obtain ⟨hsize, hrest⟩ := Prod.mk.inj (Option.some.inj hval)
    obtain ⟨hguard, hexprs⟩ := Prod.mk.inj hrest
    refine ⟨r, rfl, by omega, fun hall => ?_⟩
    have hguarded := (hall 0 _ hguard).1
    rw [hexprs] at hguarded
    have hname : VariableName ("racOld0" : Text) := by decide
    have hrest : EndsName (" = s.items[0]" : Text) := by
      intro c hc
      cases hc
      decide
    exact not_guardedWith_of_name hname hrest _ (hguarded _ List.mem_cons_self)

end ContractChecks
