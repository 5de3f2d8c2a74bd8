import ContractChecks.Proofs.WrapperNames

/-!
# Crosscut members

A directive marks a declaration as crosscut.  The names of the marked declarations are kept in one
list for all packages, and whether a wrapper intercepts calls is looked up in it by the qualified
name, which has no package in it and which a constructor shares with methods of the type it builds.

* `Declaration.marksCrosscut`: the directives of the declaration mark it;
* `Wrapper.Intercepts`: the wrapper gets the rest of an intercepted call and continues with it;
* `Job.Intercepts`: the job gives such a wrapper, or fails since a constructor cannot be crosscut;
* `Planning.intercepts_iff`: it does if some marked declaration has its qualified name;
* `Planning.crosscut_own_iff`: the jobs follow their own directives precisely if no marked declaration
  shares its qualified name with one that is not.
-/

namespace ContractChecks

/-! ### directives -/

def Declaration.marksCrosscut (d : Declaration) : Bool :=
  d.directives.any fun dir => dir.kind = .crosscut

theorem Draft.crosscut_flush (b : Draft) : b.flush.crosscut = b.crosscut := by
  unfold Draft.flush
  split <;> rfl

theorem Draft.crosscut_read {α : Type} {b b' : Draft} {m : ReadM α} {a : α}
    (h : b.read m = .ok (a, b')) : b'.crosscut = b.crosscut := by
  unfold Draft.read at h
  split at h <;> cases h
  rfl

theorem Draft.crosscut_step {sc : Scope} {b b' : Draft} {dir : Directive}
    (h : Draft.step sc b dir = .ok b') :
    b'.crosscut = (b.crosscut || decide (dir.kind = .crosscut)) := by
  unfold Draft.step at h
  cases hkind : dir.kind with
  | crosscut =>
    rw [hkind] at h
    cases h
    exact (Bool.or_true _).symm
  | also =>
    rw [hkind] at h
    cases h
    exact b.crosscut_flush.trans (Bool.or_false _).symm
  | constructor =>
    rw [hkind] at h
    cases h
    exact (Bool.or_false _).symm
  | visibility =>
    rw [hkind] at h
    cases h
    exact (Bool.or_false _).symm
  | ensures =>
    rw [hkind] at h
    obtain ⟨⟨t, d⟩, hread, h⟩ := except_bind_eq_ok h
    cases h
    exact (crosscut_read hread).trans (Bool.or_false _).symm
  | «let» =>
    rw [hkind] at h
    obtain ⟨f, -, h⟩ := except_bind_eq_ok h
    obtain ⟨t, -, h⟩ := except_bind_eq_ok h
    cases h
    exact (Bool.or_false _).symm
  | old =>
    rw [hkind] at h
    obtain ⟨⟨t, d⟩, hread, h⟩ := except_bind_eq_ok h
    cases h
    exact (crosscut_read hread).trans (Bool.or_false _).symm
  | requires =>
    rw [hkind] at h
    obtain ⟨t, -, h⟩ := except_bind_eq_ok h
    cases h
    exact (Bool.or_false _).symm
  | signals =>
    rw [hkind] at h
    obtain ⟨s, -, h⟩ := except_bind_eq_ok h
    obtain ⟨⟨t, d⟩, hread, h⟩ := except_bind_eq_ok h
    cases h
    exact (crosscut_read hread).trans (Bool.or_false _).symm

theorem Draft.crosscut_run {sc : Scope} {ds : List Directive} {b b' : Draft}
    (h : ds.foldlM (Draft.stepLocated sc) b = .ok b') :
    b'.crosscut = (b.crosscut || ds.any fun dir => dir.kind = .crosscut) := by
  induction ds generalizing b with
  | nil =>
    cases h
    exact (Bool.or_false _).symm
  | cons dir ds ih =>
    obtain ⟨b₁, hstep, h⟩ := except_bind_eq_ok h
    rw [ih h, crosscut_step (mapError_eq_ok hstep), List.any_cons, Bool.or_assoc]

theorem Declaration.crosscut_of_contract {d : Declaration} {r : DeclaredContract}
    (h : d.contract = .ok r) : r.crosscut = d.marksCrosscut := by
  obtain ⟨m, -, h⟩ := except_bind_eq_ok h
  obtain ⟨b, hb, h⟩ := except_bind_eq_ok h
  cases h
  exact (Draft.crosscut_run hb).trans (Bool.false_or _)

/-! ### wrappers -/

def proceedParam : Param := { name := proceedName, type := "func() " ++ anyType }

def Wrapper.Intercepts (w : Wrapper) : Prop :=
  proceedParam ∈ w.params ∧ w.callTarget = proceedName ++ "()"

instance (w : Wrapper) : Decidable w.Intercepts :=
  inferInstanceAs (Decidable (proceedParam ∈ w.params ∧ w.callTarget = proceedName ++ "()"))

theorem length_le_join {sep p : Text} {ps : List Text} (h : p ∈ ps) :
    p.length ≤ (Text.join sep ps).length := by
  match ps with
  | [] => cases h
  | [q] =>
    rw [List.mem_singleton.1 h, Text.join_singleton]
  | q :: r :: ps =>
    rw [Text.join_cons_cons, List.length_append, List.length_append]
    rcases List.mem_cons.1 h with rfl | h
    · omega
    · have hrest : p.length ≤ (Text.join sep (r :: ps)).length := length_le_join h
      omega

/-- a call that passes the rest of an intercepted call on is none of it -/
theorem callText_ne_proceed {target : Text} {ps : List Param} (h : proceedParam ∈ ps) :
    callText target ps ≠ proceedName ++ "()" := by
  intro heq
  have hargument : argument proceedParam ∈ ps.map argument := List.mem_map_of_mem h
  have hjoin : 10 ≤ (Text.join ", " (ps.map argument)).length := length_le_join hargument
  have hlength := congrArg List.length heq
  have htwelve : (proceedName ++ "()" : Text).length = 12 := rfl
  unfold callText at heq hlength
  rw [htwelve] at hlength
  simp only [List.length_append] at hlength
  have hone : (("(" : Text)).length = 1 := rfl
  have hone' : ((")" : Text)).length = 1 := rfl
  have hempty : target = [] := List.length_eq_zero_iff.1 (by omega)
  rw [hempty] at heq
  cases heq

/-- a call on a receiver is no call of the rest of an intercepted call -/
theorem callText_receiver_ne_proceed {name : Text} {ps : List Param} {m : Method}
    (h : receiverParam? m = some proceedParam) :
    callText (qualifiedTarget m name) ps ≠ proceedName ++ "()" := by
  unfold receiverParam? at h
  split at h
  · cases h
  case isFalse htype =>
    have hname : m.receiverName = proceedName := congrArg Param.name (Option.some.inj h)
    intro heq
    have hlength := congrArg List.length heq
    have htwelve : (proceedName ++ "()" : Text).length = 12 := rfl
    have hten : proceedName.length = 10 := rfl
    have hpoint : (("." : Text)).length = 1 := rfl
    have hopen : (("(" : Text)).length = 1 := rfl
    have hclose : ((")" : Text)).length = 1 := rfl
    unfold callText qualifiedTarget at hlength
    rw [if_neg htype, hname, htwelve] at hlength
    simp only [List.length_append] at hlength
    omega

theorem wrapperHead_intercepts (m : Method) (mode : Mode) (crosscut : Bool) :
    (wrapperHead m mode crosscut).Intercepts ↔ crosscut = true := by
  unfold wrapperHead
  cases crosscut with
  | true =>
    rw [if_pos rfl]
    exact iff_of_true ⟨List.mem_append_right _ List.mem_cons_self, rfl⟩ rfl
  | false =>
    rw [if_neg (by simp)]
    refine iff_of_false ?_ (by simp)
    have hcall : ∀ name, ¬(proceedParam ∈ (receiverParam? m).toList ++ namedParams m.params ∧
        callText (qualifiedTarget m name) (namedParams m.params) = proceedName ++ "()") := by
      rintro name ⟨hmem, htarget⟩
      rcases List.mem_append.1 hmem with hmem | hmem
      · exact callText_receiver_ne_proceed (Option.mem_toList.1 hmem) htarget
      · exact callText_ne_proceed hmem htarget
    cases mode with
    | direct =>
      rintro ⟨hmem, htarget⟩
      exact callText_ne_proceed hmem htarget
    | _ => exact hcall m.name

theorem signature_callTarget {c : Contract} {mode : Mode} {oracle : Oracle} {sig : Signature}
    (h : Signature.of c mode oracle = .ok sig) :
    sig.wrapper.callTarget = (wrapperHead c.method mode sig.crosscut).callTarget := by
  simp only [Signature.of] at h
  split at h
  · cases h
  · cases h
    rfl

theorem synthesize_intercepts {c : Contract} {mode : Mode} {oracle : Oracle} {w : Wrapper}
    (h : synthesize c mode oracle = .ok w) :
    w.Intercepts ↔ oracle.isCrosscut c.method = true := by
  obtain ⟨family, sig, plan, t, hsteps⟩ := synthesize_eq_ok h
  obtain ⟨hcross, -, hparams⟩ := signature_head hsteps.sig_eq
  have htarget := signature_callTarget hsteps.sig_eq
  rw [← hcross, ← wrapperHead_intercepts c.method mode sig.crosscut]
  unfold Wrapper.Intercepts
  rw [hsteps.wrapper_eq, ← hparams, ← htarget]

/-! ### refused constructors -/

def Fault.isUnsupported : Fault → Bool
  | .unsupported _ _ _ => true
  | _ => false

/-- a step of a synthesis that fails only for what a clause says -/
def OnlyClauses {α : Type} (x : Except Fault α) : Prop :=
  ∀ e, x = .error e → e.isUnsupported = false

section
variable {α β : Type}

theorem onlyClauses_ok (a : α) : OnlyClauses (.ok a) := by
  intro e h
  cases h

theorem onlyClauses_error {e : Fault} (h : e.isUnsupported = false) :
    OnlyClauses (.error e : Except Fault α) := by
  intro e' he
  cases he
  exact h

theorem OnlyClauses.bind {x : Except Fault α} {k : α → Except Fault β} (hx : OnlyClauses x)
    (hk : ∀ a, OnlyClauses (k a)) : OnlyClauses (x >>= k) := by
  cases x with
  | error e => exact onlyClauses_error (hx e rfl)
  | ok a => exact hk a

theorem onlyClauses_forM {f : α → Except Fault Unit} (hf : ∀ a, OnlyClauses (f a)) (l : List α) :
    OnlyClauses (l.forM f) := by
  induction l with
  | nil => exact onlyClauses_ok ()
  | cons a l ih => exact (hf a).bind fun _ => ih

theorem onlyClauses_foldlM {f : β → α → Except Fault β} (hf : ∀ b a, OnlyClauses (f b a))
    (l : List α) (b : β) : OnlyClauses (l.foldlM f b) := by
  induction l generalizing b with
  | nil => exact onlyClauses_ok b
  | cons a l ih => exact (hf b a).bind fun b' => ih b'

theorem onlyClauses_mapM {f : α → SynthM β} (hf : ∀ a e, OnlyClauses (f a e)) (l : List α)
    (e : Expander) : OnlyClauses (l.mapM f e) := by
  induction l generalizing e with
  | nil => exact onlyClauses_ok _
  | cons a l ih =>
    rw [List.mapM_cons]
    exact (hf a e).bind fun r => (ih r.2).bind fun _ => onlyClauses_ok _

end

theorem onlyClauses_extract (c : Contract) (oracle : Oracle) : OnlyClauses (Plan.extract c oracle) := by
  have htable : ∀ table indices, OnlyClauses (c.checkTable table indices) := by
    intro table indices
    unfold Contract.checkTable
    split
    · exact onlyClauses_error rfl
    · exact onlyClauses_ok ()
  have hvalidate : OnlyClauses c.validate :=
    (htable _ _).bind fun _ => (htable _ _).bind fun _ => (htable _ _).bind fun _ =>
      (htable _ _).bind fun _ => htable _ _
  have hold : OnlyClauses (Plan.checkOld c) := by
    refine onlyClauses_forM (fun e => ?_) _
    split
    · exact onlyClauses_error rfl
    · exact onlyClauses_ok ()
  have hbindings : OnlyClauses (Plan.findBindings c oracle) := by
    refine onlyClauses_foldlM (fun bs e => ?_) _ _
    unfold Plan.addBinding
    dsimp only
    split
    · exact onlyClauses_error rfl
    · split
      · split
        · exact onlyClauses_ok _
        · exact onlyClauses_error rfl
      · exact onlyClauses_ok _
  exact hvalidate.bind fun _ => hold.bind fun _ => hbindings.bind fun _ => onlyClauses_ok _

theorem onlyClauses_expandText (f : Renaming) (i : Int) (s : Text) (e : Expander) :
    OnlyClauses (expandText f i s e) := by
  unfold expandText
  split
  · exact onlyClauses_ok _
  · exact onlyClauses_error rfl

theorem onlyClauses_expandTexts (c : Contract) (plan : Plan) (f : Renaming) (e : Expander) :
    OnlyClauses (expandTexts c plan f e) := by
  have htexts : ∀ (l : List Text) e, OnlyClauses (l.mapM (expandText f (-1)) e) :=
    onlyClauses_mapM fun s e => onlyClauses_expandText f (-1) s e
  have hpre : ∀ e, OnlyClauses (expandPre c plan f e) := by
    intro e
    unfold expandPre
    split
    · exact (onlyClauses_expandText _ _ _ e).bind fun _ => onlyClauses_ok _
    · exact onlyClauses_ok _
  have hposts : ∀ (l : List (Int × Text)) e, OnlyClauses (l.mapM (expandPost c.method f) e) :=
    onlyClauses_mapM fun p e => (onlyClauses_expandText f p.1 p.2 e).bind fun _ => onlyClauses_ok _
  have hsignals : ∀ (l : List (Int × Signals)) e, OnlyClauses (l.mapM (expandSignals c.method f) e) :=
    onlyClauses_mapM fun p e => (onlyClauses_expandText f p.1 p.2.pred e).bind fun _ => onlyClauses_ok _
  refine (htexts _ e).bind fun early => (htexts _ early.2).bind fun preExprs =>
    (hpre preExprs.2).bind fun pre => (htexts _ pre.2).bind fun late => (hposts _ late.2).bind
    fun posts => ?_
  dsimp only
  split
  · exact (hsignals _ posts.2).bind fun _ => onlyClauses_ok _
  · exact onlyClauses_ok _

theorem onlyClauses_checkCaptures (t : WrapperTexts) : OnlyClauses t.checkCaptures := by
  refine onlyClauses_forM (fun x => ?_) _
  split
  · exact onlyClauses_error rfl
  · exact onlyClauses_ok ()

/-- only the signature of a wrapper depends on what can be generated -/
theorem synthesize_unsupported {c : Contract} {mode : Mode} {oracle : Oracle} {t n : Text}
    {mode' : Mode} {feature : Unsupported}
    (h : synthesize c mode oracle = .error (.within t (.unsupported n mode' feature))) :
    unsupported? c mode (oracle.isCrosscut c.method) = some feature := by
  have hbody : synthesizeBody c mode oracle = .error (.unsupported n mode' feature) := by
    unfold synthesize at h
    cases hbody : synthesizeBody c mode oracle with
    | ok w =>
      rw [hbody] at h
      cases h
    | error e =>
      rw [hbody] at h
      cases e <;> cases h
      rfl
  cases hfeature : unsupported? c mode (oracle.isCrosscut c.method) with
  | some feature' =>
    have hsig : Signature.of c mode oracle = .error (.unsupported c.method.text mode feature') := by
      simp only [Signature.of, hfeature]
    cases hfamily : ViolationFamily.ofVisibility c.method.visibility mode with
    | error e =>
      unfold synthesizeBody at hbody
      rw [hfamily] at hbody
      cases hbody
      unfold ViolationFamily.ofVisibility at hfamily
      split at hfamily <;> cases hfamily
    | ok family =>
      unfold synthesizeBody at hbody
      rw [hfamily, hsig] at hbody
      cases hbody
      rfl
  | none =>
    have hsig : OnlyClauses (Signature.of c mode oracle) := by
      simp only [Signature.of, hfeature]
      exact onlyClauses_ok _
    have hfamily : OnlyClauses (ViolationFamily.ofVisibility c.method.visibility mode) := by
      unfold ViolationFamily.ofVisibility
      split
      · exact onlyClauses_ok _
      · exact onlyClauses_error rfl
    have hnever : OnlyClauses (synthesizeBody c mode oracle) := by
      refine hfamily.bind fun _ => hsig.bind fun sig => (onlyClauses_extract c oracle).bind fun plan =>
        OnlyClauses.bind ?_ fun t => (onlyClauses_checkCaptures t).bind fun _ => onlyClauses_ok _
      exact (onlyClauses_expandTexts c plan sig.renames {}).bind fun _ => onlyClauses_ok _
    have hfalse := hnever _ hbody
    cases hfalse

theorem crosscut_of_refused {c : Contract} {mode : Mode} {oracle : Oracle} {t n : Text}
    {mode' : Mode}
    (h : synthesize c mode oracle = .error (.within t (.unsupported n mode' .crosscutConstructor))) :
    oracle.isCrosscut c.method = true := by
  have hfeature := synthesize_unsupported h
  unfold unsupported? at hfeature
  dsimp only at hfeature
  split at hfeature
  case isTrue hboth => exact (Bool.and_eq_true_iff.1 hboth).1
  case isFalse =>
    split at hfeature
    · cases hfeature
    · split at hfeature <;> cases hfeature

/-! ### jobs -/

namespace Job

/-- the job gives a wrapper -/
def Wraps (j : Job) (mode : Mode) (oracle : Oracle) (w : Wrapper) : Prop :=
  ∃ c, j.composed = .ok c ∧ synthesize c mode oracle = .ok w

/-- the job fails since a constructor cannot be crosscut -/
def RefusesConstructor (j : Job) (mode : Mode) (oracle : Oracle) : Prop :=
  ∃ c, j.composed = .ok c ∧ synthesize c mode oracle
    = .error (.within c.method.text (.unsupported c.method.text mode .crosscutConstructor))

/-- what is synthesized, or would be if it were not a crosscut constructor -/
def Synthesized (j : Job) (mode : Mode) (oracle : Oracle) : Prop :=
  (∃ w, j.Wraps mode oracle w) ∨ j.RefusesConstructor mode oracle

def Intercepts (j : Job) (mode : Mode) (oracle : Oracle) : Prop :=
  (∃ w, j.Wraps mode oracle w ∧ w.Intercepts) ∨ j.RefusesConstructor mode oracle

variable {j : Job} {mode : Mode} {oracle : Oracle}

theorem method_of_composed {c : Contract} (h : j.composed = .ok c) : c.method = j.own.method :=
  (compose_eq_ok h).method

/-- a job that is synthesized asks whether its own method is crosscut -/
theorem intercepts_iff_isCrosscut (h : j.Synthesized mode oracle) :
    j.Intercepts mode oracle ↔ oracle.isCrosscut j.own.method = true := by
  constructor
  · rintro (⟨w, ⟨c, hc, hw⟩, hintercepts⟩ | ⟨c, hc, herror⟩)
    · rw [← method_of_composed hc]
      exact (synthesize_intercepts hw).1 hintercepts
    · rw [← method_of_composed hc]
      exact crosscut_of_refused herror
  · intro hcross
    rcases h with ⟨w, c, hc, hw⟩ | hrefused
    · rw [← method_of_composed hc] at hcross
      exact .inl ⟨w, ⟨c, hc, hw⟩, (synthesize_intercepts hw).2 hcross⟩
    · exact .inr hrefused

end Job

/-! ### qualified names -/

namespace Planning

variable {x : Planning} {found : List Found} {j : Job}

/-- a marked declaration whose method has the qualified name `t` -/
def MarkedAs (found : List Found) (t : Text) : Prop :=
  ∃ g ∈ found, g.decl.marksCrosscut = true ∧ ∃ c, g.decl.contract = .ok c ∧ c.contract.method.text = t

theorem mem_crosscut {t : Text} : t ∈ (x.plan found).crosscut ↔ MarkedAs found t := by
  show t ∈ (found.filterMap own?).filterMap _ ↔ _
  rw [List.mem_filterMap]
  constructor
  · rintro ⟨c, hc, ht⟩
    obtain ⟨g, hg, hown⟩ := List.mem_filterMap.1 hc
    unfold own? at hown
    split at hown
    · cases hown
    · split at ht
      case isFalse => cases ht
      case isTrue hcross =>
        cases ht
        have hcontract : g.decl.contract = .ok c := by
          cases hd : g.decl.contract with
          | error e =>
            rw [hd] at hown
            cases hown
          | ok d =>
            rw [hd] at hown
            cases hown
            rfl
        rw [Declaration.crosscut_of_contract hcontract] at hcross
        exact ⟨g, hg, hcross, c, hcontract, rfl⟩
  · rintro ⟨g, hg, hmark, c, hc, rfl⟩
    have hne : g.decl.directives.isEmpty = false := by
      rw [List.isEmpty_eq_false_iff]
      intro hnil
      rw [Declaration.marksCrosscut, hnil] at hmark
      cases hmark
    refine ⟨c, List.mem_filterMap.2 ⟨g, hg, ?_⟩, ?_⟩
    · unfold own?
      rw [hne, hc]
      rfl
    · rw [Declaration.crosscut_of_contract hc, if_pos hmark]

theorem job_eq (h : j ∈ (x.plan found).jobs) :
    j.found ∈ found ∧ ∃ c, j.found.decl.contract = .ok c ∧ j.own = c.contract := by
  obtain ⟨f, hf, hj⟩ := List.mem_filterMap.1 h
  obtain ⟨c, hc, rfl⟩ := job?_eq_some.1 hj
  exact ⟨(List.mem_filter.1 hf).1, c, hc, rfl⟩

/-- what the wrappers of all jobs look crosscut names up with -/
def oracle (x : Planning) (found : List Found) : Oracle := .scanning (x.plan found).crosscut

theorem intercepts_iff (hj : j.Synthesized x.mode (x.oracle found)) :
    j.Intercepts x.mode (x.oracle found) ↔ MarkedAs found j.own.method.text := by
  rw [Job.intercepts_iff_isCrosscut hj, ← mem_crosscut (x := x)]
  exact List.contains_iff_mem

/-- Every job that is synthesized is taken for crosscut exactly if its own directives mark it,
precisely if no marked declaration has the qualified name of a synthesized one that is not marked. -/
theorem crosscut_own_iff (x : Planning) (found : List Found) :
    (∀ j ∈ (x.plan found).jobs, j.Synthesized x.mode (x.oracle found) →
      (j.Intercepts x.mode (x.oracle found) ↔ j.found.decl.marksCrosscut = true)) ↔
    ∀ j ∈ (x.plan found).jobs, j.Synthesized x.mode (x.oracle found) →
      j.found.decl.marksCrosscut = false → ¬MarkedAs found j.own.method.text := by
  refine forall_congr' fun j => forall_congr' fun hj => forall_congr' fun hsynth => ?_
  obtain ⟨hfound, c, hc, hown⟩ := job_eq hj
  rw [intercepts_iff hsynth]
  constructor
  · intro hiff hunmarked hmarked
    rw [hiff.1 hmarked] at hunmarked
    cases hunmarked
  · intro hapart
    constructor
    · intro hmarked
      cases hmark : j.found.decl.marksCrosscut with
      | true => rfl
      | false => exact absurd hmarked (hapart hmark)
    · intro hmark
      exact ⟨j.found, hfound, hmark, c, hc, by rw [hown]⟩

end Planning

/-! ### two types of one name -/

/-- a package with a type `Stack` and a contracted method `Push` -/
def pushFile (package path : Text) (directives : List Text) : SourceFile where
  path := path
  package := package
  decls := [
    .type { name := "Stack", definition := "struct\x7b n int \x7d" },
    .func {
      name := "Push"
      receiver := some { name := "s", type := "Stack", pointer := true }
      comments := directives.zipIdx.map fun d => { text := d.1, line := 5 + d.2 }
      line := 5 + directives.length
      eval := .ofFacts [] }]

/-- only the method of package `a` is marked -/
def twinModule : SourceModule where
  dir := "/m"
  path := "example.com/m"
  files := [pushFile "a" "a/a.go" ["//rac:requires s.n > 0", "//rac:crosscut"],
    pushFile "b" "b/b.go" ["//rac:requires s.n > 0"]]

def twinOptions : LoadOptions := { dir := Path.parse "/m", patterns := ["./..."] }

def twinFound : List Found := foundIn (loadedItems twinOptions twinModule)

theorem twin_sorted : twinFound = (loadedItems twinOptions twinModule).filterMap Item.found? :=
  foundIn_of_sorted (by decide +kernel)

/-- whether a job that is not marked gives a wrapper that intercepts calls -/
def interceptsUnmarked (mode : Mode) (oracle : Oracle) (j : Job) : Bool :=
  !j.found.decl.marksCrosscut && j.composed.toOption.any fun c =>
    (synthesize c mode oracle).toOption.any fun w => w.Intercepts

theorem intercepts_of_unmarked {mode : Mode} {oracle : Oracle} {j : Job}
    (h : interceptsUnmarked mode oracle j = true) :
    j.found.decl.marksCrosscut = false ∧ j.Intercepts mode oracle := by
  rw [interceptsUnmarked, Bool.and_eq_true, Bool.not_eq_true'] at h
  obtain ⟨c, hc, hsynth⟩ := exists_eq_ok h.2
  obtain ⟨w, hw, hintercepts⟩ := exists_eq_ok hsynth
  exact ⟨h.1, .inl ⟨w, ⟨c, hc, hw⟩, of_decide_eq_true hintercepts⟩⟩

/-- The method of package `b` is wrapped as if it were marked: it has the qualified name of the
method of package `a`. -/
theorem intercepts_unmarked_push : (∀ f ∈ twinFound, ∃ c, f.decl.contract = .ok c) ∧
    ∃ j ∈ ((loadPlanning twinOptions twinModule .complete).plan twinFound).jobs,
      j.found.decl.marksCrosscut = false ∧
        j.Intercepts twinOptions.mode
          ((loadPlanning twinOptions twinModule .complete).oracle twinFound) := by
  have htranslate : twinFound.all (fun f => f.decl.contract.toOption.any fun _ => true) = true := by
    rw [twin_sorted]
    decide +kernel
  have hjobs : ((loadPlanning twinOptions twinModule .complete).plan twinFound).jobs.any
      (interceptsUnmarked twinOptions.mode
        ((loadPlanning twinOptions twinModule .complete).oracle twinFound)) = true := by
    unfold loadPlanning planningFor
    rw [← twinFound, twin_sorted]
    decide +kernel
  refine ⟨fun f hf => ?_, ?_⟩
  · obtain ⟨c, hc, -⟩ := exists_eq_ok (List.all_eq_true.1 htranslate f hf)
    exact ⟨c, hc⟩
  · obtain ⟨j, hj, hcheck⟩ := List.any_eq_true.1 hjobs
    exact ⟨j, hj, intercepts_of_unmarked hcheck⟩

end ContractChecks
