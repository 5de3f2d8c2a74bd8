import Mathlib.Data.List.Forall2
import ContractChecks.Proofs.Except
import ContractChecks.Wrapper.Synthesis

/-!
# What a successful synthesis has done

A wrapper comes out of four steps: the family of violations, the signature, the capture plan and
the expansion of all texts.

* `Expands f s x`: `x` is what an expander makes of the text `s` renamed by `f`, whatever number
  it starts from;
* `WrapperTexts.Expand c plan f t`: the texts `t` of a wrapper are the expansions of the texts of
  the contract and its plan, one for one and in order;
* `synthesize_eq_ok`: the four steps of a successful synthesis.
-/

namespace ContractChecks

namespace SynthM
variable {α β : Type}

theorem bind_eq_ok {x : SynthM α} {k : α → SynthM β} {e : Expander} {r : β × Expander}
    (h : (x >>= k) e = .ok r) : ∃ a e', x e = .ok (a, e') ∧ k a e' = .ok r := by
  obtain ⟨⟨a, e'⟩, hx, hk⟩ := except_bind_eq_ok h
  exact ⟨a, e', hx, hk⟩

theorem pure_eq_ok {a : α} {e : Expander} {r : α × Expander} (h : (pure a : SynthM α) e = .ok r) :
    r = (a, e) := by
  cases h
  rfl

/-- a successful map relates the elements one for one -/
theorem forall₂_of_mapM {g : α → SynthM β} {R : α → β → Prop}
    (hg : ∀ x e y e', g x e = .ok (y, e') → R x y) (l : List α) :
    ∀ {e : Expander} {ys : List β} {e' : Expander}, l.mapM g e = .ok (ys, e') →
      List.Forall₂ R l ys := by
  induction l with
  | nil =>
    intro e ys e' h
    cases h
    exact .nil
  | cons x l ih =>
    intro e ys e' h
    rw [List.mapM_cons] at h
    obtain ⟨y, e1, hy, h⟩ := bind_eq_ok h
    obtain ⟨zs, e2, hz, h⟩ := bind_eq_ok h
    cases pure_eq_ok h
    exact .cons (hg x e y e1 hy) (ih hz)

end SynthM

theorem exists_of_forall₂ {α β : Type} {R : α → β → Prop} {l : List α} {l' : List β}
    (h : List.Forall₂ R l l') {x : α} (hx : x ∈ l) : ∃ y ∈ l', R x y := by
  induction h with
  | nil => cases hx
  | @cons a b as bs hab _ ih =>
    rcases List.mem_cons.1 hx with rfl | hx
    · exact ⟨b, List.mem_cons_self, hab⟩
    · obtain ⟨y, hy, hR⟩ := ih hx
      exact ⟨y, List.mem_cons_of_mem b hy, hR⟩

/-! ### expansions -/

/-- an expander makes the closures and the text of `x` out of the text `s` renamed by `f` -/
def Expands (f : Renaming) (s : Text) (x : Expansion) : Prop :=
  ∃ e : Expander, (e.expand s f).1 = .ok x

/-- the check for a normal postcondition of a spec case -/
def ExpandsPost (m : Method) (f : Renaming) (e : Int × Text) (p : CheckPiece) : Prop :=
  Expands f e.2 p.piece ∧ p.message = checkMessage m f e.2

/-- the check for a signals clause of a spec case; its variable is dropped if nothing reads it -/
def ExpandsSignals (m : Method) (f : Renaming) (e : Int × Signals) (p : SignalPiece) : Prop :=
  Expands f e.2.pred p.check.piece ∧ p.check.message = checkMessage m f e.2.text
    ∧ p.type = e.2.typeOrAny
    ∧ p.var = if pieceReads p.check.piece e.2.var then e.2.var else []

def ExpandsPre (c : Contract) (f : Renaming) (p : CheckPiece) : Prop :=
  Expands f c.precondition p.piece ∧ p.message = checkMessage c.method f c.precondition

theorem expandText_eq_ok {f : Renaming} {i : Int} {s : Text} {e : Expander}
    {r : Expansion × Expander} (h : expandText f i s e = .ok r) : Expands f s r.1 := by
  unfold expandText at h
  split at h
  · rename_i x e' hx
    cases h
    exact ⟨e, by rw [hx]⟩
  · cases h

theorem expandPost_eq_ok {m : Method} {f : Renaming} {p : Int × Text} {e : Expander}
    {y : CheckPiece} {e' : Expander} (h : expandPost m f p e = .ok (y, e')) :
    ExpandsPost m f p y := by
  obtain ⟨x, e1, hx, h⟩ := SynthM.bind_eq_ok h
  cases SynthM.pure_eq_ok h
  exact ⟨expandText_eq_ok hx, rfl⟩

theorem expandSignals_eq_ok {m : Method} {f : Renaming} {p : Int × Signals} {e : Expander}
    {y : SignalPiece} {e' : Expander} (h : expandSignals m f p e = .ok (y, e')) :
    ExpandsSignals m f p y := by
  obtain ⟨x, e1, hx, h⟩ := SynthM.bind_eq_ok h
  cases SynthM.pure_eq_ok h
  exact ⟨expandText_eq_ok hx, rfl, rfl, rfl⟩

theorem expandPre_eq_ok {c : Contract} {plan : Plan} {f : Renaming} {e : Expander}
    {y : Option CheckPiece} {e' : Expander} (h : expandPre c plan f e = .ok (y, e')) :
    y.isSome = checksPrecondition c plan ∧ ∀ p ∈ y, ExpandsPre c f p := by
  unfold expandPre at h
  by_cases hc : checksPrecondition c plan
  · rw [if_pos hc] at h
    obtain ⟨x, e1, hx, h⟩ := SynthM.bind_eq_ok h
    cases SynthM.pure_eq_ok h
    refine ⟨by rw [hc]; rfl, ?_⟩
    intro p hp
    cases hp
    exact ⟨expandText_eq_ok hx, rfl⟩
  · rw [if_neg hc] at h
    cases SynthM.pure_eq_ok h
    refine ⟨by rw [eq_false_of_ne_true hc]; rfl, ?_⟩
    intro p hp
    cases hp

/-- the texts of a wrapper are the expansions of the texts of a contract and its plan, one for one
and in order -/
structure WrapperTexts.Expand (c : Contract) (plan : Plan) (f : Renaming) (t : WrapperTexts) :
    Prop where
  early : List.Forall₂ (Expands f) plan.early t.early
  preExprs : List.Forall₂ (Expands f) plan.preExprs t.preExprs
  checksPre : t.pre.isSome = checksPrecondition c plan
  pre : ∀ p ∈ t.pre, ExpandsPre c f p
  late : List.Forall₂ (Expands f) plan.late t.late
  posts : List.Forall₂ (ExpandsPost c.method f) (checkedPosts c) t.posts
  signals : c.xpostCode = [] → List.Forall₂ (ExpandsSignals c.method f) (checkedSignals c) t.signals
  xpostCode : t.xpostCode = c.xpostCode.map (rename f)

theorem expandTexts_eq_ok {c : Contract} {plan : Plan} {f : Renaming} {e : Expander}
    {t : WrapperTexts} {e' : Expander} (h : expandTexts c plan f e = .ok (t, e')) :
    t.Expand c plan f := by
  have piece : ∀ (x : Text) (e : Expander) (y : Expansion) (e' : Expander),
      expandText f (-1) x e = .ok (y, e') → Expands f x y := fun x e y e' hy =>
    expandText_eq_ok hy
  obtain ⟨early, e1, h1, h⟩ := SynthM.bind_eq_ok h
  obtain ⟨preExprs, e2, h2, h⟩ := SynthM.bind_eq_ok h
  obtain ⟨pre, e3, h3, h⟩ := SynthM.bind_eq_ok h
  obtain ⟨late, e4, h4, h⟩ := SynthM.bind_eq_ok h
  obtain ⟨posts, e5, h5, h⟩ := SynthM.bind_eq_ok h
  -- the signals are read only if no code takes their place
  have hsignals : ∃ signals e6,
      (c.xpostCode = [] → (checkedSignals c).mapM (expandSignals c.method f) e5 = .ok (signals, e6))
        ∧ (pure ⟨early, preExprs, pre, late, posts, signals, c.xpostCode.map (rename f)⟩ :
          SynthM WrapperTexts) e6 = .ok (t, e') := by
    by_cases hx : c.xpostCode.isEmpty
    · simp only [hx, if_true] at h
      obtain ⟨signals, e6, h6, h⟩ := SynthM.bind_eq_ok h
      exact ⟨signals, e6, fun _ => h6, h⟩
    · simp only [hx] at h
      refine ⟨[], e5, fun hnil => absurd (by rw [hnil]; rfl) hx, h⟩
  obtain ⟨signals, e6, h6, h⟩ := hsignals
  cases SynthM.pure_eq_ok h
  exact {
    early := SynthM.forall₂_of_mapM piece _ h1
    preExprs := SynthM.forall₂_of_mapM piece _ h2
    checksPre := (expandPre_eq_ok h3).1
    pre := (expandPre_eq_ok h3).2
    late := SynthM.forall₂_of_mapM piece _ h4
    posts := SynthM.forall₂_of_mapM (R := ExpandsPost c.method f)
      (fun _ _ _ _ => expandPost_eq_ok) _ h5
    signals := fun hx => SynthM.forall₂_of_mapM (R := ExpandsSignals c.method f)
      (fun _ _ _ _ => expandSignals_eq_ok) _ (h6 hx)
    xpostCode := rfl }

/-- code in the place of the signals leaves no check of a signal -/
theorem signals_expandTexts {c : Contract} {plan : Plan} {f : Renaming} {e : Expander}
    {t : WrapperTexts} {e' : Expander} (h : expandTexts c plan f e = .ok (t, e'))
    (hx : c.xpostCode ≠ []) : t.signals = [] := by
  obtain ⟨early, e1, -, h⟩ := SynthM.bind_eq_ok h
  obtain ⟨preExprs, e2, -, h⟩ := SynthM.bind_eq_ok h
  obtain ⟨pre, e3, -, h⟩ := SynthM.bind_eq_ok h
  obtain ⟨late, e4, -, h⟩ := SynthM.bind_eq_ok h
  obtain ⟨posts, e5, -, h⟩ := SynthM.bind_eq_ok h
  have hempty : c.xpostCode.isEmpty = false := by
    rw [List.isEmpty_eq_false_iff]
    exact hx
  simp only [hempty] at h
  cases SynthM.pure_eq_ok h
  rfl

/-! ### the four steps -/

/-- the steps of a synthesis that gives the wrapper `w` -/
structure SynthesisSteps (c : Contract) (mode : Mode) (oracle : Oracle) (w : Wrapper)
    (family : ViolationFamily) (sig : Signature) (plan : Plan) (t : WrapperTexts) : Prop where
  family_eq : ViolationFamily.ofVisibility c.method.visibility mode = .ok family
  sig_eq : Signature.of c mode oracle = .ok sig
  plan_eq : Plan.extract c oracle = .ok plan
  texts : t.Expand c plan sig.renames
  wrapper_eq : w = { sig.wrapper with stmts := t.stmts sig plan family }

theorem synthesize_texts {c : Contract} {mode : Mode} {oracle : Oracle} {w : Wrapper}
    (h : synthesize c mode oracle = .ok w) :
    ∃ family sig plan t e, SynthesisSteps c mode oracle w family sig plan t ∧
      expandTexts c plan sig.renames {} = .ok (t, e) := by
  obtain ⟨family, hfamily, h⟩ := except_bind_eq_ok (mapError_eq_ok h)
  obtain ⟨sig, hsig, h⟩ := except_bind_eq_ok h
  obtain ⟨plan, hplan, h⟩ := except_bind_eq_ok h
  obtain ⟨t, ht, h⟩ := except_bind_eq_ok h
  obtain ⟨_, _, h⟩ := except_bind_eq_ok h
  cases h
  have htexts : ∃ e', expandTexts c plan sig.renames {} = .ok (t, e') := by
    cases hrun : expandTexts c plan sig.renames {} with
    | error fault =>
      rw [StateT.run', hrun] at ht
      cases ht
    | ok r =>
      rw [StateT.run', hrun] at ht
      cases ht
      exact ⟨r.2, rfl⟩
  obtain ⟨e', he⟩ := htexts
  exact ⟨family, sig, plan, t, e', ⟨hfamily, hsig, hplan, expandTexts_eq_ok he, rfl⟩, he⟩

theorem synthesize_eq_ok {c : Contract} {mode : Mode} {oracle : Oracle} {w : Wrapper}
    (h : synthesize c mode oracle = .ok w) :
    ∃ family sig plan t, SynthesisSteps c mode oracle w family sig plan t := by
  obtain ⟨family, sig, plan, t, -, hsteps, -⟩ := synthesize_texts h
  exact ⟨family, sig, plan, t, hsteps⟩

end ContractChecks
