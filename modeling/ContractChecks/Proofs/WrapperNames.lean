import ContractChecks.Proofs.DeclarationOutcomes
import ContractChecks.Proofs.DirectiveCases
import ContractChecks.Proofs.LegalPackages
import ContractChecks.Proofs.ScopeNames

/-!
# Names of wrappers

Whether the wrappers of a package can be told apart: a method by the type of its receiver and its name,
a function by its name.

* `Wrapper.identity`: what tells a wrapper from the others of its package;
* `Method.label`: what follows the stem in the name of a wrapper.  A method that is wrapped by a function
  gets its owner in front of its name, with nothing between the two;
* `identity_of_recv`, `functionName?_of_recv`: what the declaration of a wrapped method is called;
* `identities_nodup_iff`: the wrappers of a legal package are told apart precisely if the wrapping
  functions have different labels, and they always are under direct checking if nothing is crosscut.
-/

namespace ContractChecks

/-- what a wrapper is told apart by: the type that its receiver has or points to, and its name -/
def Wrapper.identity (w : Wrapper) : Option Text × Text :=
  (w.recv.map fun p => p.type.dropWhile (· = '*'), w.name)

/-- the name of a wrapper after the stem; `crosscut` are the qualified names of crosscut methods -/
def Method.label (m : Method) (mode : Mode) (crosscut : List Text) : Text :=
  if mode = .direct ∧ crosscut.contains m.text = false then m.name else m.owner ++ m.name

namespace CheckedPackage

def identities (P : CheckedPackage) : List (Option Text × Text) :=
  P.methods.map fun c => c.wrapper.identity

def LabelsDiffer (P : CheckedPackage) (mode : Mode) (crosscut : List Text) : Prop :=
  P.methods.Pairwise fun a b => a.wrapper.recv = none → b.wrapper.recv = none →
    a.contract.method.label mode crosscut ≠ b.contract.method.label mode crosscut

end CheckedPackage

/-- the qualified names of the crosscut methods in the selected packages -/
def crosscutNames (o : LoadOptions) (m : SourceModule) (r : TypeReport) : List Text :=
  ((loadPlanning o m r).plan (foundIn (loadedItems o m))).crosscut

/-! ### heads of wrappers -/

theorem wrapperHead_name (m : Method) (mode : Mode) (crosscut : List Text) :
    (wrapperHead m mode (crosscut.contains m.text)).name = wrapperStem ++ m.label mode crosscut := by
  unfold wrapperHead Method.label
  cases crosscut.contains m.text with
  | true =>
    rw [if_pos rfl, if_neg (by simp)]
    exact List.append_assoc _ _ _
  | false =>
    rw [if_neg (by simp)]
    cases mode with
    | direct => rw [if_pos ⟨rfl, rfl⟩]
    | _ =>
      rw [if_neg (by simp)]
      exact List.append_assoc _ _ _

theorem wrapperHead_recv (m : Method) (mode : Mode) (crosscut : List Text) :
    (wrapperHead m mode (crosscut.contains m.text)).recv
      = if mode = .direct ∧ crosscut.contains m.text = false then receiverParam? m else none := by
  unfold wrapperHead
  cases crosscut.contains m.text with
  | true => rw [if_pos rfl, if_neg (by simp)]
  | false =>
    rw [if_neg (by simp)]
    cases mode with
    | direct => rw [if_pos ⟨rfl, rfl⟩]
    | _ => rw [if_neg (by simp)]

theorem signature_name {c : Contract} {mode : Mode} {oracle : Oracle} {sig : Signature}
    (h : Signature.of c mode oracle = .ok sig) :
    sig.wrapper.name = (wrapperHead c.method mode sig.crosscut).name := by
  simp only [Signature.of] at h
  split at h
  · cases h
  · cases h
    rfl

theorem synthesize_head {c : Contract} {mode : Mode} {crosscut : List Text} {w : Wrapper}
    (h : synthesize c mode (.scanning crosscut) = .ok w) :
    w.name = wrapperStem ++ c.method.label mode crosscut ∧
      w.recv = if mode = .direct ∧ crosscut.contains c.method.text = false then
        receiverParam? c.method else none := by
  obtain ⟨family, sig, plan, t, hsteps⟩ := synthesize_eq_ok h
  have hname := signature_name hsteps.sig_eq
  obtain ⟨hcross, hrecv, -⟩ := signature_head hsteps.sig_eq
  rw [hsteps.wrapper_eq]
  rw [hcross] at hname hrecv
  exact ⟨hname.trans (wrapperHead_name _ _ _), hrecv.trans (wrapperHead_recv _ _ _)⟩

/-! ### methods of declarations -/

namespace Declaration

variable {d : Declaration} {m : Method}

/-- What a method has in common with its declaration.  Only a function of the package is a constructor,
and only then the owner is not what the declaration belongs to. -/
theorem method_eq_ok (h : d.method = .ok m) :
    ∃ held, d.heldMethod = .ok held ∧ m.name = held.name ∧ m.static = held.static ∧
      m.pointerReceiver = held.pointerReceiver ∧
      (d.isPackageFunction = false → m.owner = held.owner) := by
  obtain ⟨held, hheld, h⟩ := except_bind_eq_ok h
  obtain ⟨shape, -, h⟩ := except_bind_eq_ok h
  obtain ⟨marks, -, h⟩ := except_bind_eq_ok h
  refine ⟨held, hheld, ?_⟩
  split at h
  · cases hbuilt : d.constructed? with
    | none =>
      simp only [hbuilt] at h
      cases h
    | some t =>
      simp only [hbuilt] at h
      cases h
      refine ⟨rfl, rfl, rfl, fun hfunction => ?_⟩
      rw [constructed?, hfunction] at hbuilt
      cases hbuilt
  · cases h
    exact ⟨rfl, rfl, rfl, fun _ => rfl⟩

theorem method_of_contract {r : DeclaredContract} (h : d.contract = .ok r) :
    d.method = .ok r.contract.method := by
  obtain ⟨m, hm, h⟩ := except_bind_eq_ok h
  obtain ⟨b, -, h⟩ := except_bind_eq_ok h
  cases h
  rw [hm, Contract.guardCaptures_eq]
  rfl

theorem method_of_package (hholder : d.holder = .package) (h : d.method = .ok m) :
    m.name = d.name ∧ m.receiverType = [] := by
  obtain ⟨held, hheld, hname, hstatic, -⟩ := method_eq_ok h
  unfold heldMethod at hheld
  split at hheld
  · cases hheld
  · rw [hholder] at hheld
    cases hheld
    rw [hname, Method.receiverType, hstatic]
    exact ⟨rfl, rfl⟩

theorem method_of_receiver {r : Receiver} {aliased : Bool} (hholder : d.holder = .receiver r aliased)
    (h : d.method = .ok m) :
    m.name = d.name ∧ m.owner = r.type ∧ m.static = false ∧ m.pointerReceiver = r.pointer := by
  obtain ⟨held, hheld, hname, hstatic, hpointer, howner⟩ := method_eq_ok h
  have hfunction : d.isPackageFunction = false := by
    rw [isPackageFunction, hholder]
    rfl
  rw [hname, howner hfunction, hstatic, hpointer]
  unfold heldMethod at hheld
  rw [hholder] at hheld
  split at hheld
  · cases hheld
  · simp only at hheld
    split at hheld
    · cases hheld
    · split at hheld
      · cases hheld
      · cases hheld
        exact ⟨rfl, rfl, rfl, rfl⟩

end Declaration

/-- the receiver of a method leads to the type that owns it -/
theorem base_of_receiverParam? {m : Method} {p : Param} (howner : isName m.owner = true)
    (h : receiverParam? m = some p) : p.type.dropWhile (· = '*') = m.owner := by
  have hstar : m.owner.dropWhile (· = '*') = m.owner := by
    cases hcs : m.owner with
    | nil => rfl
    | cons c cs =>
      rw [hcs] at howner
      have hc : ¬c = '*' := by
        rintro rfl
        exact absurd howner (by simp [isName, isNameStart])
      rw [List.dropWhile_cons_of_neg (by simpa using hc)]
  unfold receiverParam? at h
  split at h
  · cases h
  case isFalse hne =>
    cases h
    show m.receiverType.dropWhile _ = _
    unfold Method.receiverType at hne ⊢
    split
    case isTrue hnone =>
      rw [if_pos hnone] at hne
      exact absurd rfl hne
    case isFalse =>
      split
      · rw [List.dropWhile_cons_of_pos (by simp)]
        exact hstar
      · exact hstar

/-! ### checked methods -/

namespace Planning

variable {x : Planning} {found : List Found} {f : Found} {p : PackageInfo} {c : CheckedMethod}

theorem checked?_eq_some (h : x.checked? found f = some (p, c)) :
    p = f.package ∧ x.isJob (x.bequests found) f = true ∧ f.decl.method = .ok c.contract.method ∧
      synthesize c.contract x.mode (.scanning (x.plan found).crosscut) = .ok c.wrapper := by
  obtain ⟨o, ho, hc⟩ := Option.bind_eq_some_iff.1 h
  obtain ⟨hjob, d, j, hd, rfl, hown, rfl⟩ := exists_job ho
  rcases j.run_cases x.mode (.scanning (x.plan found).crosscut) with
    ⟨s, hs, -⟩ | ⟨c', hrun, -, hcomposed, hwrapper⟩
  · rw [hs] at hc
    cases hc
  · rw [hrun] at hc
    cases hc
    refine ⟨rfl, hjob, ?_, hwrapper⟩
    rw [(compose_eq_ok hcomposed).method, hown]
    exact Declaration.method_of_contract hd

/-- under direct checking only concrete declarations are wrapped -/
theorem concrete_of_direct (hmode : x.mode = .direct)
    (hjob : x.isJob (x.bequests found) f = true) : f.decl.isInterface = false := by
  obtain ⟨-, hwraps⟩ := Bool.and_eq_true_iff.1 hjob
  rw [hmode] at hwraps
  simpa [Mode.wrapsCalls] using hwraps

/-- a wrapper with a receiver is a method of the type that the wrapped method belongs to -/
theorem identity_of_recv (h : x.checked? found f = some (p, c))
    (hname : ∀ k, f.methodKey? = some k → isName k.1 = true) (hrecv : c.wrapper.recv ≠ none) :
    ∃ k, f.methodKey? = some k ∧ c.wrapper.identity = (some k.1, wrapperStem ++ k.2) := by
  obtain ⟨-, hjob, hmethod, hwrapper⟩ := checked?_eq_some h
  obtain ⟨hwname, hwrecv⟩ := synthesize_head hwrapper
  by_cases hdirect : x.mode = .direct ∧
      (x.plan found).crosscut.contains c.contract.method.text = false
  · rw [if_pos hdirect] at hwrecv
    obtain ⟨q, hq⟩ := Option.ne_none_iff_exists'.1 (hwrecv ▸ hrecv)
    cases hholder : f.decl.holder with
    | package =>
      have hnone := (Declaration.method_of_package hholder hmethod).2
      rw [receiverParam?, if_pos hnone] at hq
      cases hq
    | interface i =>
      have hconcrete := concrete_of_direct hdirect.1 hjob
      rw [Declaration.isInterface, hholder] at hconcrete
      cases hconcrete
    | receiver r aliased =>
      obtain ⟨hmname, howner, -⟩ := Declaration.method_of_receiver hholder hmethod
      have hkey : f.methodKey? = some (r.type, f.decl.name) := by
        rw [Found.methodKey?, hholder]
      refine ⟨_, hkey, ?_⟩
      have hbase := base_of_receiverParam? (howner ▸ hname _ hkey) hq
      rw [Wrapper.identity, hwname, hwrecv, hq, Method.label, if_pos hdirect, hmname, ← howner,
        ← hbase]
      rfl
  · rw [if_neg hdirect] at hwrecv
    exact absurd hwrecv hrecv

/-- under direct checking without crosscut methods, a wrapper without a receiver is called after the
function that it wraps -/
theorem functionName?_of_recv (h : x.checked? found f = some (p, c)) (hmode : x.mode = .direct)
    (hcross : (x.plan found).crosscut = [])
    (hname : ∀ k, f.methodKey? = some k → isName k.1 = true) (hrecv : c.wrapper.recv = none) :
    f.functionName? = some (c.contract.method.label x.mode (x.plan found).crosscut) := by
  obtain ⟨-, hjob, hmethod, hwrapper⟩ := checked?_eq_some h
  have hdirect : x.mode = .direct ∧
      (x.plan found).crosscut.contains c.contract.method.text = false := by
    rw [hcross]
    exact ⟨hmode, rfl⟩
  rw [(synthesize_head hwrapper).2, if_pos hdirect] at hrecv
  rw [Method.label, if_pos hdirect]
  cases hholder : f.decl.holder with
  | package =>
    rw [Found.functionName?, hholder, (Declaration.method_of_package hholder hmethod).1]
  | interface i =>
    have hconcrete := concrete_of_direct hmode hjob
    rw [Declaration.isInterface, hholder] at hconcrete
    cases hconcrete
  | receiver r aliased =>
    have hkey : f.methodKey? = some (r.type, f.decl.name) := by
      rw [Found.methodKey?, hholder]
    -- the type of a receiver is a name, and so not empty
    have htype : r.type ≠ [] := by
      intro hnil
      have hisName := hname _ hkey
      rw [hnil] at hisName
      cases hisName
    obtain ⟨-, howner, hstatic, -⟩ := Declaration.method_of_receiver hholder hmethod
    unfold receiverParam? Method.receiverType at hrecv
    rw [hstatic, howner] at hrecv
    cases hpointer : c.contract.method.pointerReceiver with
    | true => simp [hpointer, htype] at hrecv
    | false => simp [hpointer, htype] at hrecv

/-! ### packages -/

variable {items : List Item} {P : CheckedPackage}

/-- the checked methods of a package come from its declarations -/
theorem methods_perm (hP : P ∈ (x.execute items).packages) :
    P.methods.Perm ((((foundIn items).filterMap (x.checked? (foundIn items))).filter
      fun e => e.1 = P.info).map Prod.snd) := by
  obtain ⟨p, -, rfl⟩ := List.mem_map.1 hP
  show (Outcome.methodsOf _ p).Perm _
  unfold Outcome.methodsOf
  rw [outcomes_eq, List.filterMap_filterMap]
  exact List.mergeSort_perm _ _

theorem exists_checked (hP : P ∈ (x.execute items).packages) (hc : c ∈ P.methods) :
    ∃ f ∈ foundIn items, x.checked? (foundIn items) f = some (P.info, c) := by
  rw [(methods_perm hP).mem_iff] at hc
  obtain ⟨⟨p, c'⟩, he, rfl⟩ := List.mem_map.1 hc
  obtain ⟨he, hp⟩ := List.mem_filter.1 he
  obtain ⟨f, hf, he⟩ := List.mem_filterMap.1 he
  obtain rfl : p = P.info := of_decide_eq_true hp
  exact ⟨f, hf, he⟩

/-- what holds between the wrappers of any two declarations holds between any two wrappers -/
theorem pairwise_methods {r : CheckedMethod → CheckedMethod → Prop} (hsymm : ∀ {a b}, r a b → r b a)
    (hP : P ∈ (x.execute items).packages)
    (h : (foundIn items).Pairwise fun f g => ∀ a, x.checked? (foundIn items) f = some (P.info, a) →
      ∀ b, x.checked? (foundIn items) g = some (P.info, b) → r a b) : P.methods.Pairwise r := by
  rw [(methods_perm hP).pairwise_iff hsymm, List.pairwise_map, List.pairwise_filter,
    List.pairwise_filterMap]
  refine h.imp ?_
  rintro f g hfg ⟨p, a⟩ hf ⟨q, b⟩ hg hp hq
  obtain rfl : p = P.info := of_decide_eq_true hp
  obtain rfl : q = P.info := of_decide_eq_true hq
  exact hfg a hf b hg

end Planning

/-! ### wrappers that are told apart -/

theorem keyIn_of_checked? {κ : Type} {x : Planning} {found : List Found} {f : Found} {p : PackageInfo}
    {c : CheckedMethod} (h : x.checked? found f = some (p, c)) (key : Found → Option κ) :
    keyIn p key f = key f := by
  rw [keyIn, if_pos (Planning.checked?_eq_some h).1.symm]

section
variable {o : LoadOptions} {m : SourceModule} {r : TypeReport} {P : CheckedPackage}

/-- the wrappers that are methods differ by the method they wrap -/
theorem identity_ne_of_recv
    (hP : P ∈ ((loadPlanning o m r).execute (loadedItems o m)).packages)
    (hlegal : LegalDecls (packageDecls (m.matched o.tests o.dir o.patterns) P.info.path)) :
    P.methods.Pairwise fun a b => a.wrapper.recv ≠ none → b.wrapper.recv ≠ none →
      a.wrapper.identity ≠ b.wrapper.identity := by
  obtain ⟨hnodup, hname⟩ := nodup_methodKeys hlegal
  refine Planning.pairwise_methods (fun h hb ha heq => h ha hb heq.symm) hP ?_
  refine (List.pairwise_filterMap.1 hnodup).imp_of_mem ?_
  intro f g hf hg hne a ha b hb hra hrb heq
  obtain ⟨j, hj, hida⟩ := Planning.identity_of_recv ha
    (hname f hf (Planning.checked?_eq_some ha).1.symm) hra
  obtain ⟨k, hk, hidb⟩ := Planning.identity_of_recv hb
    (hname g hg (Planning.checked?_eq_some hb).1.symm) hrb
  rw [hida, hidb, Prod.mk.injEq, Option.some.injEq, List.append_cancel_left_eq] at heq
  refine hne j ?_ k ?_ (Prod.ext heq.1 heq.2)
  · rw [keyIn_of_checked? ha, hj]
  · rw [keyIn_of_checked? hb, hk]

/-- under direct checking without crosscut methods, the wrappers that are functions differ by the
function they wrap -/
theorem labelsDiffer_of_direct
    (hP : P ∈ ((loadPlanning o m r).execute (loadedItems o m)).packages)
    (hlegal : LegalDecls (packageDecls (m.matched o.tests o.dir o.patterns) P.info.path))
    (hmode : o.mode = .direct) (hcross : crosscutNames o m r = []) :
    P.LabelsDiffer o.mode (crosscutNames o m r) := by
  have hname := (nodup_methodKeys hlegal).2
  refine Planning.pairwise_methods (fun h hb ha heq => h ha hb heq.symm) hP ?_
  refine (List.pairwise_filterMap.1 (nodup_functionNames hlegal)).imp_of_mem ?_
  intro f g hf hg hne a ha b hb hra hrb
  refine hne _ ?_ _ ?_
  · rw [keyIn_of_checked? ha]
    exact Planning.functionName?_of_recv ha hmode hcross
      (hname f hf (Planning.checked?_eq_some ha).1.symm) hra
  · rw [keyIn_of_checked? hb]
    exact Planning.functionName?_of_recv hb hmode hcross
      (hname g hg (Planning.checked?_eq_some hb).1.symm) hrb

theorem nodup_identities_iff
    (hP : P ∈ ((loadPlanning o m r).execute (loadedItems o m)).packages)
    (hlegal : LegalDecls (packageDecls (m.matched o.tests o.dir o.patterns) P.info.path)) :
    P.identities.Nodup ↔ P.LabelsDiffer o.mode (crosscutNames o m r) := by
  have hwrapper {c : CheckedMethod} (hc : c ∈ P.methods) : c.wrapper.name
      = wrapperStem ++ c.contract.method.label o.mode (crosscutNames o m r) := by
    obtain ⟨f, -, hf⟩ := Planning.exists_checked hP hc
    exact (synthesize_head (Planning.checked?_eq_some hf).2.2.2).1
  rw [CheckedPackage.identities, List.nodup_iff_pairwise_ne, List.pairwise_map]
  constructor
  · intro h
    refine h.imp_of_mem fun {a b} ha hb hne hra hrb heq => hne ?_
    rw [Wrapper.identity, Wrapper.identity, hra, hrb, hwrapper ha, hwrapper hb, heq]
  · intro h
    refine (h.and (identity_ne_of_recv hP hlegal)).imp_of_mem ?_
    intro a b ha hb ⟨hlabel, hmethod⟩ heq
    have hrecv := congrArg Prod.fst heq
    have hname : a.wrapper.name = b.wrapper.name := congrArg Prod.snd heq
    rw [hwrapper ha, hwrapper hb, List.append_cancel_left_eq] at hname
    -- a wrapper with a receiver and one without are never the same
    cases hra : a.wrapper.recv with
    | none =>
      have hrb : b.wrapper.recv = none := by
        rw [Wrapper.identity, hra] at hrecv
        exact Option.map_eq_none_iff.1 hrecv.symm
      exact hlabel hra hrb hname
    | some q =>
      refine hmethod ?_ ?_ heq
      · rw [hra]
        exact Option.some_ne_none q
      · intro hrb
        rw [Wrapper.identity, Wrapper.identity, hra, hrb] at hrecv
        cases hrecv

end

/-- The wrappers of a legal package are told apart precisely if those that are functions have different
labels.  That is so under direct checking if no method is crosscut. -/
theorem identities_nodup_iff {o : LoadOptions} {m : SourceModule} {r : TypeReport}
    {typeError : Option Text} {l : Loaded} (hload : load o m r typeError = .ok l)
    {P : CheckedPackage} (hP : P ∈ l.packages)
    (hlegal : LegalDecls (packageDecls (m.matched o.tests o.dir o.patterns) P.info.path)) :
    (P.identities.Nodup ↔ P.LabelsDiffer o.mode (crosscutNames o m r)) ∧
      (o.mode = .direct → crosscutNames o m r = [] → P.identities.Nodup) := by
  rw [load_eq_ok hload] at hP
  refine ⟨nodup_identities_iff hP hlegal, fun hmode hcross => ?_⟩
  exact (nodup_identities_iff hP hlegal).2 (labelsDiffer_of_direct hP hlegal hmode hcross)

/-! ### two types, one of them called like a method of the other -/

def stackMethod (name type : Text) (line : Nat) : FuncDecl where
  name := name
  receiver := some { name := "s", type := type, pointer := true }
  comments := [{ text := "//rac:requires s.n > 0", line := line }]
  line := line + 1
  eval := .ofFacts []

def stackModule : SourceModule where
  dir := "/m"
  path := "example.com/m"
  files := [{
    path := "m.go"
    package := "m"
    decls := [
      .type { name := "Stack", definition := "struct\x7b n int \x7d" },
      .type { name := "StackPush", definition := "struct\x7b n int \x7d" },
      .func (stackMethod "PushAll" "Stack" 7),
      .func (stackMethod "All" "StackPush" 10)] }]

def stackOptions (mode : Mode) : LoadOptions :=
  { mode := mode, dir := Path.parse "/m", patterns := ["."] }

def stackPackage : PackageInfo := { name := "m", path := "example.com/m", dir := "/m" }

/-- the wrappers of the declarations that are found, with their packages -/
def foundIdentities (x : Planning) (found : List Found) : List (PackageInfo × Option Text × Text) :=
  (found.filterMap (x.checked? found)).map fun e => (e.1, e.2.wrapper.identity)

theorem identities_perm {x : Planning} {items : List Item} {P : CheckedPackage}
    (hP : P ∈ (x.execute items).packages) : P.identities.Perm
      (((foundIdentities x (foundIn items)).filter fun e => e.1 = P.info).map Prod.snd) := by
  refine ((Planning.methods_perm hP).map _).trans (.of_eq ?_)
  unfold foundIdentities
  rw [List.filter_map, List.map_map, List.map_map]
  rfl

theorem exists_package {x : Planning} {items : List Item} {p : PackageInfo} {i : Option Text × Text}
    (h : (p, i) ∈ foundIdentities x (foundIn items)) :
    ∃ P ∈ (x.execute items).packages, P.info = p := by
  obtain ⟨e, he, hp⟩ := List.mem_map.1 h
  obtain rfl : e.1 = p := congrArg Prod.fst hp
  show ∃ P ∈ Outcome.collect ((runJobs (x.plan (foundIn items)) x.mode).map Prod.snd), _
  unfold Outcome.collect
  rw [x.outcomes_eq, List.filterMap_filterMap]
  refine ⟨_, List.mem_map_of_mem (List.mem_mergeSort.2 (List.mem_eraseDups.2 ?_)), rfl⟩
  exact List.mem_map_of_mem he

theorem stack_sorted (mode : Mode) : foundIn (loadedItems (stackOptions mode) stackModule)
    = (loadedItems (stackOptions mode) stackModule).filterMap Item.found? := by
  apply foundIn_of_sorted
  show ((loadedItems (stackOptions .direct) stackModule).filterMap Item.found?).Pairwise _
  decide +kernel

theorem stack_legal : LegalDecls (packageDecls (stackModule.matched false (Path.parse "/m") ["."])
    stackPackage.path) where
  names := by decide
  methods := by decide
  owners := by decide

theorem stack_methods : foundIdentities (loadPlanning (stackOptions .direct) stackModule .complete)
    (foundIn (loadedItems (stackOptions .direct) stackModule))
      = [(stackPackage, some "Stack".toList, "racCheckPostPushAll".toList),
        (stackPackage, some "StackPush".toList, "racCheckPostAll".toList)] := by
  unfold loadPlanning planningFor
  rw [stack_sorted]
  decide +kernel

theorem stack_functions : foundIdentities (loadPlanning (stackOptions .callSite) stackModule .complete)
    (foundIn (loadedItems (stackOptions .callSite) stackModule))
      = [(stackPackage, none, "racCheckPostStackPushAll".toList),
        (stackPackage, none, "racCheckPostStackPushAll".toList)] := by
  unfold loadPlanning planningFor
  rw [stack_sorted]
  decide +kernel

theorem identities_nodup_stack : ∃ l, load (stackOptions .direct) stackModule .complete none = .ok l ∧
    ∃ P ∈ l.packages, P.info = stackPackage ∧ P.identities.Nodup := by
  obtain ⟨P, hP, hinfo⟩ := exists_package (stack_methods ▸ List.mem_cons_self)
  have hcross : crosscutNames (stackOptions .direct) stackModule .complete = [] := by
    unfold crosscutNames loadPlanning planningFor
    rw [stack_sorted]
    decide +kernel
  have hload : load (stackOptions .direct) stackModule .complete none = .ok _ := rfl
  refine ⟨_, hload, P, hP, hinfo, (identities_nodup_iff hload hP ?_).2 rfl hcross⟩
  rw [hinfo]
  exact stack_legal

/-- The method `PushAll` of one type and the method `All` of another are wrapped by functions of the
same name. -/
theorem same_identity_stack : ∃ l, load (stackOptions .callSite) stackModule .complete none = .ok l ∧
    ∃ P ∈ l.packages, P.info = stackPackage ∧
      LegalDecls (packageDecls (stackModule.matched false (Path.parse "/m") ["."]) P.info.path) ∧
      ¬P.identities.Nodup := by
  obtain ⟨P, hP, hinfo⟩ := exists_package (stack_functions ▸ List.mem_cons_self)
  refine ⟨_, rfl, P, hP, hinfo, hinfo ▸ stack_legal, ?_⟩
  rw [(identities_perm hP).nodup_iff, stack_functions, hinfo]
  simp

end ContractChecks
