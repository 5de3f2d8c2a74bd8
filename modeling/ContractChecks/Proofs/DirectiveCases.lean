import ContractChecks.Proofs.GuardedCaptures
import ContractChecks.Proofs.OldExpressions

/-!
# Spec cases from directives

The directives of a declaration are cut into segments at those that begin a new case.  A segment with
a clause or an old variable is a spec case of the contract, read from its own directives alone; only
the numbers of the variables of old expressions go on from case to case.

* `caseSegments ds`: the segments of `ds` that are spec cases;
* `Clauses`, `Scope.ReadAs`: what a list of directives says;
* `Scope.readCase occ i seg`: the spec case of a segment, where `occ` are the old expressions of the
  whole declaration;
* `Draft.step_adds`: what one directive adds to a draft;
* `Draft.Follows`, `Draft.Follows.run`: a draft holds the segments read so far;
* `Declaration.plainContract d`: the contract before its captures are guarded;
* `contract_casesOfSegments`: the contract has the case segments for its cases.
-/

namespace ContractChecks

/-! ### segments -/

def textsOf (kind : DirectiveKind) (ds : List Directive) : List Text :=
  (ds.filter fun dir => dir.kind = kind).map Directive.text

theorem textsOf_append (kind : DirectiveKind) (ds es : List Directive) :
    textsOf kind (ds ++ es) = textsOf kind ds ++ textsOf kind es := by
  rw [textsOf, List.filter_append, List.map_append]
  rfl

theorem exists_of_mem_textsOf {kind : DirectiveKind} {ds : List Directive} {s : Text}
    (h : s ∈ textsOf kind ds) : ∃ dir ∈ ds, dir.kind = kind ∧ dir.text = s := by
  obtain ⟨dir, hdir, rfl⟩ := List.mem_map.1 h
  obtain ⟨hmem, hkind⟩ := List.mem_filter.1 hdir
  exact ⟨dir, hmem, of_decide_eq_true hkind, rfl⟩

/-- whether a directive makes its segment a spec case -/
def Directive.isClause (dir : Directive) : Bool :=
  dir.kind = .requires || dir.kind = .ensures || dir.kind = .signals || dir.kind = .old

def hasClause (seg : List Directive) : Bool := seg.any Directive.isClause

/-- the segments between the directives that begin a new case -/
def segments (ds : List Directive) : List (List Directive) := ds.splitOnP fun dir => dir.kind = .also

def caseSegments (ds : List Directive) : List (List Directive) := (segments ds).filter hasClause

theorem segments_also {dir : Directive} (h : dir.kind = .also) (ds : List Directive) :
    segments (dir :: ds) = [] :: segments ds := by
  rw [segments, List.splitOnP_cons_eq_if_modifyHead, if_pos (decide_eq_true h)]
  rfl

theorem segments_cons {dir : Directive} (h : dir.kind ≠ .also) (ds : List Directive) :
    segments (dir :: ds) = (segments ds).modifyHead (dir :: ·) := by
  rw [segments, List.splitOnP_cons_eq_if_modifyHead, if_neg (by simpa using h)]
  rfl

theorem subset_of_mem_segments {ds seg : List Directive} (h : seg ∈ segments ds) : seg ⊆ ds := by
  induction ds generalizing seg with
  | nil =>
    rw [List.mem_singleton.1 h]
    exact List.Subset.refl _
  | cons dir ds ih =>
    by_cases hkind : dir.kind = .also
    · rw [segments_also hkind] at h
      rcases List.mem_cons.1 h with rfl | h
      · exact List.nil_subset _
      · exact List.subset_cons_of_subset dir (ih h)
    · rw [segments_cons hkind] at h
      cases hsegs : segments ds with
      | nil =>
        rw [hsegs] at h
        cases h
      | cons first rest =>
        rw [hsegs, List.modifyHead_cons] at h
        rcases List.mem_cons.1 h with rfl | h
        · exact List.cons_subset_cons dir (ih (hsegs ▸ List.mem_cons_self))
        · exact List.subset_cons_of_subset dir (ih (hsegs ▸ List.mem_cons_of_mem first h))

theorem subset_of_mem_caseSegments {ds seg : List Directive} (h : seg ∈ caseSegments ds) :
    seg ⊆ ds := subset_of_mem_segments (List.mem_filter.1 h).1

/-! ### what directives say -/

/-- what a list of directives says -/
structure Clauses where
  requires : List Text := []
  ensures : List Text := []
  signals : List Signals := []
  oldVars : List OldVar := []
  /-- the name of each pre-expression and the statement that assigns it -/
  lets : List (Text × Text) := []

def Clauses.isIdle (k : Clauses) : Bool :=
  k.requires.isEmpty && k.ensures.isEmpty && k.signals.isEmpty && k.oldVars.isEmpty

/-- the clauses of lists of directives, one list after the other -/
def Clauses.concat (ks : List Clauses) : Clauses where
  requires := ks.flatMap Clauses.requires
  ensures := ks.flatMap Clauses.ensures
  signals := ks.flatMap Clauses.signals
  oldVars := ks.flatMap Clauses.oldVars
  lets := ks.flatMap Clauses.lets

namespace Scope

/-- an exceptional postcondition, where `temp` names the variables of old expressions -/
def signalsOf (sc : Scope) (temp : Text → Text) (text : Text) : Except DirectiveFault Signals := do
  let s ← Signals.parse text
  let t ← sc.filled temp s.pred
  return { s with pred := t }

def oldVarOf (sc : Scope) (text : Text) : Except DirectiveFault OldVar := do
  let old ← OldForm.parse text
  let expr ← sc.preText old.expr
  let type ← sc.oldVarType old expr
  return .encode old.name type expr

/-- a pre-expression: its name and the statement that assigns it -/
def letOf (sc : Scope) (text : Text) : Except DirectiveFault (Text × Text) := do
  let f ← LetForm.parse text
  let t ← sc.preText f.expr
  return (f.name, f.name ++ " = " ++ t)

/-- what one directive says, where `temp` names the variables of old expressions -/
def clausesOf (sc : Scope) (temp : Text → Text) (dir : Directive) :
    Except DirectiveFault Clauses :=
  match dir.kind with
  | .requires => (sc.preText dir.text).map fun t => { requires := [t] }
  | .ensures => (sc.filled temp dir.text).map fun t => { ensures := [t] }
  | .signals => (sc.signalsOf temp dir.text).map fun s => { signals := [s] }
  | .old => (sc.oldVarOf dir.text).map fun v => { oldVars := [v] }
  | .let => (sc.letOf dir.text).map fun p => { lets := [p] }
  | .also | .constructor | .crosscut | .visibility => .ok {}

def directiveOlds (sc : Scope) (dir : Directive) : Except DirectiveFault (List Text) :=
  match dir.kind with
  | .ensures => sc.oldExprsIn dir.text
  | .signals => do
    let s ← Signals.parse dir.text
    sc.oldExprsIn s.pred
  | _ => .ok []

def segmentOlds (sc : Scope) (seg : List Directive) : Except DirectiveFault (List Text) := do
  let nss ← seg.mapM sc.directiveOlds
  return nss.flatten

/-- the spec case of a segment, where `occ` are the old expressions of the whole declaration -/
def readCase (sc : Scope) (occ : List (Int × Text)) (i : Int) (seg : List Directive) :
    Except DirectiveFault SpecCase := do
  let temp := fun n => tempOf occ (i, n)
  let ks ← seg.mapM (sc.clausesOf temp)
  let decls ← (oldsOf occ i).mapM (sc.oldDecl temp)
  let k := Clauses.concat ks
  return {
    pre := conjunction k.requires
    post := (listed k.ensures).map conjunction
    signals := listed k.signals
    oldVars := listed k.oldVars
    oldExprDecls := listed decls
    oldExprs := listed ((oldsOf occ i).map (oldCapture temp)) }

end Scope

/-- the old expressions of the spec cases, each with the number of its case -/
def numberedOlds (nss : List (List Text)) : List (Int × Text) :=
  nss.zipIdx.flatMap fun p => p.1.map ((p.2 : Int), ·)

theorem numberedOlds_concat (nss : List (List Text)) (ns : List Text) :
    numberedOlds (nss ++ [ns]) = numberedOlds nss ++ ns.map ((nss.length : Int), ·) := by
  rw [numberedOlds, List.zipIdx_append, List.flatMap_append]
  simp [numberedOlds]

theorem numberedOlds_concat_nil (nss : List (List Text)) :
    numberedOlds (nss ++ [[]]) = numberedOlds nss := by
  rw [numberedOlds_concat, List.map_nil, List.append_nil]

theorem Clauses.concat_append (ks ls : List Clauses) : Clauses.concat (ks ++ ls) =
    ⟨(concat ks).requires ++ (concat ls).requires, (concat ks).ensures ++ (concat ls).ensures,
      (concat ks).signals ++ (concat ls).signals, (concat ks).oldVars ++ (concat ls).oldVars,
      (concat ks).lets ++ (concat ls).lets⟩ := by
  simp [concat, List.flatMap_append]

theorem Clauses.concat_singleton (k : Clauses) : Clauses.concat [k] = k := by
  simp [concat]

theorem Clauses.concat_concat (ks : List Clauses) (k : Clauses) :
    Clauses.concat (ks ++ [k]) = Clauses.concat [Clauses.concat ks, k] := by
  simp [concat]

namespace Scope

variable {sc : Scope}

/-- the directives `ds` are read as the clauses `k`, kind by kind -/
structure ReadAs (sc : Scope) (temp : Text → Text) (ds : List Directive) (k : Clauses) : Prop where
  requires : (textsOf .requires ds).mapM sc.preText = .ok k.requires
  ensures : (textsOf .ensures ds).mapM (sc.filled temp) = .ok k.ensures
  signals : (textsOf .signals ds).mapM (sc.signalsOf temp) = .ok k.signals
  oldVars : (textsOf .old ds).mapM sc.oldVarOf = .ok k.oldVars
  lets : (textsOf .let ds).mapM sc.letOf = .ok k.lets

theorem readAs_clausesOf {temp : Text → Text} {dir : Directive} {k : Clauses}
    (h : sc.clausesOf temp dir = .ok k) : sc.ReadAs temp [dir] k := by
  have hnone : ∀ {β : Type} {kind : DirectiveKind} {f : Text → Except DirectiveFault β},
      dir.kind ≠ kind → (textsOf kind [dir]).mapM f = .ok [] := by
    intro β kind f hne
    rw [show textsOf kind [dir] = [] by simp [textsOf, hne]]
    rfl
  have hsome : ∀ {β : Type} {f : Text → Except DirectiveFault β} {b : β},
      f dir.text = .ok b → (textsOf dir.kind [dir]).mapM f = .ok [b] := by
    intro β f b hb
    rw [show textsOf dir.kind [dir] = [dir.text] by simp [textsOf]]
    exact mapM_cons_eq_ok hb rfl
  unfold clausesOf at h
  cases hk : dir.kind <;> rw [hk] at h hnone hsome
  case requires =>
    obtain ⟨x, hx, rfl⟩ := except_map_eq_ok h
    exact ⟨hsome hx, hnone (by decide), hnone (by decide), hnone (by decide), hnone (by decide)⟩
  case ensures =>
    obtain ⟨x, hx, rfl⟩ := except_map_eq_ok h
    exact ⟨hnone (by decide), hsome hx, hnone (by decide), hnone (by decide), hnone (by decide)⟩
  case signals =>
    obtain ⟨x, hx, rfl⟩ := except_map_eq_ok h
    exact ⟨hnone (by decide), hnone (by decide), hsome hx, hnone (by decide), hnone (by decide)⟩
  case old =>
    obtain ⟨x, hx, rfl⟩ := except_map_eq_ok h
    exact ⟨hnone (by decide), hnone (by decide), hnone (by decide), hsome hx, hnone (by decide)⟩
  case «let» =>
    obtain ⟨x, hx, rfl⟩ := except_map_eq_ok h
    exact ⟨hnone (by decide), hnone (by decide), hnone (by decide), hnone (by decide), hsome hx⟩
  case also | constructor | crosscut | visibility =>
    cases h
    exact ⟨hnone (by decide), hnone (by decide), hnone (by decide), hnone (by decide),
      hnone (by decide)⟩

theorem readAs_mapM {temp : Text → Text} {seg : List Directive} {ks : List Clauses}
    (h : seg.mapM (sc.clausesOf temp) = .ok ks) : sc.ReadAs temp seg (Clauses.concat ks) := by
  induction seg generalizing ks with
  | nil =>
    cases h
    exact ⟨rfl, rfl, rfl, rfl, rfl⟩
  | cons dir seg ih =>
    obtain ⟨k, ls, hk, hls, rfl⟩ := exists_of_mapM_cons h
    have hdir := readAs_clausesOf hk
    have hseg := ih hls
    have htexts : ∀ kind, textsOf kind (dir :: seg) = textsOf kind [dir] ++ textsOf kind seg :=
      fun kind => textsOf_append kind [dir] seg
    have hclauses := Clauses.concat_append [k] ls
    rw [List.singleton_append, Clauses.concat_singleton] at hclauses
    rw [hclauses]
    constructor <;> rw [htexts]
    · exact mapM_append_eq_ok hdir.requires hseg.requires
    · exact mapM_append_eq_ok hdir.ensures hseg.ensures
    · exact mapM_append_eq_ok hdir.signals hseg.signals
    · exact mapM_append_eq_ok hdir.oldVars hseg.oldVars
    · exact mapM_append_eq_ok hdir.lets hseg.lets

theorem isClause_clausesOf {temp : Text → Text} {dir : Directive} {k : Clauses}
    (h : sc.clausesOf temp dir = .ok k) : dir.isClause = !k.isIdle := by
  unfold clausesOf at h
  cases hk : dir.kind <;> rw [hk] at h <;> rw [Directive.isClause, hk]
  case requires | ensures | signals | old | «let» =>
    obtain ⟨x, -, rfl⟩ := except_map_eq_ok h
    rfl
  case also | constructor | crosscut | visibility =>
    cases h
    rfl

/-- a segment is a spec case if it says something about one -/
theorem hasClause_mapM {temp : Text → Text} {seg : List Directive} {ks : List Clauses}
    (h : seg.mapM (sc.clausesOf temp) = .ok ks) :
    hasClause seg = !(Clauses.concat ks).isIdle := by
  induction seg generalizing ks with
  | nil =>
    cases h
    rfl
  | cons dir seg ih =>
    obtain ⟨k, ls, hk, hls, rfl⟩ := exists_of_mapM_cons h
    have hcons : (Clauses.concat (k :: ls)).isIdle = (k.isIdle && (Clauses.concat ls).isIdle) := by
      rw [← List.singleton_append, Clauses.concat_append, Clauses.concat_singleton, Bool.eq_iff_iff]
      simp only [Clauses.isIdle, Bool.and_eq_true, List.isEmpty_iff, List.append_eq_nil_iff]
      tauto
    rw [hasClause, List.any_cons, isClause_clausesOf hk, hcons, Bool.not_and]
    congr 1
    exact ih hls

theorem directiveOlds_of_not_isClause {dir : Directive} (h : dir.isClause = false) :
    sc.directiveOlds dir = .ok [] := by
  unfold directiveOlds
  cases hk : dir.kind <;> rw [Directive.isClause, hk] at h
  case ensures | signals => cases h

theorem segmentOlds_of_not_hasClause {seg : List Directive} (h : hasClause seg = false) :
    sc.segmentOlds seg = .ok [] := by
  have hnone : ∀ l : List Directive, hasClause l = false →
      l.mapM sc.directiveOlds = .ok (l.map fun _ => []) := by
    intro l hl
    induction l with
    | nil => rfl
    | cons dir l ih =>
      rw [hasClause, List.any_cons, Bool.or_eq_false_iff] at hl
      exact mapM_cons_eq_ok (directiveOlds_of_not_isClause hl.1) (ih hl.2)
  rw [segmentOlds, hnone seg h]
  show Except.ok (seg.map fun _ => []).flatten = _
  rw [List.flatten_eq_nil_iff.2 (by simp)]

theorem segmentOlds_concat {seg : List Directive} {dir : Directive} {ns ms : List Text}
    (hseg : sc.segmentOlds seg = .ok ns) (hdir : sc.directiveOlds dir = .ok ms) :
    sc.segmentOlds (seg ++ [dir]) = .ok (ns ++ ms) := by
  obtain ⟨nss, hnss, hns⟩ := except_bind_eq_ok hseg
  cases hns
  have happend : (seg ++ [dir]).mapM sc.directiveOlds = .ok (nss ++ [ms]) :=
    mapM_append_eq_ok hnss (mapM_cons_eq_ok hdir rfl)
  rw [segmentOlds, happend]
  show Except.ok (nss ++ [ms]).flatten = _
  rw [List.flatten_append, List.flatten_singleton]

end Scope

theorem index_of_mem_numberedOlds {nss : List (List Text)} {i : Int} {n : Text}
    (h : (i, n) ∈ numberedOlds nss) : ∃ j : Nat, j < nss.length ∧ i = j := by
  obtain ⟨⟨ns, j⟩, hp, hn⟩ := List.mem_flatMap.1 h
  obtain ⟨m, -, he⟩ := List.mem_map.1 hn
  cases he
  exact ⟨j, (List.getElem?_eq_some_iff.1 (List.mem_zipIdx_iff_getElem?.1 hp)).1, rfl⟩

/-! ### one directive -/

/-- the list stored for an index with elements added; an empty list adds nothing -/
def CaseTable.addList {α : Type} (t : CaseTable (List α)) (i : Int) (vs : List α) :
    CaseTable (List α) :=
  if vs.isEmpty then t else t.append i vs

theorem CaseTable.get?_addList {α : Type} {t : CaseTable (List α)} {i : Int} {us : List α}
    (h : t.get? i = listed us) (vs : List α) (j : Int) :
    (t.addList i vs).get? j = if j = i then listed (us ++ vs) else t.get? j := by
  cases vs with
  | nil =>
    show t.get? j = _
    rw [List.append_nil]
    split
    case isTrue hj => rw [hj, h]
    case isFalse => rfl
  | cons v vs =>
    show (t.append i (v :: vs)).get? j = _
    have hsome : listed (us ++ v :: vs) = some (us ++ v :: vs) := by cases us <;> rfl
    rw [CaseTable.append, CaseTable.get?_set, h, getD_listed, hsome]

theorem CaseTable.mem_indices_set {α : Type} {t : CaseTable α} {i j : Int} {v : α}
    (h : j ∈ (t.set i v).indices) : j ∈ t.indices ∨ j = i := by
  rw [CaseTable.indices_set] at h
  split at h
  case isTrue => exact .inl h
  case isFalse => rwa [List.mem_append, List.mem_singleton] at h

theorem CaseTable.mem_indices_addList {α : Type} {t : CaseTable (List α)} {i j : Int} {vs : List α}
    (h : j ∈ (t.addList i vs).indices) : j ∈ t.indices ∨ j = i := by
  unfold CaseTable.addList at h
  split at h
  case isTrue => exact .inl h
  case isFalse => exact mem_indices_set h

/-- a list added within bounds keeps a table within them -/
theorem CaseTable.bounds_addList {α : Type} {t : CaseTable (List α)} {i : Int} {n : Nat}
    (h : ∀ j ∈ t.indices, 0 ≤ j ∧ j ≤ (n : Int)) (hi : i = n) (vs : List α) :
    ∀ j ∈ (t.addList i vs).indices, 0 ≤ j ∧ j ≤ (n : Int) := by
  intro j hj
  rcases mem_indices_addList hj with hj | rfl
  · exact h j hj
  · omega

namespace Draft

/-- the draft `b'` is `b` with the clauses `k` added to the current case -/
structure Adds (k : Clauses) (b b' : Draft) : Prop where
  index : b'.index = b.index
  pre : b'.pre = b.pre
  post : b'.post = b.post
  requires : b'.requires = b.requires ++ k.requires
  ensures : b'.ensures = b.ensures ++ k.ensures
  xpost : b'.xpost = b.xpost.addList b.index k.signals
  oldVars : b'.captures.oldVars = b.captures.oldVars.addList b.index k.oldVars
  preExprDecls : b'.preExprDecls = b.preExprDecls ++ k.lets.map Prod.fst
  preExprs : b'.preExprs = b.preExprs ++ k.lets.map Prod.snd

variable {sc : Scope} {occ : List (Int × Text)} {b b' : Draft}

theorem read_eq_ok {α : Type} {m : ReadM α} {a : α} {b' : Draft} (h : b.read m = .ok (a, b')) :
    ∃ c, m.run b.captures = .ok a c ∧ b' = { b with captures := c } := by
  unfold read at h
  split at h
  case h_1 x c hrun =>
    cases h
    exact ⟨c, hrun, rfl⟩
  case h_2 => cases h

end Draft

theorem Scope.readOldVar_eq_ok {sc : Scope} {index : Int} {text : Text} {c c' : Captures}
    (h : (sc.readOldVar index text).run c = .ok () c') :
    ∃ v, sc.oldVarOf text = .ok v ∧ c' = { c with oldVars := c.oldVars.append index [v] } := by
  unfold readOldVar at h
  obtain ⟨old, hold, h⟩ := ReadM.ofExcept_bind_eq_ok h
  obtain ⟨expr, hexpr, h⟩ := ReadM.ofExcept_bind_eq_ok h
  obtain ⟨type, htype, h⟩ := ReadM.ofExcept_bind_eq_ok h
  cases h
  refine ⟨⟨old.name ++ " " ++ type ++ "/" ++ old.name ++ " = " ++ expr⟩, ?_, rfl⟩
  rw [oldVarOf, hold]
  show (sc.preText old.expr >>= fun expr => _) = _
  rw [hexpr]
  show (sc.oldVarType old expr >>= fun type => _) = _
  rw [htype]
  rfl

namespace Draft

variable {sc : Scope} {occ : List (Int × Text)} {b b' : Draft}

/-- a directive that adds nothing to the case -/
theorem adds_nothing (b : Draft) (crosscut : Bool) : b.Adds {} { b with crosscut := crosscut } := by
  constructor <;> simp [CaseTable.addList]

/-- what a directive adds to the current case, and the old expressions that occur in it -/
theorem step_adds {dir : Directive} (hkind : dir.kind ≠ .also) (hocc : b.captures.Holds sc occ)
    (h : step sc b dir = .ok b') :
    ∃ k ms, sc.directiveOlds dir = .ok ms ∧
      b'.captures.Holds sc (occ ++ ms.map (b.index, ·)) ∧
      (∀ more, sc.clausesOf (fun n => tempOf (occ ++ ms.map (b.index, ·) ++ more) (b.index, n)) dir
        = .ok k) ∧
      b.Adds k b' := by
  have hnone : b.captures.Holds sc (occ ++ ([] : List Text).map (b.index, ·)) := by
    rw [List.map_nil, List.append_nil]
    exact hocc
  unfold Scope.directiveOlds Scope.clausesOf
  unfold step at h
  cases hk : dir.kind with
  | also => exact absurd hk hkind
  | constructor | visibility =>
    rw [hk] at h
    cases h
    exact ⟨{}, [], rfl, hnone, fun _ => rfl, adds_nothing b b.crosscut⟩
  | crosscut =>
    rw [hk] at h
    cases h
    exact ⟨{}, [], rfl, hnone, fun _ => rfl, adds_nothing b true⟩
  | ensures =>
    rw [hk] at h
    obtain ⟨⟨t, d⟩, hread, h⟩ := except_bind_eq_ok h
    cases h
    obtain ⟨c, hrun, rfl⟩ := read_eq_ok hread
    obtain ⟨ms, hms, hholds, hvars, hfill⟩ := Scope.postText_holds hocc hrun
    refine ⟨{ ensures := [t] }, ms, hms, hholds, fun more => ?_, ?_⟩
    · rw [hfill]
      rfl
    · constructor <;> simp [CaseTable.addList, hvars]
  | signals =>
    rw [hk] at h
    obtain ⟨s, hparse, h⟩ := except_bind_eq_ok h
    obtain ⟨⟨t, d⟩, hread, h⟩ := except_bind_eq_ok h
    cases h
    obtain ⟨c, hrun, rfl⟩ := read_eq_ok hread
    obtain ⟨ms, hms, hholds, hvars, hfill⟩ := Scope.postText_holds hocc hrun
    refine ⟨{ signals := [{ s with pred := t }] }, ms, ?_, hholds, fun more => ?_, ?_⟩
    · rw [hparse]
      exact hms
    · rw [Scope.signalsOf, hparse]
      show ((sc.filled _ s.pred >>= fun t => _).map fun s => _) = _
      rw [hfill]
      rfl
    · constructor <;> simp [CaseTable.addList, hvars]
  | requires =>
    rw [hk] at h
    obtain ⟨t, ht, h⟩ := except_bind_eq_ok h
    cases h
    refine ⟨{ requires := [t] }, [], rfl, hnone, fun more => ?_, ?_⟩
    · rw [ht]
      rfl
    · constructor <;> simp [CaseTable.addList]
  | «let» =>
    rw [hk] at h
    obtain ⟨f, hf, h⟩ := except_bind_eq_ok h
    obtain ⟨t, ht, h⟩ := except_bind_eq_ok h
    cases h
    refine ⟨{ lets := [(f.name, f.name ++ " = " ++ t)] }, [], rfl, hnone, fun more => ?_, ?_⟩
    · rw [Scope.letOf, hf]
      show ((sc.preText f.expr >>= fun t => _).map fun p => _) = _
      rw [ht]
      rfl
    · constructor <;> simp [CaseTable.addList]
  | old =>
    rw [hk] at h
    obtain ⟨⟨_, d⟩, hread, h⟩ := except_bind_eq_ok h
    cases h
    obtain ⟨c, hrun, rfl⟩ := read_eq_ok hread
    obtain ⟨v, hv, rfl⟩ := Scope.readOldVar_eq_ok hrun
    refine ⟨{ oldVars := [v] }, [], rfl, ?_, fun more => ?_, ?_⟩
    · exact ⟨hnone.shared, hnone.next, hnone.decls, hnone.exprs⟩
    · rw [hv]
      rfl
    · constructor <;> simp [CaseTable.addList]

/-! ### the directives read so far -/

/-- the clauses of a spec case that has ended -/
structure Stores (b : Draft) (i : Int) (k : Clauses) : Prop where
  pre : b.pre.get? i = some (conjunction k.requires)
  post : b.post.get? i = (listed k.ensures).map conjunction
  xpost : b.xpost.get? i = listed k.signals
  oldVars : b.captures.oldVars.get? i = listed k.oldVars

/-- the clauses of the current case -/
structure Collects (b : Draft) (k : Clauses) : Prop where
  requires : b.requires = k.requires
  ensures : b.ensures = k.ensures
  xpost : b.xpost.get? b.index = listed k.signals
  oldVars : b.captures.oldVars.get? b.index = listed k.oldVars

/-- the current case with clauses added -/
theorem Adds.collects {k l : Clauses} (hadds : b.Adds k b') (h : b.Collects l) :
    b'.Collects (.concat [l, k]) := by
  rw [show [l, k] = [l] ++ [k] from rfl, Clauses.concat_append, Clauses.concat_singleton,
    Clauses.concat_singleton]
  constructor
  · rw [hadds.requires, h.requires]
  · rw [hadds.ensures, h.ensures]
  · rw [hadds.xpost, hadds.index, CaseTable.get?_addList h.xpost, if_pos rfl]
  · rw [hadds.oldVars, hadds.index, CaseTable.get?_addList h.oldVars, if_pos rfl]

/-- clauses added to the current case leave the other cases as they are -/
theorem Adds.stores {k l ended : Clauses} (hadds : b.Adds k b') (h : b.Collects l) {i : Int}
    (hi : i ≠ b.index) (hstores : b.Stores i ended) : b'.Stores i ended := by
  constructor
  · rw [hadds.pre, hstores.pre]
  · rw [hadds.post, hstores.post]
  · rw [hadds.xpost, CaseTable.get?_addList h.xpost, if_neg hi, hstores.xpost]
  · rw [hadds.oldVars, CaseTable.get?_addList h.oldVars, if_neg hi, hstores.oldVars]

/-- the segment `seg` of case `i` says `ks`, whatever occurs after the old expressions `occ` -/
def Says (sc : Scope) (occ : List (Int × Text)) (i : Int) (seg : List Directive)
    (ks : List Clauses) : Prop :=
  ∀ more, seg.mapM (sc.clausesOf fun n => tempOf (occ ++ more) (i, n)) = .ok ks

theorem Says.mono {i : Int} {seg : List Directive} {ks : List Clauses} (h : Says sc occ i seg ks)
    (more : List (Int × Text)) : Says sc (occ ++ more) i seg ks := by
  intro more'
  rw [List.append_assoc]
  exact h _

/-- the draft after the directives `ds`: the spec cases `done` with the old expressions `nss` have
ended, and the current segment is `cur` with the old expressions `ns` -/
structure Follows (sc : Scope) (ds : List Directive) (done : List (List Directive))
    (nss : List (List Text)) (cur : List Directive) (ns : List Text) (b : Draft) : Prop where
  index : b.index = done.length
  indices : b.pre.indices = (List.range done.length).map Nat.cast
  post : ∀ i ∈ b.post.indices, 0 ≤ i ∧ i < done.length
  xpost : ∀ i ∈ b.xpost.indices, 0 ≤ i ∧ i ≤ done.length
  oldVars : ∀ i ∈ b.captures.oldVars.indices, 0 ≤ i ∧ i ≤ done.length
  olds : done.mapM sc.segmentOlds = .ok nss
  currentOlds : sc.segmentOlds cur = .ok ns
  captures : b.captures.Holds sc (numberedOlds (nss ++ [ns]))
  stored : ∀ (i : Nat) seg, done[i]? = some seg → ∃ ks,
    Says sc (numberedOlds (nss ++ [ns])) i seg ks ∧ b.Stores i (.concat ks)
  current : ∃ ks, Says sc (numberedOlds (nss ++ [ns])) done.length cur ks ∧
    b.Collects (.concat ks)
  lets : ∃ ls, (textsOf .let ds).mapM sc.letOf = .ok ls ∧ b.preExprDecls = ls.map Prod.fst ∧
    b.preExprs = ls.map Prod.snd

theorem follows_empty : Follows sc [] [] [] [] [] {} where
  index := rfl
  indices := rfl
  post := fun _ hi => by cases hi
  xpost := fun _ hi => by cases hi
  oldVars := fun _ hi => by cases hi
  olds := rfl
  currentOlds := rfl
  captures := Captures.holds_empty sc
  stored := fun _ _ h => by cases h
  current := ⟨[], fun _ => rfl, ⟨rfl, rfl, rfl, rfl⟩⟩
  lets := ⟨[], rfl, rfl, rfl⟩

section
variable {ds : List Directive} {done : List (List Directive)} {nss : List (List Text)}
  {cur : List Directive} {ns : List Text}

theorem Follows.length_olds (hb : Follows sc ds done nss cur ns b) : nss.length = done.length :=
  length_of_mapM_eq_ok hb.olds

/-- a directive is added to the current segment -/
theorem Follows.step (hb : Follows sc ds done nss cur ns b) {dir : Directive}
    (hkind : dir.kind ≠ .also) (h : Draft.step sc b dir = .ok b') :
    ∃ ms, Follows sc (ds ++ [dir]) done nss (cur ++ [dir]) (ns ++ ms) b' := by
  obtain ⟨k, ms, hms, hholds, hk, hadds⟩ := step_adds hkind hb.captures h
  obtain ⟨ks, hks, hcollects⟩ := hb.current
  have hocc : numberedOlds (nss ++ [ns ++ ms])
      = numberedOlds (nss ++ [ns]) ++ ms.map (b.index, ·) := by
    rw [numberedOlds_concat, numberedOlds_concat, List.map_append, ← List.append_assoc, hb.index,
      hb.length_olds]
  refine ⟨ms, ?_⟩
  constructor
  case index => rw [hadds.index, hb.index]
  case indices => rw [hadds.pre, hb.indices]
  case post =>
    rw [hadds.post]
    exact hb.post
  case xpost =>
    rw [hadds.xpost]
    exact CaseTable.bounds_addList hb.xpost hb.index _
  case oldVars =>
    rw [hadds.oldVars]
    exact CaseTable.bounds_addList hb.oldVars hb.index _
  case olds => exact hb.olds
  case currentOlds => exact Scope.segmentOlds_concat hb.currentOlds hms
  case captures =>
    rw [hocc]
    exact hholds
  case stored =>
    intro i seg hseg
    obtain ⟨ls, hls, hstores⟩ := hb.stored i seg hseg
    have hi : (i : Int) ≠ b.index := by
      have hlt := (List.getElem?_eq_some_iff.1 hseg).1
      rw [hb.index]
      omega
    refine ⟨ls, ?_, hadds.stores hcollects hi hstores⟩
    rw [hocc]
    exact hls.mono _
  case current =>
    refine ⟨ks ++ [k], ?_, ?_⟩
    · intro more
      rw [hocc]
      refine mapM_append_eq_ok ((hks.mono _) more) (mapM_cons_eq_ok ?_ rfl)
      rw [← hb.index]
      exact hk more
    · rw [Clauses.concat_concat]
      exact hadds.collects hcollects
  case lets =>
    obtain ⟨ls, hls, hdecls, hexprs⟩ := hb.lets
    refine ⟨ls ++ k.lets, ?_, ?_, ?_⟩
    · rw [textsOf_append]
      exact mapM_append_eq_ok hls (Scope.readAs_clausesOf (hk [])).lets
    · rw [hadds.preExprDecls, hdecls, List.map_append]
    · rw [hadds.preExprs, hexprs, List.map_append]

theorem isIdle_eq {k : Clauses} (h : b.Collects k) : b.isIdle = k.isIdle := by
  have hcontains : ∀ {α : Type} {t : CaseTable (List α)} {i : Int} {l : List α},
      t.get? i = listed l → (!t.contains i) = l.isEmpty := by
    intro α t i l hget
    have hmem : i ∈ t.indices ↔ l ≠ [] := by
      rw [t.mem_indices_iff, hget]
      cases l <;> simp [listed]
    cases l with
    | nil => simpa [CaseTable.contains] using hmem
    | cons a l => simpa [CaseTable.contains] using hmem
  rw [isIdle, h.requires, h.ensures, hcontains h.xpost, hcontains h.oldVars]
  rfl

theorem flush_eq (h : b.isIdle = false) : b.flush = { b with
    index := b.index + 1
    requires := []
    ensures := []
    pre := b.pre.set b.index (conjunction b.requires)
    post := if b.ensures.isEmpty then b.post else b.post.set b.index (conjunction b.ensures) } := by
  rw [flush, h]
  rfl

theorem Follows.get?_post_flush (hb : Follows sc ds done nss cur ns b) (h : b.isIdle = false)
    (i : Int) : b.flush.post.get? i
      = if i = b.index then (listed b.ensures).map conjunction else b.post.get? i := by
  rw [flush_eq h]
  cases hensures : b.ensures with
  | nil =>
    show b.post.get? i = if i = b.index then none else b.post.get? i
    split
    case isTrue hi =>
      refine CaseTable.get?_eq_none_iff.2 fun hmem => ?_
      have hlt := hb.post i hmem
      rw [hi, hb.index] at hlt
      omega
    case isFalse => rfl
  | cons t ts => exact b.post.get?_set b.index i _

/-- the clauses of the current case are stored beside those of the cases before it -/
theorem Follows.stored_flush (hb : Follows sc ds done nss cur ns b) (h : b.isIdle = false) {i : Nat}
    {seg : List Directive} (hseg : (done ++ [cur])[i]? = some seg) :
    ∃ ks, Says sc (numberedOlds (nss ++ [ns])) i seg ks ∧ b.flush.Stores i (.concat ks) := by
  rw [List.getElem?_append] at hseg
  split at hseg
  case isTrue hi =>
    obtain ⟨ls, hls, hstores⟩ := hb.stored i seg hseg
    have hne : (i : Int) ≠ b.index := by
      rw [hb.index]
      omega
    refine ⟨ls, hls, ?_⟩
    constructor
    · rw [flush_eq h, CaseTable.get?_set, if_neg hne, hstores.pre]
    · rw [hb.get?_post_flush h, if_neg hne, hstores.post]
    · rw [flush_eq h, hstores.xpost]
    · rw [flush_eq h, hstores.oldVars]
  case isFalse hge =>
    obtain ⟨hi, rfl⟩ : i = done.length ∧ seg = cur := by
      obtain ⟨hzero, hget⟩ := List.getElem?_eq_some_iff.1 hseg
      rw [List.length_singleton] at hzero
      refine ⟨by omega, ?_⟩
      rw [← hget]
      exact List.getElem_singleton hzero
    obtain ⟨ks, hks, hcollects⟩ := hb.current
    rw [hi, ← hb.index]
    refine ⟨ks, hb.index ▸ hks, ?_⟩
    constructor
    · rw [flush_eq h, CaseTable.get?_set, if_pos rfl, hcollects.requires]
    · rw [hb.get?_post_flush h, if_pos rfl, hcollects.ensures]
    · rw [flush_eq h, hcollects.xpost]
    · rw [flush_eq h, hcollects.oldVars]

/-- the current case gets the next number -/
theorem Follows.indices_flush (hb : Follows sc ds done nss cur ns b) (h : b.isIdle = false) :
    b.flush.pre.indices = (List.range (done.length + 1)).map Nat.cast := by
  have hnone : b.pre.get? b.index = none := by
    refine CaseTable.get?_eq_none_iff.2 fun hmem => ?_
    rw [hb.indices, hb.index] at hmem
    obtain ⟨n, hn, hcast⟩ := List.mem_map.1 hmem
    have hlt := List.mem_range.1 hn
    omega
  rw [flush_eq h, CaseTable.indices_set_of_get? hnone, hb.indices, hb.index, List.range_succ,
    List.map_append]
  rfl

theorem Follows.post_flush (hb : Follows sc ds done nss cur ns b) (h : b.isIdle = false) :
    ∀ i ∈ b.flush.post.indices, 0 ≤ i ∧ i < (done.length : Int) + 1 := by
  intro i hi
  obtain ⟨v, hv⟩ := b.flush.post.mem_indices_iff.1 hi
  rw [hb.get?_post_flush h] at hv
  split at hv
  case isTrue heq =>
    rw [heq, hb.index]
    omega
  case isFalse =>
    have hold := hb.post i (b.post.mem_indices_iff.2 ⟨v, hv⟩)
    omega

/-- a segment that is a spec case ends -/
theorem Follows.flush_case (hb : Follows sc ds done nss cur ns b) (hcase : hasClause cur = true) :
    Follows sc ds (done ++ [cur]) (nss ++ [ns]) [] [] b.flush := by
  have hidle : b.isIdle = false := by
    obtain ⟨ks, hks, hcollects⟩ := hb.current
    have hseg := Scope.hasClause_mapM (hks [])
    rw [hcase] at hseg
    rw [isIdle_eq hcollects]
    simpa using hseg.symm
  have hlen : (done ++ [cur]).length = done.length + 1 := List.length_append
  constructor
  case index => rw [flush_eq hidle, hlen, Int.natCast_succ, ← hb.index]
  case indices =>
    rw [hlen]
    exact hb.indices_flush hidle
  case post =>
    rw [hlen]
    exact hb.post_flush hidle
  case xpost =>
    rw [flush_eq hidle, hlen]
    intro i hi
    have hold := hb.xpost i hi
    omega
  case oldVars =>
    rw [flush_eq hidle, hlen]
    intro i hi
    have hold := hb.oldVars i hi
    omega
  case olds => exact mapM_append_eq_ok hb.olds (mapM_cons_eq_ok hb.currentOlds rfl)
  case currentOlds => rfl
  case captures =>
    rw [numberedOlds_concat_nil, flush_eq hidle]
    exact hb.captures
  case stored =>
    rw [numberedOlds_concat_nil]
    exact fun i seg hseg => hb.stored_flush hidle hseg
  case current =>
    have hbeyond : ∀ {α : Type} {t : CaseTable (List α)},
        (∀ i ∈ t.indices, 0 ≤ i ∧ i ≤ (done.length : Int)) → t.get? (b.index + 1) = none := by
      intro α t ht
      refine CaseTable.get?_eq_none_iff.2 fun hmem => ?_
      have hle := ht _ hmem
      rw [hb.index] at hle
      omega
    refine ⟨[], fun _ => rfl, ?_⟩
    rw [flush_eq hidle]
    exact ⟨rfl, rfl, hbeyond hb.xpost, hbeyond hb.oldVars⟩
  case lets =>
    rw [flush_eq hidle]
    exact hb.lets

/-- a segment that is no spec case ends without a trace -/
theorem Follows.flush_idle (hb : Follows sc ds done nss cur ns b) (hidle : hasClause cur = false) :
    Follows sc ds done nss [] [] b.flush := by
  obtain ⟨ks, hks, hcollects⟩ := hb.current
  have hempty : (Clauses.concat ks).isIdle = true := by
    have hseg := Scope.hasClause_mapM (hks [])
    rw [hidle] at hseg
    simpa using hseg.symm
  have hflush : b.flush = b := by
    rw [flush, isIdle_eq hcollects, hempty]
    rfl
  obtain rfl : ns = [] := by
    have holds := hb.currentOlds
    rw [Scope.segmentOlds_of_not_hasClause hidle] at holds
    cases holds
    rfl
  simp only [Clauses.isIdle, Bool.and_eq_true, List.isEmpty_iff] at hempty
  obtain ⟨⟨⟨hrequires, hensures⟩, hsignals⟩, hvars⟩ := hempty
  rw [hflush]
  refine { hb with currentOlds := rfl, current := ⟨[], fun _ => rfl, ?_⟩ }
  constructor
  · rw [hcollects.requires, hrequires]
    rfl
  · rw [hcollects.ensures, hensures]
    rfl
  · rw [hcollects.xpost, hsignals]
    rfl
  · rw [hcollects.oldVars, hvars]
    rfl

/-- the end of a segment -/
theorem Follows.flush (hb : Follows sc ds done nss cur ns b) :
    ∃ nss', Follows sc ds (done ++ [cur].filter hasClause) nss' [] [] b.flush := by
  rw [List.filter_singleton]
  cases hcase : hasClause cur with
  | true => exact ⟨nss ++ [ns], hb.flush_case hcase⟩
  | false =>
    rw [show (bif false then [cur] else []) = [] from rfl, List.append_nil]
    exact ⟨nss, hb.flush_idle hcase⟩

theorem Follows.also (hb : Follows sc ds done nss cur ns b) {dir : Directive}
    (hkind : dir.kind = .also) : Follows sc (ds ++ [dir]) done nss cur ns b := by
  obtain ⟨ls, hls, hdecls⟩ := hb.lets
  have hnone : textsOf .let [dir] = [] := by simp [textsOf, hkind]
  refine { hb with lets := ⟨ls, ?_, hdecls⟩ }
  rw [textsOf_append, hnone, List.append_nil]
  exact hls

/-- a whole list of directives -/
theorem Follows.run (hb : Follows sc ds done nss cur ns b) {es : List Directive}
    (h : es.foldlM (stepLocated sc) b = .ok b') :
    ∃ done' nss' cur' ns', Follows sc (ds ++ es) done' nss' cur' ns' b' ∧
      done' ++ [cur'].filter hasClause
        = done ++ ((segments es).modifyHead (cur ++ ·)).filter hasClause := by
  -- the segment in progress is completed by the first segment of the directives that follow
  induction es generalizing ds done nss cur ns b with
  | nil =>
    cases h
    rw [List.append_nil]
    refine ⟨done, nss, cur, ns, hb, ?_⟩
    rw [segments, List.splitOnP_nil, List.modifyHead_cons, List.append_nil]
  | cons dir es ih =>
    rw [List.foldlM_cons] at h
    obtain ⟨b₁, hstep, hrest⟩ := except_bind_eq_ok h
    have hstep' := mapError_eq_ok hstep
    by_cases hkind : dir.kind = .also
    · have hflush : b₁ = b.flush := by
        unfold Draft.step at hstep'
        rw [hkind] at hstep'
        cases hstep'
        rfl
      subst hflush
      obtain ⟨nss₁, hb₁⟩ := hb.flush
      obtain ⟨done', nss', cur', ns', hb', hsegs⟩ := ih (hb₁.also hkind) hrest
      rw [List.append_assoc] at hb'
      refine ⟨done', nss', cur', ns', hb', ?_⟩
      have hhead : (segments es).modifyHead (([] : List Directive) ++ ·) = segments es :=
        congrFun List.modifyHead_id (segments es)
      rw [hsegs, hhead, segments_also hkind, List.modifyHead_cons, List.append_nil,
        List.append_assoc, ← List.filter_append]
      rfl
    · obtain ⟨ms, hb₁⟩ := hb.step hkind hstep'
      obtain ⟨done', nss', cur', ns', hb', hsegs⟩ := ih hb₁ hrest
      rw [List.append_assoc] at hb'
      refine ⟨done', nss', cur', ns', hb', ?_⟩
      have hhead : (fun seg => cur ++ seg) ∘ (fun seg => dir :: seg)
          = fun seg => cur ++ [dir] ++ seg := by
        funext seg
        simp
      rw [hsegs, segments_cons hkind, List.modifyHead_modifyHead, hhead]

end

end Draft

/-! ### the contract of a declaration -/

/-- the spec cases of a contract are the case segments of the directives `ds`, whose old expressions
are `nss`, and its pre-expressions are those of all segments -/
structure CasesOfSegments (sc : Scope) (ds : List Directive) (nss : List (List Text))
    (c : Contract) : Prop where
  indices : c.pre.indices = (List.range (caseSegments ds).length).map Nat.cast
  olds : (caseSegments ds).mapM sc.segmentOlds = .ok nss
  cases : (caseSegments ds).zipIdx.mapM (fun p => sc.readCase (numberedOlds nss) p.2 p.1)
    = .ok c.cases
  lets : ∃ ls, (textsOf .let ds).mapM sc.letOf = .ok ls ∧ c.preExprDecls = ls.map Prod.fst ∧
    c.preExprs = ls.map Prod.snd

/-- the spec cases of a contract, by the indices of its preconditions -/
theorem Contract.cases_eq_map (c : Contract) :
    c.cases = c.pre.indices.map fun i => c.caseAt i ((c.pre.get? i).getD []) := by
  show c.pre.entries.map _ = (c.pre.entries.map Prod.fst).map _
  rw [List.map_map]
  refine List.map_congr_left fun e he => ?_
  show c.caseAt e.1 e.2 = c.caseAt e.1 ((c.pre.get? e.1).getD [])
  rw [c.pre.mem_entries_iff.1 he]
  rfl

namespace Scope

variable {sc : Scope} {temp : Text → Text}

theorem readCase_eq_ok {occ : List (Int × Text)} {i : Int} {seg : List Directive} {k : SpecCase}
    (h : sc.readCase occ i seg = .ok k) :
    ∃ ks decls, seg.mapM (sc.clausesOf fun n => tempOf occ (i, n)) = .ok ks ∧
      (oldsOf occ i).mapM (sc.oldDecl fun n => tempOf occ (i, n)) = .ok decls ∧
      k = { pre := conjunction (Clauses.concat ks).requires
            post := (listed (Clauses.concat ks).ensures).map conjunction
            signals := listed (Clauses.concat ks).signals
            oldVars := listed (Clauses.concat ks).oldVars
            oldExprDecls := listed decls
            oldExprs := listed ((oldsOf occ i).map (oldCapture fun n => tempOf occ (i, n))) } := by
  obtain ⟨ks, hks, h⟩ := except_bind_eq_ok h
  obtain ⟨decls, hdecls, h⟩ := except_bind_eq_ok h
  cases h
  exact ⟨ks, decls, hks, hdecls, rfl⟩

end Scope

namespace CasesOfSegments

variable {sc : Scope} {ds : List Directive} {nss : List (List Text)} {c : Contract}

/-- the spec case with an index is read from the segment with this number -/
theorem caseAt_eq (h : CasesOfSegments sc ds nss c) {i : Int} {pre : Text}
    (hi : c.pre.get? i = some pre) :
    ∃ (j : Nat) (seg : List Directive), i = j ∧ (caseSegments ds)[j]? = some seg ∧
      sc.readCase (numberedOlds nss) i seg = .ok (c.caseAt i pre) := by
  have hmem := c.pre.mem_indices_iff.2 ⟨pre, hi⟩
  rw [h.indices] at hmem
  obtain ⟨j, hj, rfl⟩ := List.mem_map.1 hmem
  obtain ⟨seg, hseg⟩ : ∃ seg, (caseSegments ds)[j]? = some seg :=
    ⟨_, List.getElem?_eq_getElem (List.mem_range.1 hj)⟩
  refine ⟨j, seg, rfl, hseg, ?_⟩
  have hzip : (caseSegments ds).zipIdx[j]? = some (seg, j) := by
    rw [List.getElem?_zipIdx, hseg]
    simp
  obtain ⟨k, hk, hread⟩ := mapM_getElem? h.cases hzip
  rw [Contract.cases_eq_map, h.indices, List.map_map, List.getElem?_map,
    List.getElem?_range (List.mem_range.1 hj)] at hk
  obtain rfl := Option.some.inj hk
  rw [hread]
  show Except.ok (c.caseAt j ((c.pre.get? j).getD [])) = _
  rw [hi]
  rfl

end CasesOfSegments

namespace Draft.Follows

variable {sc : Scope} {ds : List Directive} {done : List (List Directive)} {nss : List (List Text)}
  {b : Draft}

/-- a spec case that has ended is the one read from its segment -/
theorem readCase_eq (hb : Follows sc ds done nss [] [] b) (m : Method) {i : Nat}
    {seg : List Directive} (hseg : done[i]? = some seg) :
    sc.readCase (numberedOlds nss) i seg
      = .ok ((b.contract m).caseAt i (((b.contract m).pre.get? i).getD [])) := by
  obtain ⟨ks, hks, hstores⟩ := hb.stored i seg hseg
  have hclauses := hks []
  have hholds := hb.captures
  rw [List.append_nil, numberedOlds_concat_nil] at hclauses
  rw [numberedOlds_concat_nil] at hholds
  obtain ⟨decls, hdecls, hget⟩ := hholds.decls i
  rw [Scope.readCase, hclauses]
  show ((oldsOf (numberedOlds nss) i).mapM (sc.oldDecl fun n => tempOf (numberedOlds nss) (i, n)) >>=
    fun decls => _) = _
  rw [hdecls, Contract.caseAt]
  show _ = Except.ok (⟨(b.pre.get? i).getD [], b.post.get? i, b.xpost.get? i,
    b.captures.oldVars.get? i, b.captures.oldExprDecls.get? i, b.captures.oldExprs.get? i⟩ : SpecCase)
  rw [hstores.pre, hstores.post, hstores.xpost, hstores.oldVars, hget, hholds.exprs]
  rfl

theorem casesOfSegments (hb : Follows sc ds (caseSegments ds) nss [] [] b) (m : Method) :
    CasesOfSegments sc ds nss (b.contract m) where
  indices := hb.indices
  olds := hb.olds
  cases := by
    have hread : ∀ p ∈ (caseSegments ds).zipIdx, sc.readCase (numberedOlds nss) p.2 p.1
        = .ok ((b.contract m).caseAt p.2 (((b.contract m).pre.get? p.2).getD [])) := by
      rintro ⟨seg, i⟩ hp
      exact hb.readCase_eq m (List.mem_zipIdx_iff_getElem?.1 hp)
    have hindices : (b.contract m).pre.indices = (caseSegments ds).zipIdx.map fun p => (p.2 : Int) := by
      show b.pre.indices = _
      rw [hb.indices, List.range_eq_range', ← List.zipIdx_map_snd, List.map_map]
      rfl
    rw [mapM_eq_ok_map hread, Contract.cases_eq_map, hindices, List.map_map]
    rfl
  lets := hb.lets

/-- every index of the draft belongs to a case that has ended -/
theorem closed (hb : Follows sc ds done nss [] [] b) (m : Method) : (b.contract m).Closed := by
  have hmem : ∀ {i : Int}, 0 ≤ i → i < done.length → i ∈ b.pre.indices := by
    intro i hi hlt
    rw [hb.indices]
    exact List.mem_map.2 ⟨i.toNat, List.mem_range.2 (by omega), by omega⟩
  obtain ⟨ks, hks, hcollects⟩ := hb.current
  obtain rfl : [] = ks := Except.ok.inj (hks [])
  -- nothing is stored for the current case, which has no directives
  have hlist : ∀ {α : Type} {t : CaseTable (List α)},
      (∀ i ∈ t.indices, 0 ≤ i ∧ i ≤ (done.length : Int)) → t.get? b.index = none →
      ∀ i ∈ t.indices, i ∈ b.pre.indices := by
    intro α t ht hnone i hi
    obtain ⟨hpos, hle⟩ := ht i hi
    have hne : i ≠ done.length := by
      rintro rfl
      rw [hb.index] at hnone
      exact CaseTable.get?_eq_none_iff.1 hnone hi
    exact hmem hpos (by omega)
  have hholds := hb.captures
  rw [numberedOlds_concat_nil] at hholds
  have hold : ∀ {i : Int}, oldsOf (numberedOlds nss) i ≠ [] → i ∈ b.pre.indices := by
    intro i hne
    obtain ⟨n, hn⟩ := List.exists_mem_of_ne_nil _ hne
    obtain ⟨j, hj, rfl⟩ := index_of_mem_numberedOlds (mem_oldsOf.1 hn)
    rw [hb.length_olds] at hj
    exact hmem (by omega) (by omega)
  constructor
  · intro i hi
    obtain ⟨hpos, hlt⟩ := hb.post i hi
    exact hmem hpos hlt
  · exact hlist hb.xpost hcollects.xpost
  · exact hlist hb.oldVars hcollects.oldVars
  · intro i hi
    obtain ⟨decls, hdecls, hget⟩ := hholds.decls i
    refine hold fun hnil => ?_
    rw [hnil] at hdecls
    cases hdecls
    exact CaseTable.get?_eq_none_iff.1 hget hi
  · intro i hi
    refine hold fun hnil => ?_
    have hget := hholds.exprs i
    rw [hnil] at hget
    exact CaseTable.get?_eq_none_iff.1 hget hi

end Draft.Follows

namespace Declaration

/-- the contract of a declaration, before its captures are guarded -/
def plainContract (d : Declaration) : Except DirectiveFault Contract := do
  let m ← d.method
  let b ← d.directives.foldlM (Draft.stepLocated (d.scope m)) {}
  return b.flush.contract m

theorem contract_eq_ok {d : Declaration} {r : DeclaredContract} (h : d.contract = .ok r) :
    ∃ c, d.plainContract = .ok c ∧ r.contract = c.guardCaptures := by
  obtain ⟨m, hm, h⟩ := except_bind_eq_ok h
  obtain ⟨b, hb, h⟩ := except_bind_eq_ok h
  cases h
  refine ⟨b.flush.contract m, ?_, rfl⟩
  rw [plainContract, hm]
  show (d.directives.foldlM (Draft.stepLocated (d.scope m)) {} >>= fun b => _) = _
  rw [hb]
  rfl

theorem plainContract_cases {d : Declaration} {c : Contract} (h : d.plainContract = .ok c) :
    ∃ m nss, d.method = .ok m ∧ CasesOfSegments (d.scope m) d.directives nss c ∧ c.Closed := by
  obtain ⟨m, hm, h⟩ := except_bind_eq_ok h
  obtain ⟨b, hb, h⟩ := except_bind_eq_ok h
  cases h
  obtain ⟨done, nss, cur, ns, hfollows, hsegs⟩ := Draft.follows_empty.run hb
  obtain ⟨nss', hflush⟩ := hfollows.flush
  have hhead : (segments d.directives).modifyHead (([] : List Directive) ++ ·)
      = segments d.directives := congrFun List.modifyHead_id _
  have hdone : done ++ [cur].filter hasClause = caseSegments d.directives := by
    rw [hsegs, hhead]
    rfl
  rw [hdone] at hflush
  exact ⟨m, nss', hm, hflush.casesOfSegments m, hflush.closed m⟩

end Declaration

namespace Contract

/-- a guard changes captures only -/
theorem guardCaptures_eq (c : Contract) : c.guardCaptures =
    { c with oldVars := c.guardCaptures.oldVars, oldExprs := c.guardCaptures.oldExprs } := by
  unfold guardCaptures
  split <;> rfl

theorem Closed.guardCaptures {c : Contract} (h : c.Closed) : c.guardCaptures.Closed := by
  unfold Contract.guardCaptures
  split
  · exact h
  · constructor
    · exact h.post
    · exact h.xpost
    · show ∀ i ∈ (c.oldVars.mapValues _).indices, _
      rw [CaseTable.indices_mapValues]
      exact h.oldVars
    · exact h.oldExprDecls
    · show ∀ i ∈ (c.oldExprs.mapValues _).indices, _
      rw [CaseTable.indices_mapValues]
      exact h.oldExprs

end Contract

end ContractChecks
