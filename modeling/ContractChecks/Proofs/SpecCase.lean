import Mathlib.Data.List.Nodup
import Mathlib.Data.List.Perm.Basic
import ContractChecks.Contract.Basic
import ContractChecks.Proofs.Except

/-!
# Spec cases

A contract read case by case, in the order of its preconditions, in place of table by table.

* `CaseTable.mem_entries_iff`, `CaseTable.get?_set`, `CaseTable.indices_set`: look-ups, and what a write
  changes;
* `CaseTable.flatMap_perm`: the values of a table, visited in the order of other indices;
* `Contract.cases c`: the spec cases of a contract;
* `Contract.HasCases c ks`: the spec cases of a contract are `ks`, numbered from zero;
* `HasCases.cases_eq`, `HasCases.closed`, `validate_eq_ok`: the cases of such a contract are `ks`, and
  it is valid.
-/

namespace ContractChecks

theorem lookup_cons_eq_ite {κ α : Type} [BEq κ] [LawfulBEq κ] [DecidableEq κ] (e : κ × α)
    (es : List (κ × α)) (i : κ) :
    (e :: es).lookup i = if i = e.1 then some e.2 else es.lookup i := by
  rw [List.lookup_cons]
  by_cases h : i = e.1
  · rw [if_pos h, beq_iff_eq.2 h]
  · rw [if_neg h, beq_eq_false_iff_ne.2 h]

namespace CaseTable

variable {α β : Type}

/-! ### look-ups -/

theorem mem_entries_iff (t : CaseTable α) {i : Int} {v : α} :
    (i, v) ∈ t.entries ↔ t.get? i = some v := by
  obtain ⟨es, hnd⟩ := t
  show (i, v) ∈ es ↔ es.lookup i = some v
  induction es with
  | nil => simp
  | cons e es ih =>
    obtain ⟨j, w⟩ := e
    obtain ⟨hj, hes⟩ := List.nodup_cons.1 hnd
    rw [List.mem_cons, lookup_cons_eq_ite]
    by_cases hij : i = j
    · subst hij
      have hnot : (i, v) ∉ es := fun h => hj (List.mem_map.2 ⟨_, h, rfl⟩)
      simp [hnot, eq_comm]
    · simp [hij, ih hes]

theorem mem_indices_iff (t : CaseTable α) {i : Int} : i ∈ t.indices ↔ ∃ v, t.get? i = some v := by
  constructor
  · intro h
    obtain ⟨⟨j, v⟩, he, rfl⟩ := List.mem_map.1 h
    exact ⟨v, t.mem_entries_iff.1 he⟩
  · rintro ⟨v, h⟩
    exact List.mem_map.2 ⟨(i, v), t.mem_entries_iff.2 h, rfl⟩

theorem get?_eq_none_iff {t : CaseTable α} {i : Int} : t.get? i = none ↔ i ∉ t.indices := by
  rw [t.mem_indices_iff, ← Option.isSome_iff_exists, Option.not_isSome_iff_eq_none]

theorem contains_iff {t : CaseTable α} {i : Int} : t.contains i = true ↔ i ∈ t.indices := by
  rw [contains, List.contains_iff_mem]

theorem nodup_indices (t : CaseTable α) : t.indices.Nodup := t.nodup

theorem lookup_setEntries (i j : Int) (v : α) (es : List (Int × α)) :
    (setEntries i v es).lookup j = if j = i then some v else es.lookup j := by
  induction es with
  | nil => rw [setEntries, lookup_cons_eq_ite]
  | cons e es ih =>
    rw [setEntries]
    by_cases he : e.1 = i
    · rw [if_pos he, lookup_cons_eq_ite, lookup_cons_eq_ite, he]
      by_cases hj : j = i <;> simp [hj]
    · rw [if_neg he, lookup_cons_eq_ite, ih, lookup_cons_eq_ite]
      by_cases hj : j = i
      · have hie : i ≠ e.1 := fun h => he h.symm
        rw [if_pos hj, if_pos hj, if_neg (hj ▸ hie)]
      · rw [if_neg hj, if_neg hj]

theorem get?_set (t : CaseTable α) (i j : Int) (v : α) :
    (t.set i v).get? j = if j = i then some v else t.get? j := lookup_setEntries i j v t.entries

theorem indices_set (t : CaseTable α) (i : Int) (v : α) :
    (t.set i v).indices = if i ∈ t.indices then t.indices else t.indices ++ [i] :=
  keys_setEntries i v t.entries

theorem indices_set_of_get? {t : CaseTable α} {i : Int} (h : t.get? i = none) (v : α) :
    (t.set i v).indices = t.indices ++ [i] := by
  rw [indices_set, if_neg (get?_eq_none_iff.1 h)]

theorem indices_mapValues (f : Int → α → β) (t : CaseTable α) :
    (t.mapValues f).indices = t.indices := by
  show (t.entries.map fun e => (e.1, f e.1 e.2)).map Prod.fst = t.entries.map Prod.fst
  rw [List.map_map]
  rfl

theorem get?_mapValues (f : Int → α → β) (t : CaseTable α) (i : Int) :
    (t.mapValues f).get? i = (t.get? i).map (f i) := by
  show (t.entries.map fun e => (e.1, f e.1 e.2)).lookup i = (t.entries.lookup i).map (f i)
  induction t.entries with
  | nil => rfl
  | cons e es ih =>
    rw [List.map_cons, lookup_cons_eq_ite, lookup_cons_eq_ite, ih]
    by_cases hi : i = e.1
    · rw [if_pos hi, if_pos hi, hi]
      rfl
    · rw [if_neg hi, if_neg hi]

theorem list_mapValues (g : Int → α → β) (t : CaseTable (List α)) (i : Int) :
    (t.mapValues fun i vs => vs.map (g i)).list i = (t.list i).map (g i) := by
  unfold list
  rw [get?_mapValues]
  cases t.get? i <;> rfl

theorem mapValues_id {g : Int → α → α} (hg : ∀ i v, g i v = v)
    (t : CaseTable α) : t.mapValues g = t := by
  obtain ⟨es, hnd⟩ := t
  have hes : es.map (fun e => (e.1, g e.1 e.2)) = es := by
    conv_rhs => rw [← List.map_id es]
    exact List.map_congr_left fun e _ => by rw [hg]; rfl
  unfold mapValues
  congr

theorem mem_list {t : CaseTable (List α)} {i : Int} {x : α} (h : x ∈ t.list i) :
    ∃ vs, (i, vs) ∈ t.entries ∧ x ∈ vs := by
  unfold list at h
  cases hget : t.get? i with
  | none =>
    rw [hget] at h
    cases h
  | some vs =>
    rw [hget] at h
    exact ⟨vs, t.mem_entries_iff.2 hget, h⟩

/-- the values of a table in the order of any list of indices that has all of its own -/
theorem flatMap_perm (t : CaseTable α) {is : List Int} (hnd : is.Nodup)
    (h : ∀ i ∈ t.indices, i ∈ is) (g : α → List β) :
    (t.entries.flatMap fun e => g e.2).Perm (is.flatMap fun i => ((t.get? i).map g).getD []) := by
  have hsplit : (is.flatMap fun i => ((t.get? i).map g).getD [])
      = (is.filter fun i => i ∈ t.indices).flatMap fun i => ((t.get? i).map g).getD [] := by
    clear hnd h
    induction is with
    | nil => rfl
    | cons i is ih =>
      rw [List.flatMap_cons, List.filter_cons, ih]
      by_cases hi : i ∈ t.indices
      · rw [if_pos (decide_eq_true hi), List.flatMap_cons]
      · rw [if_neg (by simpa using hi), get?_eq_none_iff.2 hi]
        rfl
  have hown : (t.entries.flatMap fun e => g e.2)
      = t.indices.flatMap fun i => ((t.get? i).map g).getD [] := by
    show _ = (t.entries.map Prod.fst).flatMap _
    rw [List.flatMap_map]
    refine List.flatMap_congr fun e he => ?_
    rw [t.mem_entries_iff.1 he]
    rfl
  have hperm : t.indices.Perm (is.filter fun i => i ∈ t.indices) := by
    refine (List.perm_ext_iff_of_nodup t.nodup_indices (hnd.filter _)).2 fun i => ?_
    rw [List.mem_filter, decide_eq_true_iff]
    exact ⟨fun hi => ⟨h i hi, hi⟩, fun hi => hi.2⟩
  rw [hown, hsplit]
  exact hperm.flatMap_right _

end CaseTable

/-! ### the spec cases of a contract -/

/-- the clauses of one spec case -/
structure SpecCase where
  pre : Text
  post : Option Text
  signals : Option (List Signals)
  oldVars : Option (List OldVar)
  oldExprDecls : Option (List Text)
  oldExprs : Option (List Text)
deriving DecidableEq

namespace Contract

/-- the clauses stored for an index, with the precondition `pre` -/
def caseAt (c : Contract) (i : Int) (pre : Text) : SpecCase :=
  ⟨pre, c.post.get? i, c.xpost.get? i, c.oldVars.get? i, c.oldExprDecls.get? i, c.oldExprs.get? i⟩

def cases (c : Contract) : List SpecCase := c.pre.entries.map fun e => c.caseAt e.1 e.2

end Contract

def caseNumbered (ks : List SpecCase) (j : Int) : Option SpecCase :=
  if j < 0 then none else ks[j.toNat]?

theorem caseNumbered_natCast (ks : List SpecCase) (i : Nat) :
    caseNumbered ks i = ks[i]? := by
  rw [caseNumbered, if_neg (by omega), Int.toNat_natCast]

theorem caseNumbered_eq_some {ks : List SpecCase} {j : Int} {k : SpecCase}
    (h : caseNumbered ks j = some k) : ∃ i : Nat, j = i ∧ ks[i]? = some k := by
  rw [caseNumbered] at h
  split at h
  · cases h
  · exact ⟨j.toNat, by omega, h⟩

theorem caseNumbered_append (ks : List SpecCase) (k : SpecCase) (j : Int) :
    caseNumbered (ks ++ [k]) j = if j = ks.length then some k else caseNumbered ks j := by
  by_cases hj : j < 0
  · rw [caseNumbered, caseNumbered, if_pos hj, if_pos hj, if_neg (by omega)]
  · obtain ⟨i, rfl⟩ : ∃ i : Nat, j = i := ⟨j.toNat, by omega⟩
    rw [caseNumbered_natCast, caseNumbered_natCast, List.getElem?_append]
    by_cases hi : i < ks.length
    · rw [if_pos hi, if_neg (by omega)]
    · rw [if_neg hi]
      by_cases he : i = ks.length
      · rw [he, if_pos rfl, Nat.sub_self]
        rfl
      · rw [if_neg (by omega), List.getElem?_eq_none (by simp; omega),
          List.getElem?_eq_none (by omega)]

theorem caseNumbered_set {ks : List SpecCase} {i : Nat} (hi : i < ks.length) (k : SpecCase)
    (j : Int) :
    caseNumbered (ks.set i k) j = if j = i then some k else caseNumbered ks j := by
  by_cases hj : j < 0
  · rw [caseNumbered, caseNumbered, if_pos hj, if_pos hj, if_neg (by omega)]
  · obtain ⟨n, rfl⟩ : ∃ n : Nat, j = n := ⟨j.toNat, by omega⟩
    rw [caseNumbered_natCast, caseNumbered_natCast, List.getElem?_set]
    by_cases h : i = n
    · rw [if_pos h, if_pos hi, if_pos (by omega)]
    · rw [if_neg h, if_neg (by omega)]

theorem forall_entries_iff {α : Type} {t : CaseTable α} {ks : List SpecCase}
    {field : SpecCase → Option α} (ht : ∀ j, t.get? j = (caseNumbered ks j).bind field)
    (P : α → Prop) : (∀ e ∈ t.entries, P e.2) ↔ ∀ k ∈ ks, ∀ v ∈ field k, P v := by
  constructor
  · intro h k hk v hv
    obtain ⟨i, hi⟩ := List.mem_iff_getElem?.1 hk
    have hget : t.get? i = some v := by
      rw [ht, caseNumbered_natCast, hi]
      exact hv
    exact h ((i : Int), v) (t.mem_entries_iff.2 hget)
  · rintro h ⟨j, v⟩ he
    have hget := t.mem_entries_iff.1 he
    rw [ht] at hget
    obtain ⟨k, hk, hv⟩ := Option.bind_eq_some_iff.1 hget
    obtain ⟨i, rfl, hi⟩ := caseNumbered_eq_some hk
    exact h k (List.mem_of_getElem? hi) v hv

/-! ### numbered cases -/

namespace Contract

/-- the spec cases of the contract are `ks`, numbered from zero, and no table has more -/
structure HasCases (c : Contract) (ks : List SpecCase) : Prop where
  indices : c.pre.indices = (List.range ks.length).map Nat.cast
  pre : ∀ j, c.pre.get? j = (caseNumbered ks j).map SpecCase.pre
  post : ∀ j, c.post.get? j = (caseNumbered ks j).bind SpecCase.post
  xpost : ∀ j, c.xpost.get? j = (caseNumbered ks j).bind SpecCase.signals
  oldVars : ∀ j, c.oldVars.get? j = (caseNumbered ks j).bind SpecCase.oldVars
  oldExprDecls : ∀ j, c.oldExprDecls.get? j = (caseNumbered ks j).bind SpecCase.oldExprDecls
  oldExprs : ∀ j, c.oldExprs.get? j = (caseNumbered ks j).bind SpecCase.oldExprs

variable {c : Contract} {ks : List SpecCase}

theorem hasCases_nil (m : Method) : ({ method := m } : Contract).HasCases [] := by
  have hnone : ∀ j, caseNumbered [] j = none := by
    intro j
    rw [caseNumbered]
    split <;> rfl
  constructor
  case indices => rfl
  all_goals
    intro j
    rw [hnone]
    rfl

theorem HasCases.caseAt_eq (h : c.HasCases ks) {i : Nat} {k : SpecCase} (hk : ks[i]? = some k) :
    c.caseAt i k.pre = k := by
  have hnum : caseNumbered ks i = some k := by rw [caseNumbered_natCast, hk]
  rw [caseAt, h.post, h.xpost, h.oldVars, h.oldExprDecls, h.oldExprs, hnum]
  rfl

theorem HasCases.entries_eq (h : c.HasCases ks) :
    c.pre.entries = ks.zipIdx.map fun p => ((p.2 : Int), p.1.pre) := by
  have hlen : c.pre.entries.length = ks.length := by
    have hmap := congrArg List.length h.indices
    rw [List.length_map, List.length_range] at hmap
    rw [← hmap]
    exact (List.length_map Prod.fst).symm
  refine List.ext_getElem (by rw [hlen, List.length_map, List.length_zipIdx]) fun n hn _ => ?_
  have hk : n < ks.length := hlen ▸ hn
  have hfst : (c.pre.entries[n]).1 = (n : Int) := by
    have hget : (c.pre.indices)[n]? = some (c.pre.entries[n]).1 := by
      show (c.pre.entries.map Prod.fst)[n]? = _
      rw [List.getElem?_map, List.getElem?_eq_getElem hn]
      rfl
    rw [h.indices, List.getElem?_map, List.getElem?_range hk] at hget
    exact (Option.some.inj hget).symm
  have hsnd : some (c.pre.entries[n]).2 = some (ks[n]).pre := by
    have hmem : ((n : Int), (c.pre.entries[n]).2) ∈ c.pre.entries := hfst ▸ List.getElem_mem hn
    rw [← c.pre.mem_entries_iff.1 hmem, h.pre, caseNumbered_natCast, List.getElem?_eq_getElem hk]
    rfl
  rw [List.getElem_map, List.getElem_zipIdx, Nat.zero_add]
  exact Prod.ext hfst (Option.some.inj hsnd)

theorem HasCases.cases_eq (h : c.HasCases ks) : c.cases = ks := by
  rw [Contract.cases, h.entries_eq, List.map_map]
  have hcase : ∀ p ∈ ks.zipIdx, c.caseAt (p.2 : Int) p.1.pre = p.1 := by
    rintro ⟨k, i⟩ hp
    exact h.caseAt_eq (List.mem_zipIdx_iff_getElem?.1 hp)
  calc ks.zipIdx.map (fun p => c.caseAt (p.2 : Int) p.1.pre)
      = ks.zipIdx.map Prod.fst := List.map_congr_left hcase
    _ = ks := List.zipIdx_map_fst 0 ks

end Contract

/-! ### valid contracts -/

namespace Contract

theorem checkTable_eq_ok {c : Contract} {table : DependentTable} {is : List Int} :
    c.checkTable table is = .ok () ↔ ∀ i ∈ is, i ∈ c.pre.indices := by
  have hfind : c.undeclared? is = none ↔ ∀ i ∈ is, i ∈ c.pre.indices := by
    rw [undeclared?, List.find?_eq_none]
    simp [CaseTable.contains_iff]
  rw [← hfind, checkTable]
  cases c.undeclared? is with
  | none => simp
  | some i => simp

/-- the indices of every table are among those of the preconditions -/
structure Closed (c : Contract) : Prop where
  post : ∀ i ∈ c.post.indices, i ∈ c.pre.indices
  xpost : ∀ i ∈ c.xpost.indices, i ∈ c.pre.indices
  oldVars : ∀ i ∈ c.oldVars.indices, i ∈ c.pre.indices
  oldExprDecls : ∀ i ∈ c.oldExprDecls.indices, i ∈ c.pre.indices
  oldExprs : ∀ i ∈ c.oldExprs.indices, i ∈ c.pre.indices

theorem validate_eq_ok {c : Contract} : c.validate = .ok () ↔ c.Closed := by
  rw [validate, except_seq_eq_ok, except_seq_eq_ok, except_seq_eq_ok, except_seq_eq_ok,
    checkTable_eq_ok, checkTable_eq_ok, checkTable_eq_ok, checkTable_eq_ok, checkTable_eq_ok]
  constructor
  · rintro ⟨h₁, h₂, h₃, h₄, h₅⟩
    exact ⟨h₁, h₂, h₃, h₄, h₅⟩
  · rintro ⟨h₁, h₂, h₃, h₄, h₅⟩
    exact ⟨h₁, h₂, h₃, h₄, h₅⟩

/-- an index of a table whose values come from the cases is the index of a precondition -/
theorem HasCases.mem_indices {c : Contract} {ks : List SpecCase} (h : c.HasCases ks) {α : Type}
    {t : CaseTable α} {field : SpecCase → Option α}
    (ht : ∀ j, t.get? j = (caseNumbered ks j).bind field) :
    ∀ i ∈ t.indices, i ∈ c.pre.indices := by
  intro i hi
  obtain ⟨v, hv⟩ := t.mem_indices_iff.1 hi
  rw [ht] at hv
  obtain ⟨k, hk, _⟩ := Option.bind_eq_some_iff.1 hv
  exact c.pre.mem_indices_iff.2 ⟨k.pre, by rw [h.pre, hk]; rfl⟩

theorem HasCases.closed {c : Contract} {ks : List SpecCase} (h : c.HasCases ks) : c.Closed where
  post := h.mem_indices h.post
  xpost := h.mem_indices h.xpost
  oldVars := h.mem_indices h.oldVars
  oldExprDecls := h.mem_indices h.oldExprDecls
  oldExprs := h.mem_indices h.oldExprs

end Contract

end ContractChecks
