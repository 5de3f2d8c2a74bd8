import ContractChecks.Contract.IndexedTable
import ContractChecks.Proofs.Lists
import ContractChecks.Proofs.SpecCase

/-!
# Runs of writes into a table

What a table holds after any sequence of writes, said from the writes alone, and what a visit of the
table calls its callback on.

* `CaseTable.successes t ws`: the writes of a sequence that do not fail;
* `written ws`: what writes that all succeed store, in their order, with the index of each;
* `CaseTable.Records t log`: the indices of `t` are those of `log`, by first occurrence, and its values
  the last ones; `Records.write` is one write, `Records.run` a sequence of them;
* `Visit f s es seen r`: a visit of the entries `es` that stops at the first failure;
  `CaseTable.visit_each` says that `CaseTable.each` is one, of the current values;
* `IndexedTable.Represents t u`: the list and the map of `t` hold what `u` holds; every write keeps
  this (`Represents.write`), and a visit cannot tell the two apart (`Represents.each_eq`).
-/

namespace ContractChecks

/-! ### one write -/

/-- the value that is stored over an old one -/
def Write.value : {α : Type} → Write α → Option α → α
  | _, .put _ v, _ => v
  | _, .set _ v, _ => v
  | _, .append _ vs, old => old.getD [] ++ vs

namespace CaseTable

variable {α : Type}

/-- the one sort of write that fails: a new value for an index that has one -/
def Refuses (t : CaseTable α) (w : Write α) : Prop := ∃ i v, w = .put i v ∧ i ∈ t.indices

theorem write_of_refuses {t : CaseTable α} {w : Write α} (h : t.Refuses w) :
    t.write w = (.error (.clause w.index .duplicateCase), t) := by
  obtain ⟨i, v, rfl, hi⟩ := h
  rw [write, put?, if_pos (contains_iff.2 hi)]
  rfl

/-- every other write sets the value of its index -/
theorem write_of_not_refuses {t : CaseTable α} {w : Write α} (h : ¬t.Refuses w) :
    t.write w = (.ok (), t.set w.index (w.value (t.get? w.index))) := by
  cases w with
  | put i v =>
    have hi : ¬t.contains i = true := fun hi => h ⟨i, v, rfl, contains_iff.1 hi⟩
    rw [write, put?, if_neg hi]
    rfl
  | set i v => rfl
  | append i vs => rfl

theorem write_fails_iff {t : CaseTable α} {w : Write α} :
    (∃ fault, (t.write w).1 = .error fault) ↔ t.Refuses w := by
  constructor
  · rintro ⟨fault, hfault⟩
    by_contra h
    rw [write_of_not_refuses h] at hfault
    cases hfault
  · intro h
    exact ⟨_, congrArg Prod.fst (write_of_refuses h)⟩

/-! ### sequences of writes -/

/-- the writes that do not fail when the sequence is made -/
def successes (t : CaseTable α) : List (Write α) → List (Write α)
  | [] => []
  | w :: ws =>
    match (t.write w).1 with
    | .ok _ => w :: (t.write w).2.successes ws
    | .error _ => (t.write w).2.successes ws

end CaseTable

variable {α : Type}

def lastValue? (log : List (Int × α)) (i : Int) : Option α := log.reverse.lookup i

def Write.record (log : List (Int × α)) (w : Write α) : List (Int × α) :=
  log ++ [(w.index, w.value (lastValue? log w.index))]

/-- what a sequence of successful writes stores -/
def written (ws : List (Write α)) : List (Int × α) := ws.foldl Write.record []

theorem lastValue?_concat (log : List (Int × α)) (i j : Int) (v : α) :
    lastValue? (log ++ [(i, v)]) j = if j = i then some v else lastValue? log j := by
  rw [lastValue?, List.reverse_append, List.reverse_singleton, List.singleton_append,
    lookup_cons_eq_ite]
  rfl

namespace CaseTable

/-- the indices in the order of their first occurrence in `log`, with the values of their last -/
structure Records (t : CaseTable α) (log : List (Int × α)) : Prop where
  indices : t.indices = (log.map Prod.fst).eraseDups
  get? : ∀ i, t.get? i = lastValue? log i

theorem records_empty : (empty : CaseTable α).Records [] := ⟨rfl, fun _ => rfl⟩

theorem Records.set {t : CaseTable α} {log : List (Int × α)} (h : t.Records log) (i : Int) (v : α) :
    (t.set i v).Records (log ++ [(i, v)]) where
  indices := by
    rw [indices_set, List.map_append, List.map_singleton, eraseDups_concat, h.indices]
    exact if_congr List.mem_eraseDups rfl rfl
  get? j := by rw [get?_set, lastValue?_concat, h.get?]

theorem Records.write {t : CaseTable α} {log : List (Int × α)} (h : t.Records log) {w : Write α}
    (hw : ¬t.Refuses w) : (t.write w).2.Records (w.record log) := by
  rw [write_of_not_refuses hw, Write.record, ← h.get?]
  exact h.set w.index _

theorem Records.run {t : CaseTable α} {log : List (Int × α)} (h : t.Records log)
    (ws : List (Write α)) :
    (t.run ws).Records ((t.successes ws).foldl Write.record log) := by
  induction ws generalizing t log with
  | nil => exact h
  | cons w ws ih =>
    show ((t.write w).2.run ws).Records _
    rw [successes]
    by_cases hw : t.Refuses w
    · -- neither the table nor the log changes
      rw [write_of_refuses hw]
      exact ih h
    · have hnext := ih (h.write hw)
      rw [write_of_not_refuses hw] at hnext ⊢
      exact hnext

end CaseTable

/-! ### visits -/

section visits

variable {σ ε : Type}

/-- the callback succeeds on the entries one after another, from the state `s` to the state `s'` -/
inductive Accepts (f : σ → Int → α → Except ε σ) : σ → List (Int × α) → σ → Prop where
  | nil (s : σ) : Accepts f s [] s
  | cons {s s₁ s₂ : σ} {i : Int} {v : α} {es : List (Int × α)} (head : f s i v = .ok s₁)
      (tail : Accepts f s₁ es s₂) : Accepts f s ((i, v) :: es) s₂

/-- the callback is called on the entries `seen` out of `es`: on all of them if it succeeds on all, else
on those up to the first failure, which is the result -/
inductive Visit (f : σ → Int → α → Except ε σ) (s : σ) (es : List (Int × α)) :
    List (Int × α) → Except ε σ → Prop where
  | all {s' : σ} (h : Accepts f s es s') : Visit f s es es (.ok s')
  | upTo {before after : List (Int × α)} {i : Int} {v : α} {s' : σ} {e : ε}
      (split : es = before ++ (i, v) :: after) (accepted : Accepts f s before s')
      (failed : f s' i v = .error e) : Visit f s es (before ++ [(i, v)]) (.error e)

theorem Visit.cons {f : σ → Int → α → Except ε σ} {s s₁ : σ} {i : Int} {v : α}
    {es seen : List (Int × α)} {r : Except ε σ} (head : f s i v = .ok s₁)
    (tail : Visit f s₁ es seen r) : Visit f s ((i, v) :: es) ((i, v) :: seen) r := by
  cases tail with
  | all h => exact .all (.cons head h)
  | upTo split accepted failed =>
    exact .upTo (congrArg (List.cons (i, v)) split) (.cons head accepted) failed

/-- a result, with notes -/
def noted (seen : List (Int × α)) : Except ε σ → Except (List (Int × α) × ε) (List (Int × α) × σ)
  | .ok s => .ok (seen, s)
  | .error e => .error (seen, e)

/-- a callback that notes the entries it is called on -/
def noting (f : σ → Int → α → Except ε σ) (s : List (Int × α) × σ) (i : Int) (v : α) :
    Except (List (Int × α) × ε) (List (Int × α) × σ) :=
  noted (s.1 ++ [(i, v)]) (f s.2 i v)

def notes : Except (List (Int × α) × ε) (List (Int × α) × σ) → List (Int × α)
  | .ok p => p.1
  | .error p => p.1

theorem notes_noted (seen : List (Int × α)) (r : Except ε σ) : notes (noted seen r) = seen := by
  cases r <;> rfl

/-- a fold that stops at the first failure is a visit, and noting its calls does not change it -/
theorem visit_foldlM (f : σ → Int → α → Except ε σ) (es : List (Int × α)) (s : σ)
    (before : List (Int × α)) :
    ∃ seen, Visit f s es seen (es.foldlM (fun s e => f s e.1 e.2) s) ∧
      es.foldlM (fun s e => noting f s e.1 e.2) (before, s)
        = noted (before ++ seen) (es.foldlM (fun s e => f s e.1 e.2) s) := by
  induction es generalizing s before with
  | nil =>
    refine ⟨[], .all (.nil s), ?_⟩
    rw [List.append_nil]
    rfl
  | cons e es ih =>
    obtain ⟨i, v⟩ := e
    rw [List.foldlM_cons, List.foldlM_cons, noting]
    cases hf : f s i v with
    | error e => exact ⟨[(i, v)], .upTo (List.nil_append _).symm (.nil s) hf, rfl⟩
    | ok s₁ =>
      -- the rest is visited with this entry noted, so its notes come in front of the others
      obtain ⟨seen, hvisit, hnotes⟩ := ih s₁ (before ++ [(i, v)])
      rw [List.append_assoc] at hnotes
      exact ⟨(i, v) :: seen, .cons hf hvisit, hnotes⟩

namespace CaseTable

/-- the indices in order, each with its current value -/
def pairs (t : CaseTable α) : List (Int × α) :=
  t.indices.filterMap fun i => (t.get? i).map (Prod.mk i)

/-- the entries that a visit of the table calls the callback on -/
def visited (t : CaseTable α) (f : σ → Int → α → Except ε σ) (s : σ) : List (Int × α) :=
  notes (t.each (noting f) ([], s))

theorem pairs_eq_entries (t : CaseTable α) : t.pairs = t.entries := by
  rw [pairs, indices, List.filterMap_map]
  conv_rhs => rw [← List.filterMap_some (l := t.entries)]
  refine List.filterMap_congr fun e he => ?_
  show (t.get? e.1).map (Prod.mk e.1) = some e
  rw [t.mem_entries_iff.1 he]
  rfl

theorem visit_each (t : CaseTable α) (f : σ → Int → α → Except ε σ) (s : σ) :
    Visit f s t.pairs (t.visited f s) (t.each f s) := by
  obtain ⟨seen, hvisit, hnotes⟩ := visit_foldlM f t.entries s []
  have hseen : t.visited f s = seen := by
    rw [visited, each, hnotes, notes_noted, List.nil_append]
  rw [pairs_eq_entries, hseen]
  exact hvisit

end CaseTable

end visits

/-! ### lists beside maps -/

namespace IndexedTable

/-- the list has the indices of `u` in their order, and the map its values -/
structure Represents (t : IndexedTable α) (u : CaseTable α) : Prop where
  indices : t.indices = u.indices
  values : ∀ i, t.values i = u.get? i

variable {t : IndexedTable α} {u : CaseTable α}

theorem represents_empty : (empty : IndexedTable α).Represents .empty := ⟨rfl, fun _ => rfl⟩

theorem Represents.contains_iff (h : t.Represents u) {i : Int} :
    t.contains i = true ↔ i ∈ u.indices := by
  rw [contains, h.values, Option.isSome_iff_ne_none, Ne, CaseTable.get?_eq_none_iff, not_not]

theorem Represents.set (h : t.Represents u) (i : Int) (v : α) :
    (t.set i v).Represents (u.set i v) where
  indices := by
    rw [CaseTable.indices_set, ← h.indices]
    exact if_congr (h.indices ▸ h.contains_iff) rfl rfl
  values j := by
    rw [CaseTable.get?_set, ← h.values]
    rfl

/-- the two tables answer a write alike -/
theorem Represents.write (h : t.Represents u) (w : Write α) :
    (t.write w).1 = (u.write w).1 ∧ (t.write w).2.Represents (u.write w).2 := by
  cases w with
  | put i v =>
    have hcontains : t.contains i = u.contains i :=
      Bool.eq_iff_iff.2 (h.contains_iff.trans CaseTable.contains_iff.symm)
    rw [IndexedTable.write, CaseTable.write, put?, CaseTable.put?, hcontains]
    cases u.contains i with
    | true => exact ⟨rfl, h⟩
    | false => exact ⟨rfl, h.set i v⟩
  | set i v => exact ⟨rfl, h.set i v⟩
  | append i vs =>
    refine ⟨rfl, ?_⟩
    show (t.set i ((t.values i).getD [] ++ vs)).Represents (u.set i ((u.get? i).getD [] ++ vs))
    rw [h.values]
    exact h.set i _

theorem Represents.run (h : t.Represents u) (ws : List (Write α)) :
    (t.run ws).Represents (u.run ws) := by
  induction ws generalizing t u with
  | nil => exact h
  | cons w ws ih => exact ih (h.write w).2

/-- a fold over keys that looks up the values of the entries is one over the entries -/
theorem foldlM_keys {σ ε : Type} (zero : α) (f : σ → Int → α → Except ε σ) {g : Int → Option α}
    {es : List (Int × α)} (h : ∀ e ∈ es, g e.1 = some e.2) (s : σ) :
    (es.map Prod.fst).foldlM (fun s i => f s i ((g i).getD zero)) s
      = es.foldlM (fun s e => f s e.1 e.2) s := by
  rw [List.foldlM_map]
  induction es generalizing s with
  | nil => rfl
  | cons e es ih =>
    obtain ⟨he, hes⟩ := List.forall_mem_cons.1 h
    rw [List.foldlM_cons, List.foldlM_cons, he]
    exact congrArg (f s e.1 e.2 >>= ·) (funext (ih hes))

/-- no index of the list is without a value -/
theorem Represents.each_eq {σ ε : Type} (h : t.Represents u) (zero : α)
    (f : σ → Int → α → Except ε σ) (s : σ) : t.each zero f s = u.each f s := by
  rw [each, h.indices]
  refine foldlM_keys zero f (fun e he => ?_) s
  rw [h.values]
  exact u.mem_entries_iff.1 he

end IndexedTable

/-! ### all runs -/

/-- After any sequence of writes into an empty table the indices are distinct and stand in the order of
the first successful writes, and each has the value that was stored last.  A further write fails only
as a `put` for an index that is there, and then changes nothing.  A visit calls its callback on the
indices in order, with their current values, up to and including the first failure.  All this is so
of a list kept beside a map. -/
theorem CaseTable.run_exact (ws : List (Write α)) :
    let t := (CaseTable.empty : CaseTable α).run ws
    let log := written ((CaseTable.empty : CaseTable α).successes ws)
    t.indices.Nodup ∧
      t.indices = (log.map Prod.fst).eraseDups ∧
      (∀ i, t.get? i = lastValue? log i) ∧
      (∀ w, (∃ fault, (t.write w).1 = .error fault) ↔ ∃ i v, w = .put i v ∧ i ∈ t.indices) ∧
      (∀ w fault, (t.write w).1 = .error fault →
        fault = .clause w.index .duplicateCase ∧ (t.write w).2 = t) ∧
      t.pairs.map Prod.fst = t.indices ∧
      (∀ (σ ε : Type) (f : σ → Int → α → Except ε σ) (s : σ),
        Visit f s t.pairs (t.visited f s) (t.each f s)) ∧
      let t' := (IndexedTable.empty : IndexedTable α).run ws
      t'.Represents t ∧
        (∀ w, (t'.write w).1 = (t.write w).1 ∧ (t'.write w).2.Represents (t.write w).2) ∧
        ∀ (σ ε : Type) (zero : α) (f : σ → Int → α → Except ε σ) (s : σ),
          t'.each zero f s = t.each f s := by
  intro t log
  have hrecords : t.Records log := records_empty.run ws
  refine ⟨t.nodup_indices, hrecords.indices, hrecords.get?, fun w => write_fails_iff, ?_, ?_,
    fun σ ε f s => t.visit_each f s, ?_⟩
  · intro w fault hfault
    have hrefused := write_of_refuses (write_fails_iff.1 ⟨fault, hfault⟩)
    rw [hrefused] at hfault ⊢
    cases hfault
    exact ⟨rfl, rfl⟩
  · rw [pairs_eq_entries]
    rfl
  · have hrepr := IndexedTable.represents_empty.run ws
    exact ⟨hrepr, hrepr.write, fun σ ε => hrepr.each_eq⟩

/-- writes for the captures of three spec cases, of which the third fails -/
def captureWrites : List (Write (List Text)) :=
  [.put 3 ["size"], .append 1 ["before"], .put 1 ["again"], .set 3 ["count"], .append 1 ["top", "rest"],
    .put 2 []]

theorem CaseTable.run_exact_captureWrites :
    let t := (CaseTable.empty : CaseTable (List Text)).run captureWrites
    t.indices = [3, 1, 2] ∧ t.get? 3 = some (["count"] : List Text) ∧
      t.get? 1 = some (["before", "top", "rest"] : List Text) ∧
      (t.write (.put 2 ["last"])).1 = .error (.clause 2 .duplicateCase) ∧
      (t.write (.put 2 ["last"])).2 = t :=
  ⟨rfl, rfl, rfl, rfl, ((CaseTable.run_exact captureWrites).2.2.2.2.1 (.put 2 ["last"]) _ rfl).2⟩

end ContractChecks
