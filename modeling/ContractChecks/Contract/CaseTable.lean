/-!
# Tables of spec cases

A table holds at most one value for each spec-case index and remembers the order in which the
indices were first written.

* `set i v`: writes a value; an index that is already there keeps its place;
* `put? i v`: writes a value for a new index only;
* `append i vs`: adds elements to the list stored for an index;
* `get? i`, `contains i`, `indices`, `size`: reading;
* `each f`: a fold over the entries that stops at the first failure.
-/

namespace ContractChecks

/-- a write into a list of entries: in place if the index is there, else at the end -/
def setEntries {α : Type} (i : Int) (v : α) : List (Int × α) → List (Int × α)
  | [] => [(i, v)]
  | e :: es => if e.1 = i then (i, v) :: es else e :: setEntries i v es

theorem keys_setEntries {α : Type} (i : Int) (v : α) (es : List (Int × α)) :
    (setEntries i v es).map Prod.fst
      = if i ∈ es.map Prod.fst then es.map Prod.fst else es.map Prod.fst ++ [i] := by
  induction es with
  | nil => simp [setEntries]
  | cons e es ih =>
    by_cases h : e.1 = i
    · simp [setEntries, h]
    · have h' : i ≠ e.1 := fun x => h x.symm
      simp only [setEntries, if_neg h, List.map_cons, ih, List.mem_cons, h', false_or]
      split <;> simp

theorem nodup_setEntries {α : Type} {i : Int} {v : α} {es : List (Int × α)}
    (h : (es.map Prod.fst).Nodup) : ((setEntries i v es).map Prod.fst).Nodup := by
  rw [keys_setEntries]
  split
  · exact h
  · rename_i hi
    rw [List.nodup_append]
    refine ⟨h, by simp, ?_⟩
    intro a ha b hb
    rw [List.mem_singleton.1 hb]
    exact fun hab => hi (hab ▸ ha)

/-- values by spec-case index, in the order of first writing -/
structure CaseTable (α : Type) where
  entries : List (Int × α) := []
  nodup : (entries.map Prod.fst).Nodup := by exact List.nodup_nil
deriving DecidableEq

namespace CaseTable

variable {α : Type}

instance : Inhabited (CaseTable α) := ⟨{}⟩

def empty : CaseTable α := {}

def indices (t : CaseTable α) : List Int := t.entries.map Prod.fst

def size (t : CaseTable α) : Nat := t.entries.length

def get? (t : CaseTable α) (i : Int) : Option α := t.entries.lookup i

def contains (t : CaseTable α) (i : Int) : Bool := t.indices.contains i

/-- adds a value or replaces one in its place -/
def set (t : CaseTable α) (i : Int) (v : α) : CaseTable α :=
  ⟨setEntries i v t.entries, nodup_setEntries t.nodup⟩

/-- adds a value for an index that has none -/
def put? (t : CaseTable α) (i : Int) (v : α) : Option (CaseTable α) :=
  if t.contains i then none else some (t.set i v)

/-- adds elements to the list stored for an index -/
def append {β : Type} (t : CaseTable (List β)) (i : Int) (vs : List β) : CaseTable (List β) :=
  t.set i ((t.get? i).getD [] ++ vs)

/-- the list stored for an index, empty if there is none -/
def list {β : Type} (t : CaseTable (List β)) (i : Int) : List β := (t.get? i).getD []

theorem nodup_keys_map {β : Type} (f : Int → α → β) {es : List (Int × α)}
    (h : (es.map Prod.fst).Nodup) :
    ((es.map fun e => (e.1, f e.1 e.2)).map Prod.fst).Nodup := by
  simpa [Function.comp_def] using h

/-- every value replaced, indices and order kept -/
def mapValues {β : Type} (f : Int → α → β) (t : CaseTable α) : CaseTable β :=
  ⟨t.entries.map fun e => (e.1, f e.1 e.2), nodup_keys_map f t.nodup⟩

/-- visits the entries in order up to and including the first failure -/
def each {σ ε : Type} (f : σ → Int → α → Except ε σ) (s : σ) (t : CaseTable α) : Except ε σ :=
  t.entries.foldlM (fun s e => f s e.1 e.2) s

/-- the table of a list of entries, or the first index written twice -/
def ofList (es : List (Int × α)) : Except Int (CaseTable α) :=
  es.foldlM (fun t e =>
    match t.put? e.1 e.2 with
    | some t' => .ok t'
    | none => .error e.1) empty

end CaseTable

end ContractChecks
