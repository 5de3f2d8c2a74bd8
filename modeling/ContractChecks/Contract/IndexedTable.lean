import ContractChecks.Contract.Write

/-!
# Tables as a list beside a map

A table kept in two parts: the indices in the order of first writing, and a map with the values.
Whether an index is there is asked of the map, and the order of a visit is that of the list, so the
two have to be kept in step.
-/

namespace ContractChecks

structure IndexedTable (α : Type) where
  indices : List Int := []
  values : Int → Option α := fun _ => none

namespace IndexedTable

variable {α : Type}

def empty : IndexedTable α := {}

def contains (t : IndexedTable α) (i : Int) : Bool := (t.values i).isSome

def set (t : IndexedTable α) (i : Int) (v : α) : IndexedTable α where
  indices := if t.contains i then t.indices else t.indices ++ [i]
  values j := if j = i then some v else t.values j

def put? (t : IndexedTable α) (i : Int) (v : α) : Option (IndexedTable α) :=
  if t.contains i then none else some (t.set i v)

def append {β : Type} (t : IndexedTable (List β)) (i : Int) (vs : List β) : IndexedTable (List β) :=
  t.set i ((t.values i).getD [] ++ vs)

/-- visits the indices in order, with `zero` for one that has no value -/
def each {σ ε : Type} (zero : α) (f : σ → Int → α → Except ε σ) (s : σ) (t : IndexedTable α) :
    Except ε σ :=
  t.indices.foldlM (fun s i => f s i ((t.values i).getD zero)) s

def write : {α : Type} → IndexedTable α → Write α → Except Fault Unit × IndexedTable α
  | _, t, .put i v =>
    match t.put? i v with
    | some t' => (.ok (), t')
    | none => (.error (.clause i .duplicateCase), t)
  | _, t, .set i v => (.ok (), t.set i v)
  | _, t, .append i vs => (.ok (), t.append i vs)

def run (t : IndexedTable α) (ws : List (Write α)) : IndexedTable α :=
  ws.foldl (fun t w => (t.write w).2) t

end IndexedTable

end ContractChecks
