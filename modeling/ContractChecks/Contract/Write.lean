import ContractChecks.Contract.CaseTable
import ContractChecks.Contract.Fault

/-!
# Writes into tables

A table is filled by writes, one after another.

* `put i v` is for an index that has no value yet, and fails for any other;
* `set i v` replaces the value of an index that has one;
* `append i vs` adds to the list of an index, in tables of lists only.

`CaseTable.write` is one write, with its outcome and the table after it.
-/

namespace ContractChecks

/-- a write into a table of values of the given type -/
inductive Write : Type → Type 1 where
  | put {α : Type} (i : Int) (v : α) : Write α
  | set {α : Type} (i : Int) (v : α) : Write α
  | append {β : Type} (i : Int) (vs : List β) : Write (List β)

def Write.index : {α : Type} → Write α → Int
  | _, .put i _ => i
  | _, .set i _ => i
  | _, .append i _ => i

/-- makes a write; one that fails keeps the table -/
def CaseTable.write : {α : Type} → CaseTable α → Write α → Except Fault Unit × CaseTable α
  | _, t, .put i v =>
    match t.put? i v with
    | some t' => (.ok (), t')
    | none => (.error (.clause i .duplicateCase), t)
  | _, t, .set i v => (.ok (), t.set i v)
  | _, t, .append i vs => (.ok (), t.append i vs)

/-- makes a sequence of writes, also after one that fails -/
def CaseTable.run {α : Type} (t : CaseTable α) (ws : List (Write α)) : CaseTable α :=
  ws.foldl (fun t w => (t.write w).2) t

end ContractChecks
