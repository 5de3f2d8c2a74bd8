import ContractChecks.Inheritance.Compose
import ContractChecks.Proofs.InheritedRenaming

/-!
# Capture by a renaming

The renaming of an inherited contract replaces names in all its clauses at once.  Two identifiers
of the contract become one if two of the new names agree, or if a new name is an identifier that
stays as it is.

* `Contract.identifiers c`: parameters, receiver, temporaries, variables of signals clauses and the
  names that occur in the clauses of `c`;
* `movedTo`: the name of the override that takes the place of an identifier;
* `CaptureFree`: the new names differ from each other and from the identifiers that stay;
* `inheritedRenaming_injective_iff`: identifiers stay apart exactly if there is no capture.
-/

namespace ContractChecks

/-! ### the identifiers of a contract -/

/-- the names in a text, selectors left out -/
def namesIn (s : Text) : List Text :=
  ((occurrences s).filter fun o => !o.selector).map Occurrence.text

namespace Contract

def clauseTexts (c : Contract) : List Text :=
  c.pre.entries.map Prod.snd ++ c.post.entries.map Prod.snd
    ++ c.xpost.entries.flatMap (fun e => e.2.map Signals.pred)
    ++ c.oldVars.entries.flatMap (fun e => e.2.map OldVar.text)
    ++ c.oldExprDecls.entries.flatMap Prod.snd ++ c.oldExprs.entries.flatMap Prod.snd
    ++ c.preExprDecls ++ c.preExprs ++ c.xpostCode

def identifiers (c : Contract) : List Text :=
  (c.method.receiverName :: c.method.paramNames ++ c.temporaries
    ++ c.xpost.entries.flatMap (fun e => e.2.map Signals.var)
    ++ c.clauseTexts.flatMap namesIn).filter fun a => a != []

end Contract

/-! ### new names -/

section

variable (taken : List Text) (own : Method) (c : Contract) (level : Nat)

/-- the override's name for a parameter or the receiver `a`, unless `a` gets a fresh name -/
def movedTo (a : Text) : Option Text :=
  if freshName? level taken c.temporaries a = none then (signatureRenaming own c.method).get? a
  else none

/-- the new names differ from each other and from the identifiers that stay -/
structure CaptureFree : Prop where
  /-- different parameters, or a parameter and the receiver, have different names in the override -/
  moved : ∀ a ∈ c.identifiers, ∀ b ∈ c.identifiers, ∀ n,
    movedTo taken own c level a = some n → movedTo taken own c level b = some n → a = b
  /-- no name of the override is a fresh name -/
  fresh : ∀ a ∈ c.identifiers, ∀ b ∈ c.identifiers, ∀ n,
    movedTo taken own c level a = some n → freshName? level taken c.temporaries b ≠ some n
  /-- an identifier that is a new name gets a new name itself -/
  kept : ∀ a ∈ c.identifiers, ∀ n ∈ c.identifiers,
    (inheritedRenaming taken own c level).1.get? a = some n →
    (inheritedRenaming taken own c level).1.get? n ≠ none

theorem get?_inheritedRenaming (a : Text) :
    (inheritedRenaming taken own c level).1.get? a
      = (freshName? level taken c.temporaries a).or (movedTo taken own c level a) := by
  rw [(inheritedRenaming_spec taken own c level).1, movedTo]
  cases freshName? level taken c.temporaries a <;> rfl

end

section

variable {taken : List Text} {own : Method} {c : Contract} {level : Nat} {a b n : Text}

theorem get?_of_fresh (h : freshName? level taken c.temporaries a = some n) :
    (inheritedRenaming taken own c level).1.get? a = some n := by
  rw [get?_inheritedRenaming, h, Option.some_or]

theorem movedTo_of_fresh (h : freshName? level taken c.temporaries a = some n) :
    movedTo taken own c level a = none := by
  rw [movedTo, h]
  exact if_neg (by simp)

theorem get?_of_moved (h : movedTo taken own c level a = some n) :
    (inheritedRenaming taken own c level).1.get? a = some n := by
  cases hfresh : freshName? level taken c.temporaries a with
  | some m =>
    rw [movedTo_of_fresh hfresh] at h
    cases h
  | none => rw [get?_inheritedRenaming, hfresh, Option.none_or, h]

theorem CaptureFree.eq_of_get? (h : CaptureFree taken own c level) (ha : a ∈ c.identifiers)
    (hb : b ∈ c.identifiers) (han : (inheritedRenaming taken own c level).1.get? a = some n)
    (hbn : (inheritedRenaming taken own c level).1.get? b = some n) : a = b := by
  rw [get?_inheritedRenaming, Option.or_eq_some_iff] at han hbn
  rcases han with han | ⟨-, han⟩
  · rcases hbn with hbn | ⟨-, hbn⟩
    · exact freshName?_inj han hbn
    · exact absurd han (h.fresh b hb a ha n hbn)
  · rcases hbn with hbn | ⟨-, hbn⟩
    · exact absurd hbn (h.fresh a ha b hb n han)
    · exact h.moved a ha b hb n han hbn

end

/-- **When a renaming captures nothing.**  Distinct identifiers of an inherited contract have
distinct images exactly if the names of the override that replace them differ from each other, are
not handed out as fresh names, and no new name is an identifier that keeps its name. -/
theorem inheritedRenaming_injective_iff (taken : List Text) (own : Method) (c : Contract)
    (level : Nat) :
    (∀ a ∈ c.identifiers, ∀ b ∈ c.identifiers, a ≠ b →
        (inheritedRenaming taken own c level).1.image a
          ≠ (inheritedRenaming taken own c level).1.image b) ↔
      CaptureFree taken own c level := by
  constructor
  · intro hinj
    have heq : ∀ {a b n}, a ∈ c.identifiers → b ∈ c.identifiers →
        (inheritedRenaming taken own c level).1.image a = n →
        (inheritedRenaming taken own c level).1.image b = n → a = b := by
      intro a b n ha hb han hbn
      by_contra hne
      exact hinj a ha b hb hne (han.trans hbn.symm)
    refine ⟨?_, ?_, ?_⟩
    · intro a ha b hb n han hbn
      exact heq ha hb (Renaming.image_of_some (get?_of_moved han))
        (Renaming.image_of_some (get?_of_moved hbn))
    · intro a ha b hb n han hbn
      have hab := heq ha hb (Renaming.image_of_some (get?_of_moved han))
        (Renaming.image_of_some (get?_of_fresh hbn))
      rw [hab, movedTo_of_fresh hbn] at han
      cases han
    · intro a ha n hn han hnone
      have hab := heq ha hn (Renaming.image_of_some han) (Renaming.image_of_none hnone)
      rw [hab, hnone] at han
      cases han
  · intro h a ha b hb hne himage
    cases han : (inheritedRenaming taken own c level).1.get? a with
    | some n =>
      rw [Renaming.image_of_some han] at himage
      cases hbn : (inheritedRenaming taken own c level).1.get? b with
      | some m =>
        rw [Renaming.image_of_some hbn] at himage
        exact hne (h.eq_of_get? ha hb han (himage ▸ hbn))
      | none =>
        rw [Renaming.image_of_none hbn] at himage
        exact h.kept a ha b hb (himage ▸ han) hbn
    | none =>
      rw [Renaming.image_of_none han] at himage
      cases hbn : (inheritedRenaming taken own c level).1.get? b with
      | some m =>
        rw [Renaming.image_of_some hbn] at himage
        exact h.kept b hb a ha (himage ▸ hbn) han
      | none =>
        rw [Renaming.image_of_none hbn] at himage
        exact hne himage

/-! ### an override whose parameter is an old variable above -/

def putContract : Contract where
  method := {
    name := "Put", owner := "Stack", receiver := "s", params := [⟨"n", "int", false⟩]
    visibility := .of .pub }
  pre := .set .empty 0 "n < 9"

/-- an inherited contract with a parameter and an old variable -/
def bagPutContract : Contract where
  method := {
    name := "Put", owner := "Bag", receiver := "b", params := [⟨"x", "int", false⟩]
    visibility := .of .pub }
  pre := .set .empty 0 "x > n"
  oldVars := .set .empty 0 [⟨"n int/n = b.size"⟩]

theorem captured_bagPutContract :
    compatible putContract.method bagPutContract.method = .ok () ∧
      ((compose putContract [bagPutContract]).toOption.bind fun r => r.pre.get? 1)
        = some ("n > n" : Text) ∧
      ∃ a ∈ bagPutContract.identifiers, ∃ b ∈ bagPutContract.identifiers, a ≠ b ∧
        (inheritedRenaming putContract.temporaries putContract.method bagPutContract 1).1.image a
          = (inheritedRenaming putContract.temporaries putContract.method
            bagPutContract 1).1.image b := by
  refine ⟨rfl, by decide +kernel, ("x" : Text), ?_, ("n" : Text), ?_, by decide, ?_⟩
  · decide +kernel
  · decide +kernel
  · decide +kernel

end ContractChecks
