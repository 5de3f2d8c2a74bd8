import Mathlib.Logic.Function.Basic
import ContractChecks.Quantifier.Loop

/-!
# Runs of a nest of loops

Counting loops are run with integers for variables.  A loop starts at the value of its first text
and goes on in steps of one as long as its condition holds, where the limit is read anew each time.

* `Env`: values of variables; `assign vs xs env`: the values `xs` given to the variables `vs`;
* `Relation.Holds`: relations between integers;
* `Counts first cond x`: a loop comes to `x`; `counts_iff`: with a fixed limit above, exactly the
  values between first value and limit;
* `Reaches value ls env xs`: a nest of loops runs its body with the values `xs`;
* `InOrder value us vs ls`: the limits of each loop depend only on variables of the loops around it;
* `InOrder.reaches_iff`: then the body is run with exactly the values that lie within all limits.
-/

namespace ContractChecks

/-! ### values of variables -/

abbrev Env := Text → Int

def assign : List Text → List Int → Env → Env
  | v :: vs, x :: xs, env => assign vs xs (Function.update env v x)
  | _, _, env => env

theorem assign_of_notMem {u : Text} {vs : List Text} (h : u ∉ vs) (xs : List Int) (env : Env) :
    assign vs xs env u = env u := by
  induction vs generalizing xs env with
  | nil => rfl
  | cons v vs ih =>
    cases xs with
    | nil => rfl
    | cons x xs =>
      have hne : u ≠ v := fun he => h (he ▸ List.mem_cons_self)
      rw [assign, ih fun hu => h (List.mem_cons_of_mem v hu), Function.update_of_ne hne]

/-! ### one loop -/

def Relation.Holds : Relation → Int → Int → Prop
  | .lt => fun a b => a < b
  | .le => fun a b => a ≤ b
  | .gt => fun a b => a > b
  | .ge => fun a b => a ≥ b

instance : (rel : Relation) → (a b : Int) → Decidable (rel.Holds a b)
  | .lt, a, b => inferInstanceAs (Decidable (a < b))
  | .le, a, b => inferInstanceAs (Decidable (a ≤ b))
  | .gt, a, b => inferInstanceAs (Decidable (a > b))
  | .ge, a, b => inferInstanceAs (Decidable (a ≥ b))

theorem Relation.Holds.of_le {rel : Relation} (hup : rel.upward = true) {a b limit : Int}
    (hb : rel.Holds b limit) (hab : a ≤ b) : rel.Holds a limit := by
  cases rel with
  | lt => exact Int.lt_of_le_of_lt hab hb
  | le => exact Int.le_trans hab hb
  | gt => cases hup
  | ge => cases hup

/-- the values that a loop variable comes to, from `first` on as long as the condition holds -/
inductive Counts (first : Int) (cond : Int → Prop) : Int → Prop
  | start (h : cond first) : Counts first cond first
  | next {x : Int} (before : Counts first cond x) (h : cond (x + 1)) : Counts first cond (x + 1)

theorem counts_iff {rel : Relation} (hup : rel.upward = true) {first limit x : Int} :
    Counts first (fun y => rel.Holds y limit) x ↔ first ≤ x ∧ rel.Holds x limit := by
  constructor
  · intro h
    induction h with
    | start h => exact ⟨Int.le_refl _, h⟩
    | next _ h ih => exact ⟨Int.le_trans ih.1 (Int.le_add_one (Int.le_refl _)), h⟩
  · rintro ⟨hle, h⟩
    obtain ⟨n, rfl⟩ := Int.le.dest hle
    clear hle
    -- the condition holds of all values before the last one
    induction n with
    | zero =>
      rw [Int.natCast_zero, Int.add_zero] at *
      exact .start h
    | succ n ih =>
      rw [Int.natCast_succ, ← Int.add_assoc] at *
      exact .next (ih (h.of_le hup (Int.le_add_one (Int.le_refl _)))) h

/-! ### nests -/

section
variable (value : Text → Env → Int)

/-- the nest of loops comes to its body with the values `xs` of its variables, from outside in -/
inductive Reaches : List Loop → Env → List Int → Prop
  | body {env : Env} : Reaches [] env []
  | loop {var init limit : Text} {rel : Relation} {ls : List Loop} {env : Env} {x : Int}
      {xs : List Int}
      (counts : Counts (value init env)
        (fun y => rel.Holds y (value limit (Function.update env var y))) x)
      (inner : Reaches ls (Function.update env var x) xs) :
      Reaches (.counting var init rel limit :: ls) env (x :: xs)

def Loop.Within : Loop → Env → Prop
  | .counting var init rel limit, env =>
    value init env ≤ env var ∧ rel.Holds (env var) (value limit env)
  | .range .., _ => False

/-- the value of the text depends only on the variables `us` -/
def SettledBy (us : List Text) (t : Text) : Prop :=
  ∀ env env' : Env, (∀ u ∈ us, env u = env' u) → value t env = value t env'

/-- loops for the variables `vs` inside of loops for `us`, with upper limits, whose limits depend
only on variables further out -/
inductive InOrder : List Text → List Text → List Loop → Prop
  | nil {us : List Text} : InOrder us [] []
  | cons {us vs : List Text} {v init limit : Text} {rel : Relation} {ls : List Loop}
      (fresh : v ∉ us) (up : rel.upward = true) (first : SettledBy value us init)
      (last : SettledBy value us limit) (inner : InOrder (us ++ [v]) vs ls) :
      InOrder us (v :: vs) (.counting v init rel limit :: ls)

variable {value}

theorem InOrder.disjoint {us vs : List Text} {ls : List Loop} (h : InOrder value us vs ls) :
    ∀ u ∈ us, u ∉ vs := by
  induction h with
  | nil => simp
  | cons fresh _ _ _ _ ih =>
    intro u hu hmem
    rcases List.mem_cons.1 hmem with rfl | hmem
    · exact fresh hu
    · exact ih u (List.mem_append_left _ hu) hmem

theorem InOrder.reaches_iff {us vs : List Text} {ls : List Loop} (h : InOrder value us vs ls)
    (env : Env) (xs : List Int) :
    Reaches value ls env xs ↔
      xs.length = vs.length ∧ ∀ l ∈ ls, l.Within value (assign vs xs env) := by
  induction h generalizing env xs with
  | nil =>
    constructor
    · rintro ⟨⟩
      exact ⟨rfl, by simp⟩
    · rintro ⟨hlen, -⟩
      rw [List.eq_nil_of_length_eq_zero hlen]
      exact .body
  | @cons us vs v init limit rel ls fresh up first last inner ih =>
    cases xs with
    | nil =>
      refine iff_of_false ?_ (fun h => by cases h.1)
      rintro ⟨⟩
    | cons x xs =>
      have hkeep : ∀ y, ∀ u ∈ us, Function.update env v y u = env u := by
        intro y u hu
        have hne : u ≠ v := fun he => fresh (he ▸ hu)
        exact Function.update_of_ne hne y env
      -- the limits are the same for all values of the variable, and at the end
      have hlimit : ∀ y, value limit (Function.update env v y) = value limit env := fun y =>
        last _ _ (hkeep y)
      have hend : ∀ u ∈ us, assign (v :: vs) (x :: xs) env u = env u := by
        intro u hu
        rw [assign, assign_of_notMem (inner.disjoint u (List.mem_append_left _ hu)), hkeep x u hu]
      have hvar : assign (v :: vs) (x :: xs) env v = x := by
        rw [assign, assign_of_notMem (inner.disjoint v (by simp)), Function.update_self]
      have hcounts : Counts (value init env)
            (fun y => rel.Holds y (value limit (Function.update env v y))) x ↔
          Loop.Within value (.counting v init rel limit) (assign (v :: vs) (x :: xs) env) := by
        simp only [hlimit]
        rw [counts_iff up, Loop.Within, hvar, first _ _ hend, last _ _ hend]
      rw [List.forall_mem_cons, ← hcounts, List.length_cons, List.length_cons, Nat.succ_inj]
      refine ⟨?_, ?_⟩
      · rintro (_ | ⟨hx, hxs⟩)
        obtain ⟨hlen, hwithin⟩ := (ih _ _).1 hxs
        exact ⟨hlen, hx, hwithin⟩
      · rintro ⟨hlen, hx, hwithin⟩
        exact .loop hx ((ih _ _).2 ⟨hlen, hwithin⟩)

end

end ContractChecks
