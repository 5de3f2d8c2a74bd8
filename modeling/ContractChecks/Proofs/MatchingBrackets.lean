import Mathlib.Order.Bounds.Defs
import ContractChecks.Proofs.JoinedScans

/-!
# The closing bracket

The bracket that closes an open one is found at the first place outside literals at which as many
brackets have been closed as opened, counted from the open one.  Brackets of all sorts count alike,
and a literal that is never closed hides the rest of the text.

* `cutClose_nested`: the bracket after a well nested text closes the one before it;
* `one_le_depthFrom_of_none`: without a closing bracket, the open one stays open;
* `ByteOf start t j m d`, `ClosesAt start t j`: the character that has byte `j`, and whether the
  brackets are closed with it, for a text `t` that starts at byte `start`;
* `cutClose_least`, `not_closesAt_of_none`: what is found is the first such byte, if there is any.
-/

namespace ContractChecks

/-! ### well nested texts in brackets -/

theorem WellNested.cutCloseFrom_eq_none {s : Text} (h : WellNested s) :
    cutCloseFrom .code 1 s = none := by
  cases hcut : cutCloseFrom .code 1 s with
  | none => rfl
  | some p =>
    obtain ⟨a, b⟩ := p
    obtain ⟨hclosed, c, r, rfl, hc⟩ := cutCloseFrom_closed hcut
    -- the bracket that is found would be one that the text has not opened
    have habove := h.above (a ++ [c]) ⟨r, by rw [← cutCloseFrom_append hcut]; simp⟩
    have hdepth : 1 + bracketDepth a = 1 :=
      (Quoting.depthFrom_add .code 0 1 a).symm.trans (cutCloseFrom_depth (Int.le_refl 1) hcut).1
    rw [bracketDepth_append hclosed, bracketDepth_of_isClosing hc] at habove
    omega

theorem cutClose_nested {c d : Char} (hc : isOpening c = true) (hd : isClosing d = true)
    {inside : Text} (h : WellNested inside) (rest : Text) :
    cutClose (c :: (inside ++ d :: rest)) = some (c :: inside, d :: rest) := by
  have hdepth : Quoting.code.depthFrom 1 inside = 1 := by
    have hadd := Quoting.depthFrom_add .code 0 1 inside
    have hends : Quoting.code.depthFrom 0 inside = 0 := h.ends
    rw [hends] at hadd
    exact hadd
  have hclose : cutCloseFrom .code 1 (d :: rest) = some ([], d :: rest) := by
    rcases isClosing_cases hd with rfl | rfl | rfl <;> rfl
  rw [cutClose_opening hc, cutCloseFrom_joined, h.cutCloseFrom_eq_none, h.closed.after_eq, hdepth,
    hclose]
  show some (c :: (inside ++ []), d :: rest) = _
  rw [List.append_nil]

/-- without a closing bracket, an open one stays open -/
theorem one_le_depthFrom_of_none {st : Quoting} {depth : Int} {s : Text} (hdepth : 1 ≤ depth)
    (h : cutCloseFrom st depth s = none) : ∀ t, t <+: s → 1 ≤ st.depthFrom depth t := by
  induction s generalizing st depth with
  | nil =>
    intro t ht
    rw [List.prefix_nil.1 ht]
    exact hdepth
  | cons c r ih =>
    rw [cutCloseFrom] at h
    split at h
    case isTrue => cases h
    case isFalse hif =>
      intro t ht
      cases t with
      | nil => exact hdepth
      | cons d t =>
        obtain ⟨rfl, htail⟩ := List.cons_prefix_cons.1 ht
        exact ih (one_le_depthAfter hdepth hif) (Option.map_eq_none_iff.1 h) t htail

/-! ### byte offsets -/

theorem seekFrom_append (pos : Nat) (a b : Text) :
    seekFrom pos (pos + Text.bytes a) (a ++ b) = (pos + Text.bytes a, b) := by
  induction a generalizing pos with
  | nil =>
    cases b with
    | nil => rfl
    | cons c b =>
      rw [List.nil_append, Text.bytes_nil, Nat.add_zero, seekFrom, if_pos (Nat.le_refl pos)]
  | cons c a ih =>
    have hpos := Char.utf8Size_pos c
    rw [Text.bytes_cons, List.cons_append, seekFrom, if_neg (by omega), ← Nat.add_assoc, ih]

theorem matchClose_append (a b : Text) :
    matchClose (a ++ b) (Text.bytes a)
      = (cutClose b).map fun q => Text.bytes a + Text.bytes q.1 := by
  have hseek := seekFrom_append 0 a b
  rw [Nat.zero_add] at hseek
  rw [matchClose, hseek]

theorem utf8Size_of_isClosing {c : Char} (h : isClosing c = true) : c.utf8Size = 1 := by
  rcases isClosing_cases h with rfl | rfl | rfl <;> rfl

theorem bytes_le_of_prefix {s t : Text} (h : s <+: t) : s.bytes ≤ t.bytes := by
  obtain ⟨u, rfl⟩ := h
  rw [Text.bytes_append]
  exact Nat.le_add_right _ _

/-- byte `j` belongs to the character `d` of a text `t` that starts at byte `start`; `m` stands
before it -/
structure ByteOf (start : Nat) (t : Text) (j : Nat) (m : Text) (d : Char) : Prop where
  reads : m ++ [d] <+: t
  first_le : start + m.bytes ≤ j
  lt_end : j < start + m.bytes + d.utf8Size

/-- byte `j` lies outside the literals of `t`, and up to it all brackets of `t` are closed -/
def ClosesAt (start : Nat) (t : Text) (j : Nat) : Prop :=
  ∃ m d, ByteOf start t j m d ∧ LiteralsClosed m ∧ isQuoteMark d = false ∧
    bracketDepth (m ++ [d]) = 0

/-! ### the first place -/

section opening

variable {c : Char} (hc : isOpening c = true)
include hc

theorem depthFrom_opening (depth : Int) (s : Text) :
    Quoting.code.depthFrom depth (c :: s) = Quoting.code.depthFrom (depth + 1) s := by
  rcases isOpening_cases hc with rfl | rfl | rfl <;> rfl

/-- the bracket itself is open, so all brackets are closed only after it -/
theorem ClosesAt.after_opening {start j : Nat} {rest : Text} (h : ClosesAt start (c :: rest) j) :
    ∃ m d, m ++ [d] <+: rest ∧ start + Text.bytes (c :: m) ≤ j ∧
      Quoting.code.depthFrom 1 (m ++ [d]) = 0 := by
  obtain ⟨m, d, hbyte, -, -, hdepth⟩ := h
  cases m with
  | nil =>
    obtain ⟨rfl, -⟩ := List.cons_prefix_cons.1 hbyte.reads
    rw [bracketDepth, List.nil_append, depthFrom_opening hc] at hdepth
    cases hdepth
  | cons e m =>
    obtain ⟨rfl, hreads⟩ := List.cons_prefix_cons.1 hbyte.reads
    rw [bracketDepth, List.cons_append, depthFrom_opening hc] at hdepth
    exact ⟨m, d, hreads, hbyte.first_le, hdepth⟩

theorem not_closesAt_of_none {rest : Text} (h : cutClose (c :: rest) = none) (start j : Nat) :
    ¬ClosesAt start (c :: rest) j := by
  intro hclose
  obtain ⟨m, d, hreads, -, hdepth⟩ := hclose.after_opening hc
  rw [cutClose_opening hc, Option.map_eq_none_iff] at h
  have hopen := one_le_depthFrom_of_none (Int.le_refl 1) h _ hreads
  omega

theorem cutClose_least {rest a b : Text} (h : cutClose (c :: rest) = some (a, b)) (start : Nat) :
    ClosesAt start (c :: rest) (start + a.bytes) ∧
      ∀ j, ClosesAt start (c :: rest) j → start + a.bytes ≤ j := by
  obtain ⟨hclosed, d, after, rfl, hd⟩ := cutClose_closed h
  have htext := cutClose_append h
  rw [cutClose_opening hc] at h
  obtain ⟨⟨inside, r⟩, hp, he⟩ := Option.map_eq_some_iff.1 h
  change (c :: inside, r) = (a, d :: after) at he
  cases he
  obtain ⟨hends, habove⟩ := cutCloseFrom_depth (Int.le_refl 1) hp
  constructor
  · refine ⟨c :: inside, d, ⟨⟨after, ?_⟩, Nat.le_refl _, ?_⟩, hclosed,
      not_isQuoteMark_of_isClosing hd, ?_⟩
    · rw [List.append_assoc]
      exact htext
    · rw [utf8Size_of_isClosing hd]
      exact Nat.lt_succ_self _
    · have hone : bracketDepth (c :: inside) = 1 := (depthFrom_opening hc 0 inside).trans hends
      rw [bracketDepth_append hclosed, hone, bracketDepth_of_isClosing hd]
      rfl
  · intro j hclose
    obtain ⟨m, e, hreads, hle, hzero⟩ := hclose.after_opening hc
    -- before the bracket that was found, the open one is not closed
    have hlonger : inside <+: m := by
      have hrest : inside <+: rest := ⟨d :: after, cutCloseFrom_append hp⟩
      rcases List.prefix_or_prefix_of_prefix hreads hrest with hearly | hlate
      · have hopen := habove _ hearly
        omega
      · rcases List.prefix_concat_iff.1 hlate with rfl | hm
        · have hopen := habove _ (List.prefix_refl _)
          omega
        · exact hm
    have hbytes := bytes_le_of_prefix hlonger
    rw [Text.bytes_cons] at hle ⊢
    omega

end opening

/-! ### exactness -/

/-- The closing bracket is found at the first byte after the open bracket that lies outside literals
and with which all brackets are closed, and nothing is found if there is no such byte.  What stands
between the two is well nested, and the same bracket is found in every text that starts with them. -/
theorem matchClose_exact {c : Char} (hc : isOpening c = true) (before rest : Text) :
    (∀ j, matchClose (before ++ c :: rest) before.bytes = some j ↔
        IsLeast {i | before.bytes < i ∧ ClosesAt before.bytes (c :: rest) i} j) ∧
      (matchClose (before ++ c :: rest) before.bytes = none ↔
        ∀ j, before.bytes < j → ¬ClosesAt before.bytes (c :: rest) j) ∧
      ∀ j, matchClose (before ++ c :: rest) before.bytes = some j →
        ∃ inside d after, rest = inside ++ d :: after ∧ isClosing d = true ∧
          j = before.bytes + Text.bytes (c :: inside) ∧ WellNested inside ∧
          ∀ u, c :: (inside ++ [d]) <+: u → matchClose u 0 = some (j - before.bytes) := by
  rw [matchClose_append]
  cases hcut : cutClose (c :: rest) with
  | none =>
    have hnone := not_closesAt_of_none hc hcut before.bytes
    refine ⟨fun j => ⟨?_, ?_⟩, ⟨fun _ j _ => hnone j, fun _ => rfl⟩, ?_⟩
    · intro h
      cases h
    · intro h
      exact absurd h.1.2 (hnone j)
    · intro j h
      cases h
  | some p =>
    obtain ⟨a, b⟩ := p
    obtain ⟨hfound, hleast⟩ := cutClose_least hc hcut before.bytes
    obtain ⟨-, d, after, rfl, hd⟩ := cutClose_closed hcut
    obtain ⟨inside, rfl, hnested⟩ := cutClose_wellNested hc hcut
    have hlater : before.bytes < before.bytes + Text.bytes (c :: inside) := by
      have hpos := Char.utf8Size_pos c
      rw [Text.bytes_cons]
      omega
    have hmin : IsLeast {i | before.bytes < i ∧ ClosesAt before.bytes (c :: rest) i}
        (before.bytes + Text.bytes (c :: inside)) := ⟨⟨hlater, hfound⟩, fun i hi => hleast i hi.2⟩
    refine ⟨fun j => ⟨?_, ?_⟩, ⟨?_, ?_⟩, ?_⟩
    · rintro ⟨⟩
      exact hmin
    · intro hj
      exact congrArg some (Nat.le_antisymm (hmin.2 hj.1) (hj.2 hmin.1))
    · intro h
      cases h
    · intro h
      exact absurd hfound (h _ hlater)
    · rintro j ⟨⟩
      refine ⟨inside, d, after, (List.cons.inj (cutClose_append hcut)).2.symm, hd, rfl, hnested, ?_⟩
      rintro u ⟨r, rfl⟩
      have hagain := matchClose_append [] (c :: (inside ++ d :: r))
      rw [cutClose_nested hc hd hnested] at hagain
      rw [List.cons_append, List.append_assoc, Nat.add_sub_cancel_left]
      exact hagain.trans (congrArg some (Nat.zero_add _))

/-- a call after a literal, and in it brackets of all sorts and a closing one in a literal; a brace
closes the call -/
def callee : Text := "\"é(\" + f"

def arguments : Text := "a[')'], \x7b\"\\\"]\") \x7d x)"

theorem matchClose_exact_arguments :
    isOpening '(' = true ∧
      IsLeast {i | callee.bytes < i ∧ ClosesAt callee.bytes ('(' :: arguments) i} 26 :=
  ⟨rfl, ((matchClose_exact rfl callee arguments).1 26).1 (by decide +kernel)⟩

end ContractChecks
