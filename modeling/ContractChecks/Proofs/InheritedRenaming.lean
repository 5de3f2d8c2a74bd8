import Mathlib.Data.List.Perm.Subperm
import ContractChecks.Inheritance.Renaming
import ContractChecks.Proofs.SpecCase

/-!
# The renaming of an inherited contract

Parameters and receiver get the names of the override; on top of that, each temporary whose name
is taken gets a fresh one.

* `freshTemp_spec`: the name found for a temporary is a candidate that is not taken;
* `freshName? level taken ts a`: the fresh name that `a` gets when the temporaries `ts` are
  visited in order, and `freshNames level taken ts`, all the names that are handed out;
* `freshName?_inj`: no two temporaries get the same fresh name;
* `inheritedRenaming_spec`: the renaming and the names taken afterwards in these terms.
-/

namespace ContractChecks

namespace Renaming

/-- what becomes of a name -/
def image (f : Renaming) (a : Text) : Text := (f.get? a).getD a

theorem image_of_some {f : Renaming} {a n : Text} (h : f.get? a = some n) : f.image a = n := by
  rw [image, h, Option.getD_some]

theorem image_of_none {f : Renaming} {a : Text} (h : f.get? a = none) : f.image a = a := by
  rw [image, h, Option.getD_none]

theorem lookup_map_replace (f : Renaming) (name target a : Text) :
    (f.map fun p => if p.1 == name then (name, target) else p).lookup a
      = if a = name then (f.lookup name).map fun _ => target else f.lookup a := by
  induction f with
  | nil => simp
  | cons p f ih =>
    rw [List.map_cons]
    by_cases hp : p.1 = name
    · rw [if_pos (beq_iff_eq.2 hp), lookup_cons_eq_ite, lookup_cons_eq_ite, lookup_cons_eq_ite, ih,
        if_pos hp.symm]
      by_cases ha : a = name
      · rw [if_pos ha, if_pos ha]
        rfl
      · have hap : a ≠ p.1 := fun h => ha (h.trans hp)
        rw [if_neg ha, if_neg ha, if_neg ha, if_neg hap]
    · have hbeq : ¬ (p.1 == name) = true := fun h => hp (beq_iff_eq.1 h)
      have hname : name ≠ p.1 := fun h => hp h.symm
      rw [if_neg hbeq, lookup_cons_eq_ite, lookup_cons_eq_ite, lookup_cons_eq_ite, ih,
        if_neg hname]
      by_cases hap : a = p.1
      · rw [if_pos hap, if_pos hap, if_neg fun ha => hname (ha.symm.trans hap)]
      · rw [if_neg hap, if_neg hap]

theorem get?_set (f : Renaming) (name target a : Text) :
    (f.set name target).get? a = if a = name then some target else f.get? a := by
  unfold set get?
  by_cases hany : f.any fun p => p.1 == name
  · have hsome : (f.lookup name).map (fun _ => target) = some target := by
      obtain ⟨p, hp, hname⟩ := List.any_eq_true.1 hany
      cases hlook : f.lookup name with
      | none =>
        have hne := List.lookup_eq_none_iff.1 hlook p hp
        rw [beq_iff_eq.1 hname] at hne
        simp at hne
      | some v => rfl
    rw [if_pos hany, lookup_map_replace, hsome]
  · have hnone : f.lookup name = none := by
      rw [List.lookup_eq_none_iff]
      intro p hp
      rw [bne_iff_ne]
      intro hname
      exact hany (List.any_eq_true.2 ⟨p, hp, beq_iff_eq.2 hname.symm⟩)
    rw [if_neg hany, List.lookup_append, lookup_cons_eq_ite]
    by_cases ha : a = name
    · rw [ha, hnone, if_pos rfl, if_pos rfl, Option.none_or]
    · rw [if_neg ha, if_neg ha, List.lookup_nil, Option.or_none]

end Renaming

/-! ### fresh names -/

theorem ofNat_injective : Function.Injective Text.ofNat := by
  intro m n h
  have hdigits := congrArg (fun s => Nat.ofDigitChars 10 s 0) h
  simpa [Text.ofNat] using hdigits

theorem tempCandidate_one (name : Text) (level : Nat) :
    tempCandidate name level 1 = name ++ ("_" : Text) ++ Text.ofNat level := rfl

theorem tempCandidate_of_one_lt (name : Text) (level : Nat) {n : Nat} (hn : 1 < n) :
    tempCandidate name level n
      = name ++ ("_" : Text) ++ Text.ofNat level ++ ("_" : Text) ++ Text.ofNat n := by
  unfold tempCandidate
  exact if_neg (Nat.not_le.2 hn)

theorem tempCandidate_inj (name : Text) (level : Nat) {m n : Nat} (hm : 1 ≤ m) (hn : 1 ≤ n)
    (h : tempCandidate name level m = tempCandidate name level n) : m = n := by
  have hlong : ∀ {k : Nat}, 1 < k → tempCandidate name level 1 ≠ tempCandidate name level k := by
    intro k hk heq
    rw [tempCandidate_of_one_lt name level hk, tempCandidate_one, List.append_assoc _ ("_" : Text)
      (Text.ofNat k)] at heq
    have hnil := List.self_eq_append_right.1 heq
    cases hnil
  rcases Nat.eq_or_lt_of_le hm with rfl | hm
  · rcases Nat.eq_or_lt_of_le hn with rfl | hn
    · rfl
    · exact absurd h (hlong hn)
  · rcases Nat.eq_or_lt_of_le hn with rfl | hn
    · exact absurd h.symm (hlong hm)
    · rw [tempCandidate_of_one_lt name level hm, tempCandidate_of_one_lt name level hn] at h
      exact ofNat_injective (List.append_cancel_left h)

/-- there are more candidates than names taken, so the search succeeds -/
theorem freshTemp_spec (taken : List Text) (name : Text) (level : Nat) :
    freshTemp taken name level ∉ taken ∧
      ∃ n, freshTemp taken name level = tempCandidate name level n := by
  let cands := (List.range (taken.length + 1)).map fun k => tempCandidate name level (k + 1)
  have hnodup : cands.Nodup := by
    refine List.Nodup.map_on (fun m _ n _ h => ?_) List.nodup_range
    have hmn := tempCandidate_inj name level (Nat.le_add_left 1 m) (Nat.le_add_left 1 n) h
    omega
  have hlength : cands.length = taken.length + 1 := by
    rw [List.length_map, List.length_range]
  -- all candidates are different, so they cannot all be among fewer names
  obtain ⟨t, ht, hfree⟩ : ∃ t ∈ cands, t ∉ taken := by
    by_contra hnone
    have hsub : cands ⊆ taken := fun t ht => by_contra fun hfree => hnone ⟨t, ht, hfree⟩
    have hle := (List.subperm_of_subset hnodup hsub).length_le
    omega
  cases hfind : cands.find? fun t => !taken.contains t with
  | none =>
    have hnot := List.find?_eq_none.1 hfind t ht
    simp [hfree] at hnot
  | some u =>
    have hu : freshTemp taken name level = u := by
      show (cands.find? fun t => !taken.contains t).getD (tempCandidate name level 1) = u
      rw [hfind, Option.getD_some]
    obtain ⟨k, _, hk⟩ := List.mem_map.1 (List.mem_of_find?_eq_some hfind)
    have hfree' := List.find?_some hfind
    rw [hu]
    exact ⟨by simpa using hfree', k + 1, hk.symm⟩

/-! ### the temporaries of a level, in order -/

def mustRename (taken : List Text) (t : Text) : Prop := t ≠ [] ∧ t ∈ taken

instance (taken : List Text) (t : Text) : Decidable (mustRename taken t) :=
  inferInstanceAs (Decidable (t ≠ [] ∧ t ∈ taken))

/-- the fresh names handed out to temporaries, in order -/
def freshNames (level : Nat) : List Text → List Text → List Text
  | _, [] => []
  | taken, t :: ts =>
    if mustRename taken t then
      freshTemp taken t level :: freshNames level (taken ++ [freshTemp taken t level]) ts
    else freshNames level taken ts

/-- the fresh name of `a`, the last one if it is declared more than once -/
def freshName? (level : Nat) : List Text → List Text → Text → Option Text
  | _, [], _ => none
  | taken, t :: ts, a =>
    if mustRename taken t then
      (freshName? level (taken ++ [freshTemp taken t level]) ts a).or
        (if a = t then some (freshTemp taken t level) else none)
    else freshName? level taken ts a

theorem renameTemp_eq (level : Nat) (f : Renaming) (taken : List Text) (t : Text) :
    renameTemp level (f, taken) t
      = if mustRename taken t then
          (f.set t (freshTemp taken t level), taken ++ [freshTemp taken t level])
        else (f, taken) := by
  unfold renameTemp mustRename
  by_cases ht : t = []
  · simp [ht]
  · by_cases hm : t ∈ taken
    · simp [ht, hm]
    · simp [ht, hm]

theorem foldl_renameTemp (level : Nat) (ts : List Text) (f : Renaming) (taken : List Text) :
    (∀ a, (ts.foldl (renameTemp level) (f, taken)).1.get? a
        = (freshName? level taken ts a).or (f.get? a)) ∧
      (ts.foldl (renameTemp level) (f, taken)).2 = taken ++ freshNames level taken ts := by
  induction ts generalizing f taken with
  | nil => exact ⟨fun a => (Option.none_or).symm, (List.append_nil taken).symm⟩
  | cons t ts ih =>
    rw [List.foldl_cons, renameTemp_eq]
    by_cases ht : mustRename taken t
    · obtain ⟨hget, htaken⟩ :=
        ih (f.set t (freshTemp taken t level)) (taken ++ [freshTemp taken t level])
      rw [if_pos ht]
      constructor
      · intro a
        rw [hget a, Renaming.get?_set, freshName?, if_pos ht, Option.or_assoc]
        by_cases ha : a = t
        · rw [if_pos ha, if_pos ha, Option.some_or]
        · rw [if_neg ha, if_neg ha, Option.none_or]
      · rw [htaken, freshNames, if_pos ht, List.append_assoc]
        rfl
    · rw [if_neg ht, freshNames, if_neg ht]
      simp only [freshName?, if_neg ht]
      exact ih f taken

theorem inheritedRenaming_spec (taken : List Text) (own : Method) (c : Contract) (level : Nat) :
    (∀ a, (inheritedRenaming taken own c level).1.get? a
        = (freshName? level taken c.temporaries a).or ((signatureRenaming own c.method).get? a)) ∧
      (inheritedRenaming taken own c level).2
        = taken ++ freshNames level taken c.temporaries :=
  foldl_renameTemp level c.temporaries _ taken

/-! ### what the fresh names avoid -/

theorem freshName?_eq_some {level : Nat} {taken ts : List Text} {a x : Text}
    (h : freshName? level taken ts a = some x) :
    a ∈ ts ∧ x ∉ taken ∧ x ∈ freshNames level taken ts ∧ ∃ n, x = tempCandidate a level n := by
  induction ts generalizing taken with
  | nil => cases h
  | cons t ts ih =>
    rw [freshName?] at h
    rw [freshNames]
    by_cases ht : mustRename taken t
    · rw [if_pos ht] at h ⊢
      rcases Option.or_eq_some_iff.1 h with h | ⟨-, h⟩
      · obtain ⟨ha, hx, hmem, hcand⟩ := ih h
        have hx' : x ∉ taken := fun hx' => hx (List.mem_append_left _ hx')
        exact ⟨List.mem_cons_of_mem _ ha, hx', List.mem_cons_of_mem _ hmem, hcand⟩
      · split at h
        case isFalse => cases h
        case isTrue ha =>
          cases h
          obtain ⟨hfree, hcand⟩ := freshTemp_spec taken t level
          rw [ha]
          exact ⟨List.mem_cons_self, hfree, List.mem_cons_self, hcand⟩
    · rw [if_neg ht] at h ⊢
      obtain ⟨ha, hx, hmem, hcand⟩ := ih h
      exact ⟨List.mem_cons_of_mem _ ha, hx, hmem, hcand⟩

theorem ne_nil_of_freshName? {level : Nat} {taken ts : List Text} {a x : Text}
    (h : freshName? level taken ts a = some x) : a ≠ [] := by
  induction ts generalizing taken with
  | nil => cases h
  | cons t ts ih =>
    rw [freshName?] at h
    by_cases ht : mustRename taken t
    · rw [if_pos ht] at h
      rcases Option.or_eq_some_iff.1 h with h | ⟨-, h⟩
      · exact ih h
      · split at h
        case isFalse => cases h
        case isTrue ha =>
          rw [ha]
          exact ht.1
    · rw [if_neg ht] at h
      exact ih h

theorem freshName?_inj {level : Nat} {taken ts : List Text} {a b x : Text}
    (ha : freshName? level taken ts a = some x) (hb : freshName? level taken ts b = some x) :
    a = b := by
  induction ts generalizing taken with
  | nil => cases ha
  | cons t ts ih =>
    rw [freshName?] at ha hb
    by_cases ht : mustRename taken t
    · rw [if_pos ht] at ha hb
      -- a name handed out later is not the one handed out for `t`
      have hlater : ∀ c, freshName? level (taken ++ [freshTemp taken t level]) ts c = some x →
          x ≠ freshTemp taken t level := by
        intro c hc hx
        obtain ⟨-, hfree, -, -⟩ := freshName?_eq_some hc
        exact hfree (List.mem_append_right _ (List.mem_singleton.2 hx))
      have hhead : ∀ c, (if c = t then some (freshTemp taken t level) else none) = some x →
          c = t ∧ x = freshTemp taken t level := by
        intro c hc
        split at hc
        case isFalse => cases hc
        case isTrue h => exact ⟨h, (Option.some.inj hc).symm⟩
      rcases Option.or_eq_some_iff.1 ha with ha | ⟨-, ha⟩
      · rcases Option.or_eq_some_iff.1 hb with hb | ⟨-, hb⟩
        · exact ih ha hb
        · exact absurd (hhead b hb).2 (hlater a ha)
      · rcases Option.or_eq_some_iff.1 hb with hb | ⟨-, hb⟩
        · exact absurd (hhead a ha).2 (hlater b hb)
        · rw [(hhead a ha).1, (hhead b hb).1]
    · rw [if_neg ht] at ha hb
      exact ih ha hb

theorem exists_freshName? (level : Nat) {taken ts : List Text} {a : Text} (ha : a ∈ ts)
    (hmust : mustRename taken a) : ∃ x, freshName? level taken ts a = some x := by
  induction ts generalizing taken with
  | nil => cases ha
  | cons t ts ih =>
    rw [freshName?]
    by_cases hat : a = t
    · subst hat
      rw [if_pos hmust, if_pos rfl]
      cases freshName? level (taken ++ [freshTemp taken a level]) ts a with
      | none => exact ⟨_, rfl⟩
      | some x => exact ⟨x, rfl⟩
    · have ha' : a ∈ ts := (List.mem_cons.1 ha).resolve_left hat
      by_cases ht : mustRename taken t
      · have hmust' : mustRename (taken ++ [freshTemp taken t level]) a :=
          ⟨hmust.1, List.mem_append_left _ hmust.2⟩
        obtain ⟨x, hx⟩ := ih ha' hmust'
        rw [if_pos ht, hx]
        exact ⟨x, rfl⟩
      · rw [if_neg ht]
        exact ih ha' hmust

/-! ### the names of the signature -/

theorem paramRenaming_eq_some {own inherited : Method} {a x : Text}
    (h : (paramRenaming own inherited).get? a = some x) :
    ∃ p ∈ own.params.zip inherited.params,
      p.2.name = a ∧ p.1.name = x ∧ a ≠ [] ∧ x ≠ [] := by
  let step : Renaming → Param × Param → Renaming := fun f p =>
    if !isBlankName p.2.name && p.1.name != [] && p.2.name != p.1.name then
      f.set p.2.name p.1.name
    else f
  have hfold : ∀ (ps : List (Param × Param)) (f : Renaming),
      (ps.foldl step f).get? a = some x →
        f.get? a = some x ∨ ∃ p ∈ ps, p.2.name = a ∧ p.1.name = x ∧ a ≠ [] ∧ x ≠ [] := by
    intro ps
    induction ps with
    | nil => exact fun f hf => .inl hf
    | cons p ps ih =>
      intro f hf
      rcases ih _ hf with hstep | ⟨q, hq, hqa⟩
      · by_cases hcond : (!isBlankName p.2.name && p.1.name != [] && p.2.name != p.1.name) = true
        · have hset : step f p = f.set p.2.name p.1.name := if_pos hcond
          rw [hset, Renaming.get?_set] at hstep
          by_cases ha : a = p.2.name
          · rw [if_pos ha] at hstep
            have hx : p.1.name = x := Option.some.inj hstep
            refine .inr ⟨p, List.mem_cons_self, ha.symm, hx, ?_, ?_⟩
            · rintro rfl
              rw [← ha] at hcond
              cases hcond
            · rintro rfl
              rw [hx, bne_self_eq_false, Bool.and_false, Bool.false_and] at hcond
              cases hcond
          · rw [if_neg ha] at hstep
            exact .inl hstep
        · have hkeep : step f p = f := if_neg hcond
          rw [hkeep] at hstep
          exact .inl hstep
      · exact .inr ⟨q, List.mem_cons_of_mem _ hq, hqa⟩
  exact (hfold (own.params.zip inherited.params) [] h).resolve_left fun hnil => by cases hnil

/-- the receiver gets the name of the override's receiver, a parameter that of its parameter -/
theorem signatureRenaming_eq_some {own inherited : Method} {a x : Text}
    (h : (signatureRenaming own inherited).get? a = some x) :
    (a = inherited.receiverName ∧ x = own.receiverName) ∨
      (a ∈ inherited.paramNames ∧ a ≠ [] ∧ x ∈ own.paramNames ∧ x ≠ []) := by
  have hparam : (paramRenaming own inherited).get? a = some x →
      a ∈ inherited.paramNames ∧ a ≠ [] ∧ x ∈ own.paramNames ∧ x ≠ [] := by
    intro hget
    obtain ⟨p, hp, rfl, rfl, ha, hx⟩ := paramRenaming_eq_some hget
    exact ⟨List.mem_map_of_mem (List.of_mem_zip hp).2, ha,
      List.mem_map_of_mem (List.of_mem_zip hp).1, hx⟩
  unfold signatureRenaming at h
  split at h
  · exact .inr (hparam h)
  · rw [Renaming.get?_set] at h
    by_cases ha : a = inherited.receiverName
    · rw [if_pos ha] at h
      exact .inl ⟨ha, (Option.some.inj h).symm⟩
    · rw [if_neg ha] at h
      exact .inr (hparam h)

end ContractChecks
