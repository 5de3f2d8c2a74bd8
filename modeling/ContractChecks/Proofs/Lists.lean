import Mathlib.Data.List.Induction
import Mathlib.Data.List.Nodup
import Mathlib.Data.List.Perm.Basic

/-!
# Keys in lists

Elements of a list under keys: the distinct keys, the elements grouped by them, and what stands at the
key of one element if no two elements have the same.
-/

namespace ContractChecks

variable {α β κ : Type}

theorem eraseDups_concat [BEq α] [LawfulBEq α] (l : List α) (a : α) [Decidable (a ∈ l)] :
    (l ++ [a]).eraseDups = if a ∈ l then l.eraseDups else l.eraseDups ++ [a] := by
  rw [List.eraseDups_append]
  by_cases h : a ∈ l
  · have hnone : [a].removeAll l = [] := by simp [List.removeAll, h]
    rw [if_pos h, hnone, List.eraseDups_nil, List.append_nil]
  · have hall : [a].removeAll l = [a] := by simp [List.removeAll, h]
    rw [if_neg h, hall]
    rfl

theorem nodup_eraseDups [BEq α] [LawfulBEq α] (l : List α) : l.eraseDups.Nodup := by
  induction l using List.reverseRecOn with
  | nil => exact List.nodup_nil
  | append_singleton l a ih =>
    rw [eraseDups_concat]
    split
    · exact ih
    case isFalse ha =>
      refine List.nodup_append.2 ⟨ih, List.nodup_singleton a, fun b hb d hd hbd => ha ?_⟩
      rw [← List.mem_singleton.1 hd, ← hbd]
      exact List.mem_eraseDups.1 hb

section
variable [DecidableEq κ]

/-- grouping by distinct keys keeps every element -/
theorem flatMap_filter_perm {keys : List κ} (hkeys : keys.Nodup) (es : List (κ × β))
    (hall : ∀ e ∈ es, e.1 ∈ keys) :
    (keys.flatMap fun k => es.filter fun e => e.1 = k).Perm es := by
  induction keys generalizing es with
  | nil =>
    cases es with
    | nil => exact .nil
    | cons e es => exact absurd (hall e List.mem_cons_self) List.not_mem_nil
  | cons k keys ih =>
    rw [List.nodup_cons] at hkeys
    rw [List.flatMap_cons]
    refine .trans (.append_left _ ?_) (List.filter_append_perm (fun e => e.1 = k) es)
    -- the later groups are those of the elements under other keys
    have hrest : (keys.flatMap fun k' => es.filter fun e => e.1 = k')
        = keys.flatMap fun k' => (es.filter fun e => !decide (e.1 = k)).filter fun e => e.1 = k' := by
      refine List.flatMap_congr fun k' hk' => ?_
      rw [List.filter_filter]
      refine List.filter_congr fun e _ => ?_
      by_cases he : e.1 = k'
      · have hne : k' ≠ k := fun h => hkeys.1 (h ▸ hk')
        simp [he, hne]
      · simp [he]
    rw [hrest]
    refine ih hkeys.2 _ fun e he => ?_
    obtain ⟨hmem, hne⟩ := List.mem_filter.1 he
    rcases List.mem_cons.1 (hall e hmem) with heq | htail
    · simp [heq] at hne
    · exact htail

/-- what stands at the key of an element comes from this element -/
theorem filter_filterMap_key (key : α → Option κ) {place : β → κ} {g : α → Option β} {l : List α}
    (hplace : ∀ a b, g a = some b → key a = some (place b)) (hkeys : (l.filterMap key).Nodup) {a : α}
    (ha : a ∈ l) {k : κ} (hk : key a = some k) :
    ((l.filterMap g).filter fun b => place b = k) = (g a).toList := by
  induction l with
  | nil => cases ha
  | cons x l ih =>
    rw [List.filterMap_cons] at hkeys ⊢
    rcases List.mem_cons.1 ha with rfl | ha
    · simp only [hk, List.nodup_cons] at hkeys
      have hnone : ((l.filterMap g).filter fun b => place b = k) = [] := by
        rw [List.filter_eq_nil_iff]
        intro b hb hat
        obtain ⟨c, hc, hb⟩ := List.mem_filterMap.1 hb
        refine hkeys.1 (List.mem_filterMap.2 ⟨c, hc, ?_⟩)
        rw [hplace c b hb, of_decide_eq_true hat]
      cases hg : g a with
      | none => exact hnone
      | some b =>
        have hplaced : place b = k := Option.some.inj ((hplace a b hg).symm.trans hk)
        show (b :: l.filterMap g).filter _ = [b]
        rw [List.filter_cons_of_pos (by simpa using hplaced), hnone]
    · have hmem : k ∈ l.filterMap key := List.mem_filterMap.2 ⟨a, ha, hk⟩
      have htail : (l.filterMap key).Nodup := by
        cases hx : key x with
        | none => simpa only [hx] using hkeys
        | some y => exact (List.nodup_cons.1 (by simpa only [hx] using hkeys)).2
      cases hg : g x with
      | none => exact ih htail ha
      | some b =>
        have hother : ¬place b = k := by
          intro hplaced
          have hx : key x = some k := hplaced ▸ hplace x b hg
          simp only [hx, List.nodup_cons] at hkeys
          exact hkeys.1 hmem
        show (b :: l.filterMap g).filter _ = _
        rw [List.filter_cons_of_neg (by simpa using hother)]
        exact ih htail ha

end

end ContractChecks
