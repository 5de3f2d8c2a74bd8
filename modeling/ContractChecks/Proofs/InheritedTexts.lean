import ContractChecks.Proofs.CompositionMeaning
import ContractChecks.Proofs.GuardedCaptures
import ContractChecks.Proofs.WholeWords

/-!
# Texts of inherited contracts

The renaming of an inherited contract takes names to names.  A predicate that can fail can still
fail afterwards, unless a name has become the constant true.

* `HasWord m s`: `m` stands in `s` with only blanks and other characters next to it that are not
  part of a name;
* `assertable_of_mem_namesIn`: a predicate can fail if a name in it can fail on its own;
* `assertable_rename`: so it can fail after a renaming to such names;
* `inheritedRenaming_named`: the renaming of an inherited contract takes names to names.
-/

namespace ContractChecks

/-! ### words that trimming leaves whole -/

/-- the character can stand next to a word -/
def BoundsWord (c : Char) : Prop := isNamePart c = false ∨ isBlank c = true

def HasWord (m s : Text) : Prop :=
  ∃ a b, s = a ++ (m ++ b) ∧ (∀ c ∈ a.getLast?, BoundsWord c) ∧ ∀ c ∈ b.head?, BoundsWord c

/-- a text that starts and ends with a character that `p` excludes -/
structure Ends (p : Char → Prop) (m : Text) : Prop where
  first : ∃ c ∈ m.head?, ¬p c
  last : ∃ c ∈ m.getLast?, ¬p c

theorem Ends.reverse {p : Char → Prop} {m : Text} (h : Ends p m) : Ends p m.reverse where
  first := by
    rw [List.head?_reverse]
    exact h.last
  last := by
    rw [List.getLast?_reverse]
    exact h.first

namespace HasWord

variable {m s : Text}

theorem reverse (h : HasWord m s) : HasWord m.reverse s.reverse := by
  obtain ⟨a, b, rfl, ha, hb⟩ := h
  refine ⟨b.reverse, a.reverse, by simp, ?_, ?_⟩
  · rw [List.getLast?_reverse]
    exact hb
  · rw [List.head?_reverse]
    exact ha

theorem of_reverse (h : HasWord m.reverse s.reverse) : HasWord m s := by
  have hback := h.reverse
  rw [List.reverse_reverse, List.reverse_reverse] at hback
  exact hback

theorem of_cons {p : Char → Prop} (hm : Ends p m) {c : Char} (hc : p c) (h : HasWord m (c :: s)) :
    HasWord m s := by
  obtain ⟨a, b, heq, ha, hb⟩ := h
  cases a with
  | nil =>
    obtain ⟨d, hd, hnot⟩ := hm.first
    have hhead : (c :: s).head? = some d := by
      rw [heq, List.nil_append, List.head?_append, Option.mem_def.1 hd]
      rfl
    cases hhead
    exact absurd hc hnot
  | cons e a =>
    cases heq
    refine ⟨a, b, rfl, fun d hd => ha d ?_, hb⟩
    rw [List.getLast?_cons, Option.mem_def.1 hd]
    rfl

theorem dropWhile {p : Char → Bool} (hm : Ends (p · = true) m) (h : HasWord m s) :
    HasWord m (s.dropWhile p) := by
  induction s with
  | nil => exact h
  | cons c s ih =>
    rw [List.dropWhile_cons]
    split
    case isTrue hc => exact ih (h.of_cons hm hc)
    case isFalse => exact h

theorem trim (hm : Ends (isBlank · = true) m) (h : HasWord m s) : HasWord m (Text.trim s) := by
  have hend := (h.dropWhile hm).reverse.dropWhile hm.reverse
  apply of_reverse
  show HasWord m.reverse (((s.dropWhile isBlank).reverse.dropWhile isBlank).reverse).reverse
  rw [List.reverse_reverse]
  exact hend

theorem stripParens (hblank : Ends (isBlank · = true) m) (hparen : Ends (· ∈ ['(', ')']) m)
    (h : HasWord m s) : HasWord m (stripParens s) := by
  fun_induction ContractChecks.stripParens s with
  | case1 s hs => exact h
  | case2 s t hs ih =>
    rw [eq_of_insideParens? hs] at h
    have hopen := h.of_cons hparen List.mem_cons_self
    have hclose : HasWord m.reverse t.reverse := by
      have hback := hopen.reverse
      rw [List.reverse_append, List.reverse_singleton, List.singleton_append] at hback
      exact hback.of_cons hparen.reverse (by decide)
    exact ih (hclose.of_reverse.trim hblank)

/-- the only word of a text of name characters is the text -/
theorem eq (hs : ∀ c ∈ s, ¬BoundsWord c) (h : HasWord m s) : m = s := by
  obtain ⟨a, b, rfl, ha, hb⟩ := h
  have hstart : a = [] := by
    cases hlast : a.getLast? with
    | none => exact List.getLast?_eq_none_iff.1 hlast
    | some c =>
      exact absurd (ha c hlast) (hs c (List.mem_append_left _ (List.mem_of_getLast? hlast)))
  have hend : b = [] := by
    cases b with
    | nil => rfl
    | cons c b => exact absurd (hb c rfl) (hs c (by simp))
  rw [hstart, hend, List.append_nil, List.nil_append]

end HasWord

/-! ### predicates that can fail -/

theorem ends_trim {s : Text} (h : Text.trim s ≠ []) : Ends (isBlank · = true) (Text.trim s) := by
  have hdrop : ∀ {t : Text} {c : Char}, (t.dropWhile isBlank).head? = some c → ¬isBlank c = true := by
    intro t c hc
    have hnot := List.head?_dropWhile_not isBlank t
    rw [hc] at hnot
    change isBlank c = false at hnot
    rw [hnot]
    decide
  obtain ⟨c, r, heq⟩ := List.exists_cons_of_ne_nil h
  constructor
  · refine ⟨c, by rw [heq]; rfl, hdrop (t := s) ?_⟩
    obtain ⟨v, hv⟩ := trimEnd_le (Text.trimStart s)
    change Text.trim s ++ v = s.dropWhile isBlank at hv
    rw [← hv, heq]
    rfl
  · have hlast : (Text.trim s).getLast? = ((Text.trimStart s).reverse.dropWhile isBlank).head? :=
      List.getLast?_reverse
    cases hd : (Text.trim s).getLast? with
    | none => exact absurd (List.getLast?_eq_none_iff.1 hd) h
    | some d =>
      rw [hlast] at hd
      exact ⟨d, rfl, hdrop hd⟩

theorem hasWord_of_standsIn {n s : Text} (h : StandsIn n s) : HasWord (Text.trim n) s := by
  obtain ⟨a, b, rfl, ha, hb⟩ := h
  obtain ⟨u, v, hn, hblank⟩ := trim_eq_append n
  refine ⟨a ++ u, v ++ b, ?_, ?_, ?_⟩
  · conv_lhs => rw [hn]
    simp
  · intro c hc
    rw [List.getLast?_append] at hc
    rcases Option.or_eq_some_iff.1 hc with hc | ⟨-, hc⟩
    · exact .inr (hblank c (List.mem_append_left _ (List.mem_of_getLast? hc)))
    · exact .inl (ha c hc)
  · intro c hc
    rw [List.head?_append] at hc
    rcases Option.or_eq_some_iff.1 hc with hc | ⟨-, hc⟩
    · exact .inr (hblank c (List.mem_append_right _ (List.mem_of_mem_head? hc)))
    · exact .inl (hb c hc)

theorem assertable_iff {p : Text} :
    assertable p = true ↔ stripParens p.trim ≠ [] ∧ stripParens p.trim ≠ ("true" : Text) := by
  unfold assertable
  simp only [Bool.and_eq_true, bne_iff_ne]

/-- a name is a predicate without parentheses -/
theorem stripParens_trim_name {n : Text} (hn : isName n = true) : stripParens n.trim = n.trim := by
  have hnone : insideParens? n.trim = none := by
    cases hin : insideParens? n.trim with
    | none => rfl
    | some t =>
      have hopen : '(' ∈ n.trim := by
        rw [eq_of_insideParens? hin]
        exact List.mem_cons_self
      have hpart := isNamePart_of_isName hn _ (Text.mem_of_mem_trim hopen)
      exact absurd hpart (by decide)
  rw [stripParens]
  split
  case h_1 => rfl
  case h_2 t hin =>
    rw [hnone] at hin
    cases hin

theorem assertable_of_mem_namesIn {n s : Text} (hn : isName n = true) (hfail : assertable n = true)
    (h : n ∈ namesIn s) : assertable s = true := by
  rw [assertable_iff, stripParens_trim_name hn] at hfail
  obtain ⟨hne, htrue⟩ := hfail
  have hblank := ends_trim hne
  have hparts : ∀ c ∈ n.trim, c ∉ ['(', ')'] := by
    intro c hc hparen
    have hpart := isNamePart_of_isName hn c (Text.mem_of_mem_trim hc)
    rcases List.mem_pair.1 hparen with rfl | rfl <;> exact absurd hpart (by decide)
  have hparen : Ends (· ∈ ['(', ')']) n.trim := by
    obtain ⟨⟨c, hc, -⟩, ⟨d, hd, -⟩⟩ := hblank
    exact ⟨⟨c, hc, hparts c (List.mem_of_mem_head? hc)⟩,
      ⟨d, hd, hparts d (List.mem_of_getLast? hd)⟩⟩
  have hword : HasWord n.trim (stripParens s.trim) :=
    ((hasWord_of_standsIn (standsIn_of_mem_namesIn hn h)).trim hblank).stripParens hblank hparen
  rw [assertable_iff]
  constructor
  · intro hnil
    rw [hnil] at hword
    exact hne (hword.eq (by simp))
  · intro heq
    rw [heq] at hword
    refine htrue (hword.eq fun c hc => ?_)
    have hletter : (isNamePart c && !isBlank c) = true :=
      List.all_eq_true.1
        (show ("true" : Text).all (fun c => isNamePart c && !isBlank c) = true by decide) c hc
    rw [Bool.and_eq_true, Bool.not_eq_true'] at hletter
    rintro (hpart | hspace)
    · rw [hletter.1] at hpart
      cases hpart
    · rw [hletter.2] at hspace
      cases hspace

/-- a renaming of names that do not occur changes nothing -/
theorem rename_eq_self {f : Renaming} {s : Text} (h : ∀ a ∈ namesIn s, f.get? a = none) :
    rename f s = s := by
  have hall : ∀ (ls : List Lexeme) (last : Option Char),
      (∀ a ∈ namesFrom last ls, f.get? a = none) → renameFrom f last ls = unlex ls := by
    intro ls
    induction ls with
    | nil => exact fun last _ => rfl
    | cons l ls ih =>
      intro last hnone
      rw [namesFrom_cons] at hnone
      have hfirst : l.renamed f last = l.text := by
        cases l with
        | name raw =>
          rw [Lexeme.freeName?] at hnone
          rw [Lexeme.renamed]
          split
          · rfl
          · rename_i hpoint
            rw [if_neg hpoint] at hnone
            exact Renaming.image_of_none (hnone raw (by simp))
        | keyword raw => exact Renaming.image_of_none (hnone raw (by simp [Lexeme.freeName?]))
        | literal raw => rfl
        | number raw => rfl
        | other c => rfl
      rw [renameFrom_cons, hfirst, ih _ fun a ha => hnone a (List.mem_append_right _ ha)]
      rfl
  rw [namesIn_eq] at h
  rw [rename, hall _ _ h, concat_lexemes]

theorem assertable_rename {f : Renaming} (hf : f.Named)
    (himage : ∀ a x, f.get? a = some x → assertable x = true) {p : Text}
    (h : assertable p = true) : assertable (rename f p) = true := by
  by_cases hnone : ∀ a ∈ namesIn p, f.get? a = none
  · rw [rename_eq_self hnone]
    exact h
  · obtain ⟨a, ha, x, hx⟩ : ∃ a ∈ namesIn p, ∃ x, f.get? a = some x := by
      simpa [Option.ne_none_iff_exists'] using hnone
    have hmem : x ∈ namesIn (rename f p) := by
      rw [namesIn_rename hf, ← Renaming.image_of_some hx]
      exact List.mem_map_of_mem ha
    exact assertable_of_mem_namesIn (hf a x hx).2 (himage a x hx) hmem

/-! ### the renamings of a composition -/

def Method.Named (m : Method) : Prop := ∀ n ∈ m.receiver :: m.paramNames, n = [] ∨ isName n = true

instance (m : Method) : Decidable m.Named :=
  inferInstanceAs (Decidable (∀ n ∈ m.receiver :: m.paramNames, n = [] ∨ isName n = true))

theorem Method.Named.receiverName {m : Method} (h : m.Named) : isName m.receiverName = true := by
  unfold Method.receiverName
  split
  · decide
  · rename_i hne
    exact (h _ List.mem_cons_self).resolve_left hne

theorem isName_tempCandidate {t : Text} (ht : isName t = true) (level n : Nat) :
    isName (tempCandidate t level n) = true := by
  have hpart : ∀ k, ∀ c ∈ ("_" : Text) ++ Text.ofNat k, isNamePart c = true := by
    intro k c hc
    rcases List.mem_append.1 hc with hc | hc
    · rw [List.mem_singleton.1 hc]
      decide
    · exact (isDigit_spec (isDigit_of_mem_ofNat hc)).1
  have hone := isName_append ht (hpart level)
  rw [← List.append_assoc] at hone
  unfold tempCandidate
  split
  · exact hone
  · have htwo := isName_append hone (hpart n)
    rw [← List.append_assoc] at htwo
    exact htwo

theorem isName_of_mem_temporaries {c : Contract} {t : Text} (ht : t ∈ c.temporaries)
    (hne : t ≠ []) : isName t = true := by
  have hlead : ∃ s, t = leadingName s := by
    unfold Contract.temporaries at ht
    rcases List.mem_append.1 ht with ht | ht
    · rcases List.mem_append.1 ht with ht | ht
      · obtain ⟨e, -, ht⟩ := List.mem_flatMap.1 ht
        obtain ⟨v, -, rfl⟩ := List.mem_map.1 ht
        exact ⟨_, rfl⟩
      · obtain ⟨e, -, ht⟩ := List.mem_flatMap.1 ht
        obtain ⟨d, -, rfl⟩ := List.mem_map.1 ht
        exact ⟨_, rfl⟩
    · obtain ⟨d, -, rfl⟩ := List.mem_map.1 ht
      exact ⟨_, rfl⟩
  obtain ⟨s, rfl⟩ := hlead
  exact isName_leadingName hne

section

variable {own : Method} {c : Contract} {taken : List Text} {level : Nat}

theorem inheritedRenaming_named (hown : own.Named) (hc : c.method.Named) :
    (inheritedRenaming taken own c level).1.Named := by
  intro a x h
  rw [(inheritedRenaming_spec taken own c level).1] at h
  rcases Option.or_eq_some_iff.1 h with h | ⟨-, h⟩
  · obtain ⟨ha, -, -, n, rfl⟩ := freshName?_eq_some h
    have hname := isName_of_mem_temporaries ha (ne_nil_of_freshName? h)
    exact ⟨hname, isName_tempCandidate hname level n⟩
  · rcases signatureRenaming_eq_some h with ⟨rfl, rfl⟩ | ⟨ha, ha0, hx, hx0⟩
    · exact ⟨hc.receiverName, hown.receiverName⟩
    · exact ⟨(hc a (List.mem_cons_of_mem _ ha)).resolve_left ha0,
        (hown x (List.mem_cons_of_mem _ hx)).resolve_left hx0⟩

/-- a new name is one of the override's, or has an underscore -/
theorem inheritedRenaming_eq_some {a x : Text}
    (h : (inheritedRenaming taken own c level).1.get? a = some x) :
    x = own.receiverName ∨ (x ∈ own.paramNames ∧ x ≠ []) ∨ '_' ∈ x := by
  rw [(inheritedRenaming_spec taken own c level).1] at h
  rcases Option.or_eq_some_iff.1 h with h | ⟨-, h⟩
  · obtain ⟨-, -, -, n, rfl⟩ := freshName?_eq_some h
    right; right
    unfold tempCandidate
    split <;> simp
  · rcases signatureRenaming_eq_some h with ⟨-, rfl⟩ | ⟨-, -, hx, hne⟩
    · exact .inl rfl
    · exact .inr (.inl ⟨hx, hne⟩)

end

end ContractChecks
