import ContractChecks.Text.Basic

/-!
# Blanks

`isBlank` is the white space of Unicode.  `trim` removes blanks at both ends, `words` are the
maximal runs of characters that are not blank.  Inside a line of source only the space, the tab
and the line end count as layout (`isLayout`).
-/

namespace ContractChecks

/-- Unicode white space -/
def isBlank (c : Char) : Bool :=
  c = ' ' || (0x09 ≤ c.toNat && c.toNat ≤ 0x0d) || c.toNat = 0x85 || c.toNat = 0xa0
    || c.toNat = 0x1680 || (0x2000 ≤ c.toNat && c.toNat ≤ 0x200a) || c.toNat = 0x2028
    || c.toNat = 0x2029 || c.toNat = 0x202f || c.toNat = 0x205f || c.toNat = 0x3000

/-- the space, the tab and the line end -/
def isLayout (c : Char) : Bool := c = ' ' || c = '\t' || c = '\n'

namespace Text

def trimStart (s : Text) : Text := s.dropWhile isBlank

def trimEnd (s : Text) : Text := (s.reverse.dropWhile isBlank).reverse

def trim (s : Text) : Text := trimEnd (trimStart s)

/-- `s` without the layout characters at its end -/
def trimLayoutEnd (s : Text) : Text := (s.reverse.dropWhile isLayout).reverse

theorem length_trimStart_le (s : Text) : (trimStart s).length ≤ s.length :=
  (List.dropWhile_sublist isBlank).length_le

theorem length_trimEnd_le (s : Text) : (trimEnd s).length ≤ s.length := by
  have h := (List.dropWhile_sublist (l := s.reverse) isBlank).length_le
  simpa [trimEnd] using h

theorem length_trim_le (s : Text) : (trim s).length ≤ s.length :=
  Nat.le_trans (length_trimEnd_le _) (length_trimStart_le _)

theorem length_trimLayoutEnd_le (s : Text) : (trimLayoutEnd s).length ≤ s.length := by
  have h := (List.dropWhile_sublist (l := s.reverse) isLayout).length_le
  simpa [trimLayoutEnd] using h

theorem mem_of_mem_trim {c : Char} {s : Text} (h : c ∈ trim s) : c ∈ s := by
  have hend := (List.dropWhile_suffix isBlank).subset (List.mem_reverse.1 h)
  exact (List.dropWhile_suffix isBlank).subset (List.mem_reverse.1 hend)

theorem mem_trim {c : Char} (hc : isBlank c = false) {s : Text} (h : c ∈ s) : c ∈ trim s := by
  have hkept : ∀ {t : Text}, c ∈ t → c ∈ t.dropWhile isBlank := by
    intro t ht
    rw [← List.takeWhile_append_dropWhile (p := isBlank) (l := t)] at ht
    rcases List.mem_append.1 ht with ht | ht
    · rw [List.all_eq_true.1 List.all_takeWhile c ht] at hc
      cases hc
    · exact ht
  exact List.mem_reverse.2 (hkept (List.mem_reverse.2 (hkept h)))

/-- the maximal runs without blanks, of a text whose current run is `run` -/
def wordsFrom (run : Text) : Text → List Text
  | [] => if run.isEmpty then [] else [run]
  | c :: r =>
    if isBlank c then
      if run.isEmpty then wordsFrom [] r else run :: wordsFrom [] r
    else wordsFrom (run ++ [c]) r

def words (s : Text) : List Text := wordsFrom [] s

end Text

/-! ### blanks around a text -/

/-- what is cut off at the end of a text -/
theorem exists_append_of_dropWhile_reverse (p : Char → Bool) (s : Text) :
    ∃ u : Text, (s.reverse.dropWhile p).reverse ++ u = s ∧ ∀ c ∈ u, p c = true := by
  refine ⟨(s.reverse.takeWhile p).reverse, ?_, ?_⟩
  · rw [← List.reverse_append, List.takeWhile_append_dropWhile, List.reverse_reverse]
  · intro c hc
    exact List.all_eq_true.1 List.all_takeWhile c (List.mem_reverse.1 hc)

theorem trim_eq_append (s : Text) :
    ∃ u v, s = u ++ (Text.trim s ++ v) ∧ ∀ c ∈ u ++ v, isBlank c = true := by
  obtain ⟨v, hv, hblank⟩ := exists_append_of_dropWhile_reverse isBlank (Text.trimStart s)
  refine ⟨s.takeWhile isBlank, v, ?_, ?_⟩
  · show s = _ ++ (((Text.trimStart s).reverse.dropWhile isBlank).reverse ++ v)
    rw [hv]
    exact List.takeWhile_append_dropWhile.symm
  · intro c hc
    rcases List.mem_append.1 hc with hc | hc
    · exact List.all_eq_true.1 List.all_takeWhile c hc
    · exact hblank c hc

theorem trim_cons_blank {c : Char} (hc : isBlank c = true) (s : Text) :
    Text.trim (c :: s) = Text.trim s := by
  rw [Text.trim, Text.trim, Text.trimStart, Text.trimStart, List.dropWhile_cons, if_pos hc]

theorem trimEnd_append_blank {c : Char} (hc : isBlank c = true) (s : Text) :
    Text.trimEnd (s ++ [c]) = Text.trimEnd s := by
  rw [Text.trimEnd, Text.trimEnd, List.reverse_append, List.reverse_singleton,
    List.singleton_append, List.dropWhile_cons, if_pos hc]

theorem trim_append_blank {c : Char} (hc : isBlank c = true) (s : Text) :
    Text.trim (s ++ [c]) = Text.trim s := by
  induction s with
  | nil => exact trim_cons_blank hc []
  | cons d s ih =>
    cases hd : isBlank d with
    | true => rw [List.cons_append, trim_cons_blank hd, trim_cons_blank hd, ih]
    | false =>
      have hkeep : ∀ t : Text, Text.trimStart (d :: t) = d :: t := by
        intro t
        rw [Text.trimStart, List.dropWhile_cons, hd]
        rfl
      rw [List.cons_append, Text.trim, Text.trim, hkeep, hkeep, ← List.cons_append,
        trimEnd_append_blank hc]

theorem trim_pad {u v : Text} (hu : ∀ c ∈ u, isBlank c = true) (hv : ∀ c ∈ v, isBlank c = true)
    (s : Text) : Text.trim (u ++ (s ++ v)) = s.trim := by
  have hend : Text.trim (s ++ v) = s.trim := by
    induction v generalizing s with
    | nil => rw [List.append_nil]
    | cons c v ih =>
      rw [List.forall_mem_cons] at hv
      rw [List.append_cons, ih hv.2, trim_append_blank hv.1]
  induction u with
  | nil => exact hend
  | cons c u ih =>
    rw [List.cons_append, trim_cons_blank (hu c List.mem_cons_self)]
    exact ih fun d hd => hu d (List.mem_cons_of_mem c hd)

theorem trim_trim (s : Text) : s.trim.trim = s.trim := by
  obtain ⟨u, v, hs, hblank⟩ := trim_eq_append s
  rw [List.forall_mem_append] at hblank
  have hpad := trim_pad hblank.1 hblank.2 s.trim
  rw [← hs] at hpad
  exact hpad.symm

end ContractChecks
