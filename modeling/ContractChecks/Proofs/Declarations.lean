import ContractChecks.Proofs.InheritedRenaming
import ContractChecks.Proofs.Merging

/-!
# Declarations under a renaming

The name of a temporary is read off the text of its declaration.  For declarations as they are
written, such as `n int` or `var n int`, a renaming of the text is a renaming of the name.

* `PlainName n`: an identifier without blanks, other than `var`;
* `Declares s n`: the text `s` is a declaration of `n`;
* `Declares.declaredName`, `Declares.oldVarName`: the name read off such a text;
* `Declares.rename`: the renamed text declares the renamed name;
* `Contract.PlainNames.temporaries_renamed`: the temporaries of a renamed contract.
-/

namespace ContractChecks

def varWord : Text := "var"

structure PlainName (n : Text) : Prop where
  name : isName n = true
  solid : ∀ c ∈ n, isBlank c = false
  ne_var : n ≠ varWord

theorem plainName_of_decide {n : Text}
    (h : (isName n && n.all (fun c => !isBlank c) && n != varWord) = true) : PlainName n := by
  simp only [Bool.and_eq_true, List.all_eq_true, Bool.not_eq_true', bne_iff_ne] at h
  exact ⟨h.1.1, h.1.2, h.2⟩

/-- the text cannot continue a name that stands before it -/
def EndsName (s : Text) : Prop := ∀ c ∈ s.head?, isNamePart c = false

/-- the text `s` is `n` or `var n` and something after it that does not continue the name -/
def Declares (s n : Text) : Prop :=
  PlainName n ∧ ∃ start word rest : Text, s = start ++ (word ++ (n ++ rest)) ∧
    (∀ c ∈ start, isLayout c = true) ∧ EndsName rest ∧
    (word = [] ∨ ∃ gap : Text, word = varWord ++ ' ' :: gap ∧ ∀ c ∈ gap, isLayout c = true)

/-! ### the parts of a declaration -/

theorem isName_cons {c : Char} {r : Text} :
    isName (c :: r) = true ↔ isNameStart c = true ∧ ∀ d ∈ r, isNamePart d = true := by
  rw [isName, Bool.and_eq_true, List.all_eq_true]

theorem not_isName_keyword (raw : Text) : ¬isName ('\\' :: raw) = true := by
  intro h
  exact absurd (isName_cons.1 h).1 (by decide)

theorem isName_append {n u : Text} (hn : isName n = true) (hu : ∀ c ∈ u, isNamePart c = true) :
    isName (n ++ u) = true := by
  cases n with
  | nil => cases hn
  | cons c r =>
    obtain ⟨hc, hr⟩ := isName_cons.1 hn
    rw [List.cons_append, isName_cons, List.forall_mem_append]
    exact ⟨hc, hr, hu⟩

theorem isNamePart_of_isName {n : Text} (h : isName n = true) : ∀ c ∈ n, isNamePart c = true := by
  cases n with
  | nil => cases h
  | cons d r =>
    rw [isName_cons] at h
    intro c hc
    rcases List.mem_cons.1 hc with rfl | hc
    · rw [isNamePart, h.1, Bool.true_or]
    · exact h.2 c hc

theorem takeWhile_name {n rest : Text} (hn : ∀ c ∈ n, isNamePart c = true) (hr : EndsName rest) :
    (n ++ rest).takeWhile isNamePart = n ∧ (n ++ rest).dropWhile isNamePart = rest := by
  have hstop : rest.takeWhile isNamePart = [] ∧ rest.dropWhile isNamePart = rest := by
    cases rest with
    | nil => exact ⟨rfl, rfl⟩
    | cons c r =>
      have hc : isNamePart c = false := hr c rfl
      rw [List.takeWhile_cons, List.dropWhile_cons, hc]
      exact ⟨rfl, rfl⟩
  rw [List.takeWhile_append_of_pos hn, List.dropWhile_append_of_pos hn, hstop.1, hstop.2,
    List.append_nil]
  exact ⟨rfl, rfl⟩

theorem isLayout_cases {c : Char} (h : isLayout c = true) : c = ' ' ∨ c = '\t' ∨ c = '\n' := by
  simpa [isLayout, or_assoc] using h

theorem isBlank_of_isLayout {c : Char} (h : isLayout c = true) : isBlank c = true := by
  rcases isLayout_cases h with rfl | rfl | rfl <;> decide

theorem not_isNamePart_of_isLayout {c : Char} (h : isLayout c = true) : isNamePart c = false := by
  rcases isLayout_cases h with rfl | rfl | rfl <;> decide

theorem endsName_dropWhile (s : Text) : EndsName (s.dropWhile isNamePart) := by
  intro c hc
  have hnot := List.head?_dropWhile_not isNamePart s
  rw [hc] at hnot
  simpa using hnot

theorem endsName_space (t : Text) : EndsName (' ' :: t) := by
  intro c hc
  cases hc
  decide

theorem EndsName.mono {s t : Text} (h : EndsName t) (hst : s <+: t) : EndsName s := by
  obtain ⟨u, rfl⟩ := hst
  cases s with
  | nil => intro c hc; cases hc
  | cons d s => exact h

/-! ### trimming -/

/-- the text begins and ends with characters that are not blank -/
structure Solid (m : Text) : Prop where
  head : ∃ c r, m = c :: r ∧ isBlank c = false
  last : ∃ r c, m = r ++ [c] ∧ isBlank c = false

theorem PlainName.ne_nil {n : Text} (h : PlainName n) : n ≠ [] := by
  rintro rfl
  cases h.name

theorem PlainName.isSolid {n : Text} (h : PlainName n) : Solid n where
  head := by
    obtain ⟨c, r, rfl⟩ := List.exists_cons_of_ne_nil h.ne_nil
    exact ⟨c, r, rfl, h.solid c List.mem_cons_self⟩
  last := by
    have heq := List.dropLast_append_getLast h.ne_nil
    exact ⟨n.dropLast, n.getLast h.ne_nil, heq.symm, h.solid _ (List.getLast_mem h.ne_nil)⟩

theorem trimEnd_append {m : Text} (hm : Solid m) (rest : Text) :
    Text.trimEnd (m ++ rest) = m ++ Text.trimEnd rest := by
  have hkeep : m.reverse.dropWhile isBlank = m.reverse := by
    obtain ⟨r, c, rfl, hc⟩ := hm.last
    rw [List.reverse_append, List.reverse_singleton, List.singleton_append, List.dropWhile_cons, hc]
    rfl
  unfold Text.trimEnd
  rw [List.reverse_append, List.dropWhile_append]
  split
  case isTrue hempty =>
    rw [hkeep, List.reverse_reverse, List.isEmpty_iff.1 hempty]
    exact (List.append_nil m).symm
  case isFalse => rw [List.reverse_append, List.reverse_reverse]

theorem trimEnd_le (s : Text) : Text.trimEnd s <+: s := by
  have hsuffix := List.dropWhile_suffix isBlank (l := s.reverse)
  have hinit := List.reverse_prefix.2 hsuffix
  rw [List.reverse_reverse] at hinit
  exact hinit

/-- blanks at the start go, and what stands after a solid middle part is trimmed at its end -/
theorem trim_append {start m : Text} (hstart : ∀ c ∈ start, isLayout c = true) (hm : Solid m)
    (rest : Text) : Text.trim (start ++ (m ++ rest)) = m ++ Text.trimEnd rest := by
  have hdrop : Text.trimStart (start ++ (m ++ rest)) = m ++ rest := by
    unfold Text.trimStart
    rw [List.dropWhile_append_of_pos fun c hc => isBlank_of_isLayout (hstart c hc)]
    obtain ⟨c, r, rfl, hc⟩ := hm.head
    rw [List.cons_append, List.dropWhile_cons, hc]
    rfl
  rw [Text.trim, hdrop, trimEnd_append hm]

theorem Solid.trim_append {m : Text} (hm : Solid m) (rest : Text) :
    Text.trim (m ++ rest) = m ++ Text.trimEnd rest := by
  have hstart : ∀ c ∈ ([] : Text), isLayout c = true := by simp
  exact ContractChecks.trim_append hstart hm rest

/-! ### the declared name -/

theorem leadingName_append (start : Text) {n rest : Text} (hstart : ∀ c ∈ start, isLayout c = true)
    (hn : isName n = true) (hr : EndsName rest) : leadingName (start ++ (n ++ rest)) = n := by
  obtain ⟨c, r, rfl⟩ : ∃ c r, n = c :: r := by
    cases n with
    | nil => cases hn
    | cons c r => exact ⟨c, r, rfl⟩
  obtain ⟨hc, hparts⟩ := isName_cons.1 hn
  have hlayout : isLayout c = false := by
    cases h : isLayout c with
    | false => rfl
    | true =>
      have hpart := isNamePart_of_isName hn c List.mem_cons_self
      rw [not_isNamePart_of_isLayout h] at hpart
      cases hpart
  have htail := (takeWhile_name hparts hr).1
  unfold leadingName
  rw [List.dropWhile_append_of_pos hstart, List.cons_append, List.dropWhile_cons, hlayout]
  show (if isNameStart c then c :: (r ++ rest).takeWhile isNamePart else []) = c :: r
  rw [if_pos hc, htail]

theorem isName_leadingName {s : Text} (hne : leadingName s ≠ []) : isName (leadingName s) = true := by
  unfold leadingName at *
  split at hne
  · exact absurd rfl hne
  · rename_i c r _
    by_cases hc : isNameStart c = true
    · rw [if_pos hc, isName, hc, List.all_takeWhile]
      rfl
    · exact absurd (if_neg hc) hne

/-- a name followed by a space after `var` would be `var` itself -/
theorem not_startsWith_var {n rest : Text} (hn : isName n = true) (hne : n ≠ varWord)
    (hr : EndsName rest) : ¬Text.startsWith (n ++ rest) "var " = true := by
  intro hstart
  obtain ⟨u, hu⟩ := List.isPrefixOf_iff_prefix.1 hstart
  have hvar : (n ++ rest).takeWhile isNamePart = varWord := by
    rw [← hu]
    rfl
  rw [(takeWhile_name (isNamePart_of_isName hn) hr).1] at hvar
  exact hne hvar

theorem dropVar_append {word n rest : Text} (hn : PlainName n) (hr : EndsName rest)
    (hword : word = [] ∨ ∃ gap : Text, word = varWord ++ ' ' :: gap ∧ ∀ c ∈ gap, isLayout c = true) :
    ∃ gap : Text, dropVar (word ++ (n ++ rest)) = gap ++ (n ++ rest) ∧
      ∀ c ∈ gap, isLayout c = true := by
  unfold dropVar Text.dropStart
  rcases hword with rfl | ⟨gap, rfl, hgap⟩
  · exact ⟨[], if_neg (not_startsWith_var hn.name hn.ne_var hr), by simp⟩
  · refine ⟨gap, ?_, hgap⟩
    rw [if_pos]
    · show (varWord ++ ' ' :: gap ++ (n ++ rest)).drop 4 = _
      rfl
    · exact List.isPrefixOf_iff_prefix.2 ⟨gap ++ (n ++ rest), by simp [varWord]⟩

theorem solid_append {word n : Text} (hn : PlainName n)
    (hword : word = [] ∨ ∃ gap : Text, word = varWord ++ ' ' :: gap ∧ ∀ c ∈ gap, isLayout c = true) :
    Solid (word ++ n) where
  head := by
    rcases hword with rfl | ⟨gap, rfl, -⟩
    · exact hn.isSolid.head
    · exact ⟨'v', _, rfl, by decide⟩
  last := by
    obtain ⟨r, c, hr, hc⟩ := hn.isSolid.last
    exact ⟨word ++ r, c, by rw [hr, List.append_assoc], hc⟩

theorem cut?_slash_cons {c : Char} (hc : c ≠ '/') (r : Text) :
    Text.cut? "/" (c :: r) = (Text.cut? "/" r).map fun p => (c :: p.1, p.2) := by
  have hinit : List.isPrefixOf ("/" : Text) (c :: r) = false := by
    show (('/' == c) && List.isPrefixOf [] r) = false
    rw [beq_eq_false_iff_ne.2 fun h => hc h.symm, Bool.false_and]
  rw [Text.cut?, hinit]
  rfl

theorem cut?_slash {s : Text} {p : Text × Text} (h : Text.cut? "/" s = some p) :
    s = p.1 ++ '/' :: p.2 := by
  induction s generalizing p with
  | nil => cases h
  | cons c r ih =>
    by_cases hc : c = '/'
    · subst hc
      cases h
      rfl
    · rw [cut?_slash_cons hc] at h
      obtain ⟨q, hq, rfl⟩ := Option.map_eq_some_iff.1 h
      rw [ih hq]
      rfl

theorem cut?_of_not_mem {s : Text} (h : '/' ∉ s) : Text.cut? "/" s = none := by
  induction s with
  | nil => rfl
  | cons c r ih =>
    rw [List.mem_cons, not_or] at h
    rw [cut?_slash_cons fun hc => h.1 hc.symm, ih h.2]
    rfl

theorem cut?_append_slash {a : Text} (h : '/' ∉ a) (b : Text) :
    Text.cut? "/" (a ++ '/' :: b) = some (a, b) := by
  induction a with
  | nil => rfl
  | cons c a ih =>
    rw [List.mem_cons, not_or] at h
    rw [List.cons_append, cut?_slash_cons fun hc => h.1 hc.symm, ih h.2]
    rfl

namespace Declares

variable {s n : Text}

theorem declaredName (h : Declares s n) : declaredName s = n := by
  obtain ⟨hn, start, word, rest, rfl, hstart, hrest, hword⟩ := h
  have htrim := trim_append hstart (solid_append hn hword) rest
  rw [List.append_assoc, List.append_assoc] at htrim
  have hrest' := hrest.mono (trimEnd_le rest)
  obtain ⟨gap, hdrop, hgap⟩ := dropVar_append hn hrest' hword
  rw [ContractChecks.declaredName, htrim, hdrop, leadingName_append gap hgap hn.name hrest']

/-- what stands before the slash of an old variable declares the same name -/
theorem cut (h : Declares s n) {p : Text × Text} (hp : Text.cut? "/" s = some p) :
    Declares p.1 n := by
  obtain ⟨hn, start, word, rest, rfl, hstart, hrest, hword⟩ := h
  have heq := cut?_slash hp
  have hslash : ∀ c ∈ start ++ (word ++ n), c ≠ '/' := by
    intro c hc
    have hlayout : isLayout c = true → c ≠ '/' := by
      rintro h rfl
      revert h
      decide
    have hname : isNamePart c = true → c ≠ '/' := by
      rintro h rfl
      revert h
      decide
    rcases List.mem_append.1 hc with hc | hc
    · exact hlayout (hstart c hc)
    rcases List.mem_append.1 hc with hc | hc
    · rcases hword with rfl | ⟨gap, rfl, hgap⟩
      · cases hc
      · rcases List.mem_append.1 hc with hc | hc
        · exact hname (isNamePart_of_isName (by decide) c hc)
        · rcases List.mem_cons.1 hc with rfl | hc
          · decide
          · exact hlayout (hgap c hc)
    · exact hname (isNamePart_of_isName hn.name c hc)
  have hsplit : (start ++ (word ++ n)) ++ rest = p.1 ++ '/' :: p.2 := by
    rw [← heq]
    simp only [List.append_assoc]
  rcases List.append_eq_append_iff.1 hsplit with ⟨u, hu, hrest'⟩ | ⟨u, hu, hrest'⟩
  · refine ⟨hn, start, word, u, ?_, hstart, hrest.mono ⟨_, hrest'.symm⟩, hword⟩
    rw [hu]
    simp only [List.append_assoc]
  · -- the slash would stand inside the declared name
    cases u with
    | nil =>
      rw [List.append_nil] at hu
      refine ⟨hn, start, word, [], ?_, hstart, ?_, hword⟩
      · rw [← hu, List.append_nil]
      · intro c hc
        cases hc
    | cons d u =>
      have hd : d = '/' := (List.cons.inj hrest').1.symm
      have hmem : d ∈ start ++ (word ++ n) := by
        rw [hu]
        exact List.mem_append_right _ List.mem_cons_self
      exact absurd hd (hslash d hmem)

theorem append (h : Declares s n) {t : Text} (ht : EndsName t) : Declares (s ++ t) n := by
  obtain ⟨hn, start, word, rest, rfl, hstart, hrest, hword⟩ := h
  refine ⟨hn, start, word, rest ++ t, by simp only [List.append_assoc], hstart, ?_, hword⟩
  cases rest with
  | nil => exact ht
  | cons c rest => exact hrest

theorem oldVarName (h : Declares s n) : OldVar.name ⟨s⟩ = n := by
  -- the part before the slash, or the whole text, is trimmed and read as a declaration
  have hname : ∀ t, Declares t n → leadingName (dropVar t.trim).trim = n := by
    intro t ht
    obtain ⟨hn, start, word, rest, rfl, hstart, hrest, hword⟩ := ht
    have htrim := trim_append hstart (solid_append hn hword) rest
    rw [List.append_assoc, List.append_assoc] at htrim
    have hrest' := hrest.mono (trimEnd_le rest)
    obtain ⟨gap, hdrop, hgap⟩ := dropVar_append hn hrest' hword
    rw [htrim, hdrop, trim_append hgap hn.isSolid]
    exact leadingName_append [] (by simp) hn.name (hrest'.mono (trimEnd_le _))
  unfold OldVar.name OldVar.split
  cases hcut : Text.cut? "/" s with
  | none => exact hname s h
  | some p => exact hname p.1 (h.cut hcut)

/-- the declaration statement of an old variable declares the same name -/
theorem decl (h : Declares s n) : Declares (OldVar.decl ⟨s⟩) n := by
  have hdecl : ∀ t, Declares t n →
      Declares (if t.trim.startsWith "var " then t.trim else "var " ++ t.trim) n := by
    intro t ht
    obtain ⟨hn, start, word, rest, rfl, hstart, hrest, hword⟩ := ht
    have htrim := trim_append hstart (solid_append hn hword) rest
    rw [List.append_assoc, List.append_assoc] at htrim
    have hrest' := hrest.mono (trimEnd_le rest)
    rw [htrim]
    split
    · exact ⟨hn, [], word, _, rfl, by simp, hrest', hword⟩
    case isFalse hvar =>
      rcases hword with rfl | ⟨gap, rfl, -⟩
      · exact ⟨hn, [], varWord ++ [' '], _, rfl, by simp, hrest', .inr ⟨[], rfl, by simp⟩⟩
      · refine absurd (List.isPrefixOf_iff_prefix.2 ⟨gap ++ (n ++ Text.trimEnd rest), ?_⟩) hvar
        simp [varWord]
  unfold OldVar.decl OldVar.split
  cases hcut : Text.cut? "/" s with
  | none => exact hdecl s h
  | some p => exact hdecl p.1 (h.cut hcut)

end Declares

/-! ### renamed texts -/

/-- the renaming changes neither `var` nor a keyword -/
structure Renaming.KeepsWords (f : Renaming) : Prop where
  var : f.get? varWord = none
  keyword : ∀ raw : Text, f.get? ('\\' :: raw) = none

theorem Renaming.keepsWords_of_plain {f : Renaming}
    (h : ∀ a x, f.get? a = some x → PlainName a) : f.KeepsWords where
  var := by
    cases hget : f.get? varWord with
    | none => rfl
    | some x => exact absurd rfl (h _ x hget).ne_var
  keyword raw := by
    cases hget : f.get? ('\\' :: raw) with
    | none => rfl
    | some x =>
      exact absurd (h _ x hget).name (not_isName_keyword raw)

/-- the text of a renamed lexeme, where `last` is the mark before it -/
def Lexeme.renamed (f : Renaming) (last : Option Char) : Lexeme → Text
  | .keyword raw => f.image raw
  | .name raw => if last == some '.' then raw else f.image raw
  | l => l.text

theorem renameFrom_cons (f : Renaming) (last : Option Char) (l : Lexeme) (ls : List Lexeme) :
    renameFrom f last (l :: ls) = l.renamed f last ++ renameFrom f (l.lastMark last) ls := by
  cases l <;> rfl

theorem firstLexeme_layout {c : Char} (h : isLayout c = true) (r : Text) :
    firstLexeme c r = (.other c, r) := by
  unfold firstLexeme
  rcases isLayout_cases h with rfl | rfl | rfl <;> rfl

theorem renameFrom_layout (f : Renaming) (last : Option Char) {start : Text}
    (h : ∀ c ∈ start, isLayout c = true) (s : Text) :
    renameFrom f last (lexemes (start ++ s)) = start ++ renameFrom f last (lexemes s) := by
  induction start with
  | nil => rfl
  | cons c start ih =>
    have hc := h c List.mem_cons_self
    rw [List.cons_append, lexemes, firstLexeme_layout hc, renameFrom_cons, Lexeme.lastMark, if_pos hc,
      ih fun d hd => h d (List.mem_cons_of_mem c hd)]
    rfl

theorem isQuoteMark_of_isNameStart {c : Char} (h : isNameStart c = true) :
    isQuoteMark c = false ∧ c ≠ '\\' := by
  constructor
  · cases hq : isQuoteMark c with
    | false => rfl
    | true =>
      have hmarks : c = '\x22' ∨ c = '\x27' ∨ c = '\x60' := by
        simpa [isQuoteMark, or_assoc] using hq
      rcases hmarks with rfl | rfl | rfl <;> revert h <;> decide
  · rintro rfl
    revert h
    decide

theorem lexemes_name {n rest : Text} (hn : isName n = true) (hr : EndsName rest) :
    lexemes (n ++ rest) = .name n :: lexemes rest := by
  obtain ⟨c, r, rfl⟩ : ∃ c r, n = c :: r := by
    cases n with
    | nil => cases hn
    | cons c r => exact ⟨c, r, rfl⟩
  rw [isName_cons] at hn
  obtain ⟨htake, hdrop⟩ := takeWhile_name hn.2 hr
  obtain ⟨hquote, hslash⟩ := isQuoteMark_of_isNameStart hn.1
  have hfirst : firstLexeme c (r ++ rest) = (.name (c :: r), rest) := by
    unfold firstLexeme
    rw [if_neg (by rw [hquote]; decide), if_neg (by simp [hslash]), if_pos hn.1, htake, hdrop]
  rw [List.cons_append, lexemes, hfirst]

theorem renameFrom_name (f : Renaming) {last : Option Char} (hlast : last ≠ some '.')
    {n rest : Text} (hn : isName n = true) (hr : EndsName rest) :
    renameFrom f last (lexemes (n ++ rest))
      = f.image n ++ renameFrom f n.getLast? (lexemes rest) := by
  rw [lexemes_name hn hr, renameFrom_cons, Lexeme.renamed, if_neg fun h => hlast (beq_iff_eq.1 h)]
  rfl

/-- the first lexeme of a text keeps its first character, unless it is a name -/
theorem head?_renameFrom {f : Renaming} (hf : ∀ raw : Text, f.get? ('\\' :: raw) = none)
    (last : Option Char) {s : Text} (hs : ∀ c ∈ s.head?, isNameStart c = false) :
    (renameFrom f last (lexemes s)).head? = s.head? := by
  cases s with
  | nil =>
    rw [lexemes]
    rfl
  | cons c r =>
    have hc : isNameStart c = false := hs c rfl
    rw [lexemes, renameFrom_cons]
    unfold firstLexeme
    by_cases hquote : isQuoteMark c = true
    · rw [if_pos hquote]
      rfl
    rw [if_neg hquote]
    by_cases hkey : (c = '\\' && r.head?.any isNameStart) = true
    · rw [if_pos hkey]
      have hslash : c = '\\' := by
        rw [Bool.and_eq_true, decide_eq_true_eq] at hkey
        exact hkey.1
      subst hslash
      rw [Lexeme.renamed, Renaming.image_of_none (hf _)]
      rfl
    rw [if_neg hkey, hc]
    by_cases hdigit : ('0' ≤ c && c ≤ '9') = true
    · rw [if_pos hdigit]
      rfl
    · rw [if_neg hdigit]
      rfl

theorem endsName_renameFrom {f : Renaming} (hf : f.KeepsWords) (last : Option Char) {rest : Text}
    (hr : EndsName rest) : EndsName (renameFrom f last (lexemes rest)) := by
  have hstart : ∀ c ∈ rest.head?, isNameStart c = false := by
    intro c hc
    have hpart := hr c hc
    rw [isNamePart, Bool.or_eq_false_iff] at hpart
    exact hpart.1
  unfold EndsName
  rw [head?_renameFrom hf.keyword last hstart]
  exact hr

theorem Declares.rename {s n : Text} (h : Declares s n) {f : Renaming} (hf : f.KeepsWords)
    (himage : PlainName (f.image n)) : Declares (rename f s) (f.image n) := by
  obtain ⟨hn, start, word, rest, rfl, hstart, hrest, hword⟩ := h
  have hend : ∀ last, EndsName (renameFrom f last (lexemes rest)) := fun last =>
    endsName_renameFrom hf last hrest
  refine ⟨himage, start, word, renameFrom f n.getLast? (lexemes rest), ?_, hstart, hend _, hword⟩
  rw [ContractChecks.rename, renameFrom_layout f none hstart]
  congr 1
  rcases hword with rfl | ⟨gap, rfl, hgap⟩
  · exact renameFrom_name f (by simp) hn.name hrest
  · have hspace : ∀ c ∈ ' ' :: gap, isLayout c = true := by
      intro c hc
      rcases List.mem_cons.1 hc with rfl | hc
      · decide
      · exact hgap c hc
    have hvar : f.image varWord = varWord := Renaming.image_of_none hf.var
    have hendvar : EndsName (' ' :: gap ++ (n ++ rest)) := by
      intro c hc
      cases hc
      decide
    rw [List.append_assoc, renameFrom_name f (by simp) (by decide) hendvar, hvar,
      renameFrom_layout f _ hspace, renameFrom_name f (by decide) hn.name hrest, List.append_assoc]

/-! ### names made up by a composition -/

theorem isDigit_spec {c : Char} (h : c.isDigit = true) :
    isNamePart c = true ∧ isBlank c = false := by
  have hrange : 48 ≤ c.toNat ∧ c.toNat ≤ 57 := by
    rw [Char.isDigit, Bool.and_eq_true, decide_eq_true_eq, decide_eq_true_eq] at h
    exact h
  constructor
  · rw [isNamePart, Bool.or_eq_true]
    exact .inr h
  · cases hblank : isBlank c with
    | false => rfl
    | true =>
      have hspace : c ≠ ' ' := by
        rintro rfl
        revert hrange
        decide
      simp only [isBlank, hspace, decide_false, Bool.false_or, Bool.or_eq_true, Bool.and_eq_true,
        decide_eq_true_eq] at hblank
      omega

theorem PlainName.append {n u : Text} (hn : PlainName n) (hvar : n ++ u ≠ varWord)
    (hu : ∀ c ∈ u, c = '_' ∨ c.isDigit = true) : PlainName (n ++ u) := by
  have hchar : ∀ c ∈ u, isNamePart c = true ∧ isBlank c = false := by
    intro c hc
    rcases hu c hc with rfl | hd
    · decide
    · exact isDigit_spec hd
  constructor
  case name => exact isName_append hn.name fun c hc => (hchar c hc).1
  case solid =>
    intro c hc
    rcases List.mem_append.1 hc with hc | hc
    · exact hn.solid c hc
    · exact (hchar c hc).2
  case ne_var => exact hvar

theorem isDigit_of_mem_ofNat {n : Nat} {c : Char} (h : c ∈ Text.ofNat n) : c.isDigit = true :=
  Nat.isDigit_of_mem_toDigits (by decide) (by decide) h

theorem PlainName.append_ofNat {n : Text} (hn : PlainName n) (k : Nat) :
    PlainName (n ++ ("_" : Text) ++ Text.ofNat k) := by
  rw [List.append_assoc]
  refine hn.append ?_ ?_
  · intro hvar
    have hmem : '_' ∈ varWord := by
      rw [← hvar]
      exact List.mem_append_right _ (List.mem_append_left _ List.mem_cons_self)
    revert hmem
    decide
  · intro c hc
    rcases List.mem_append.1 hc with hc | hc
    · exact .inl (List.mem_singleton.1 hc)
    · exact .inr (isDigit_of_mem_ofNat hc)

theorem PlainName.tempCandidate {a : Text} (ha : PlainName a) (level n : Nat) :
    PlainName (tempCandidate a level n) := by
  have hone := ha.append_ofNat level
  unfold ContractChecks.tempCandidate
  split
  · exact hone
  · exact hone.append_ofNat n

theorem plainName_caseName (i : Nat) : PlainName (Merge.caseName i) := by
  have hstem : PlainName ("racOldCase" : Text) := plainName_of_decide (by decide)
  refine hstem.append ?_ fun c hc => .inr (isDigit_of_mem_ofNat hc)
  intro hvar
  cases (List.cons.inj hvar).1

theorem declares_append {n rest : Text} (hn : PlainName n) (hr : EndsName rest) :
    Declares (n ++ rest) n :=
  ⟨hn, [], [], rest, rfl, by simp, hr, .inl rfl⟩

theorem name_caseFlag (i : Nat) (pre : Text) : (caseFlag i pre).name = Merge.caseName i := by
  let rest : Text := " bool/" ++ (Merge.caseName i ++ (" = " ++ pre))
  have htext : (caseFlag i pre).text = Merge.caseName i ++ rest := by
    show Merge.caseName i ++ (" bool/" : Text) ++ Merge.caseName i ++ (" = " : Text) ++ pre = _
    simp only [List.append_assoc, rest]
  have hrest : EndsName rest := by
    intro c hc
    cases hc
    decide
  have hname := (declares_append (plainName_caseName i) hrest).oldVarName
  rw [← htext] at hname
  exact hname

/-! ### the temporaries of a renamed contract -/

namespace Contract

def oldVarTexts (c : Contract) : List Text :=
  c.oldVars.entries.flatMap fun e => e.2.map OldVar.text

/-- the declarations of the old expressions and of the pre-expressions -/
def declTexts (c : Contract) : List Text :=
  (c.oldExprDecls.entries.flatMap fun e => e.2) ++ c.preExprDecls

theorem temporaries_eq (c : Contract) :
    c.temporaries
      = c.oldVarTexts.map (fun s => OldVar.name ⟨s⟩) ++ c.declTexts.map declaredName := by
  unfold temporaries oldVarTexts declTexts
  rw [List.map_flatMap, List.map_append, List.map_flatMap, List.append_assoc]
  simp only [List.map_map]
  rfl

theorem oldVarTexts_renamed (c : Contract) (f : Renaming) :
    (c.renamed f).oldVarTexts = c.oldVarTexts.map (rename f) := by
  unfold oldVarTexts renamed CaseTable.mapValues
  rw [List.map_flatMap, List.flatMap_map]
  simp only [List.map_map]
  rfl

theorem declTexts_renamed (c : Contract) (f : Renaming) :
    (c.renamed f).declTexts = c.declTexts.map (rename f) := by
  unfold declTexts renamed CaseTable.mapValues
  rw [List.map_append, List.map_flatMap, List.flatMap_map]

/-- parameters, receiver and temporaries have plain names -/
structure PlainNames (c : Contract) : Prop where
  signature : ∀ a ∈ c.method.receiver :: c.method.paramNames, a = [] ∨ PlainName a
  oldVars : ∀ s ∈ c.oldVarTexts, ∃ n, Declares s n
  decls : ∀ s ∈ c.declTexts, ∃ n, Declares s n

namespace PlainNames

variable {c : Contract}

theorem plainName_of_mem (hc : c.PlainNames) {t : Text} (ht : t ∈ c.temporaries) :
    PlainName t := by
  rw [temporaries_eq] at ht
  rcases List.mem_append.1 ht with ht | ht
  · obtain ⟨s, hs, rfl⟩ := List.mem_map.1 ht
    obtain ⟨n, hn⟩ := hc.oldVars s hs
    rw [hn.oldVarName]
    exact hn.1
  · obtain ⟨s, hs, rfl⟩ := List.mem_map.1 ht
    obtain ⟨n, hn⟩ := hc.decls s hs
    rw [hn.declaredName]
    exact hn.1

/-- a renaming of the texts is a renaming of the temporaries -/
theorem temporaries_renamed (hc : c.PlainNames) {f : Renaming} (hf : f.KeepsWords)
    (himage : ∀ t ∈ c.temporaries, PlainName (f.image t)) :
    (c.renamed f).temporaries = c.temporaries.map f.image := by
  simp only [temporaries_eq, List.mem_append, List.mem_map] at himage
  rw [temporaries_eq, temporaries_eq, oldVarTexts_renamed, declTexts_renamed, List.map_append,
    List.map_map, List.map_map, List.map_map, List.map_map]
  congr 1
  · refine List.map_congr_left fun s hs => ?_
    obtain ⟨n, hn⟩ := hc.oldVars s hs
    have hplain := himage _ (.inl ⟨s, hs, rfl⟩)
    show OldVar.name ⟨rename f s⟩ = f.image (OldVar.name ⟨s⟩)
    rw [hn.oldVarName] at hplain ⊢
    exact (hn.rename hf hplain).oldVarName
  · refine List.map_congr_left fun s hs => ?_
    obtain ⟨n, hn⟩ := hc.decls s hs
    have hplain := himage _ (.inr ⟨s, hs, rfl⟩)
    show declaredName (rename f s) = f.image (declaredName s)
    rw [hn.declaredName] at hplain ⊢
    exact (hn.rename hf hplain).declaredName

end PlainNames

end Contract

end ContractChecks
