import ContractChecks.Proofs.RenamedText
import ContractChecks.Proofs.RenamingCapture
import ContractChecks.Proofs.QuantifierFree

/-!
# Names in a text, and in a renamed text

The names of a text are read off its lexemes.  A renaming that takes names to names changes lexemes
one for one: a name becomes its image, and everything else stays.

* `namesFrom last ls`: the names among lexemes, selectors left out; `namesIn_eq`;
* `namesIn_append_separator`, `namesIn_append_subset`: the names of a text put together from parts;
* `Renaming.Named f`: the renaming takes names to names;
* `lexemes_rename`: the lexemes of a renamed text;
* `namesIn_rename`: its names are the images of the names.
-/

namespace ContractChecks

/-! ### names among lexemes -/

def Lexeme.freeName? (last : Option Char) : Lexeme → Option Text
  | .keyword raw => some raw
  | .name raw => if last == some '.' then none else some raw
  | _ => none

def namesFrom (last : Option Char) : List Lexeme → List Text
  | [] => []
  | l :: ls => (l.freeName? last).toList ++ namesFrom (l.lastMark last) ls

theorem namesFrom_cons (last : Option Char) (l : Lexeme) (ls : List Lexeme) :
    namesFrom last (l :: ls) = (l.freeName? last).toList ++ namesFrom (l.lastMark last) ls := rfl

theorem names_occurrencesFrom (pos : Nat) (last : Option Char) (ls : List Lexeme) :
    ((occurrencesFrom pos last ls).filter fun o => !o.selector).map Occurrence.text
      = namesFrom last ls := by
  induction ls generalizing pos last with
  | nil => rfl
  | cons l ls ih =>
    rw [namesFrom_cons, ← ih (pos + l.text.bytes)]
    cases l with
    | keyword raw => rfl
    | name raw =>
      rw [occurrencesFrom, List.filter_cons, Lexeme.freeName?]
      cases last == some '.' <;> rfl
    | literal raw => rfl
    | number raw => rfl
    | other c => rfl

theorem namesIn_eq (s : Text) : namesIn s = namesFrom none (lexemes s) :=
  names_occurrencesFrom 0 none (lexemes s)

theorem namesIn_nil : namesIn [] = [] := by
  rw [namesIn_eq, lexemes]
  rfl

theorem namesFrom_append (last : Option Char) (ls ls' : List Lexeme) :
    namesFrom last (ls ++ ls') = namesFrom last ls ++ namesFrom (lastMarkAfter last ls) ls' := by
  induction ls generalizing last with
  | nil => rfl
  | cons l ls ih =>
    rw [List.cons_append, namesFrom_cons, namesFrom_cons, ih, List.append_assoc]
    rfl

/-- what stands before the lexemes matters only if it is a point -/
theorem namesFrom_congr {last last' : Option Char} (h : last = some '.' ↔ last' = some '.')
    (ls : List Lexeme) : namesFrom last ls = namesFrom last' ls := by
  have hbeq : (last == some '.') = (last' == some '.') := by
    rw [Bool.eq_iff_iff, beq_iff_eq, beq_iff_eq]
    exact h
  induction ls with
  | nil => rfl
  | cons l ls ih =>
    rw [namesFrom_cons, namesFrom_cons]
    cases l with
    | other c =>
      rw [Lexeme.lastMark, Lexeme.lastMark]
      by_cases hc : isLayout c = true
      · rw [if_pos hc, if_pos hc, ih]
        rfl
      · rw [if_neg hc, if_neg hc]
        rfl
    | name raw =>
      unfold Lexeme.freeName?
      rw [hbeq]
      rfl
    | keyword raw => rfl
    | literal raw => rfl
    | number raw => rfl

theorem namesFrom_of_ne_point {last : Option Char} (h : last ≠ some '.') (ls : List Lexeme) :
    namesFrom last ls = namesFrom none ls :=
  namesFrom_congr (iff_of_false h (by decide)) ls

/-- a point before the lexemes can only make a selector of the first name -/
theorem namesFrom_subset (last : Option Char) (ls : List Lexeme) :
    namesFrom last ls ⊆ namesFrom none ls := by
  induction ls generalizing last with
  | nil => exact List.Subset.refl _
  | cons l ls ih =>
    rw [namesFrom_cons, namesFrom_cons]
    cases l with
    | other c =>
      rw [Lexeme.lastMark, Lexeme.lastMark]
      by_cases hc : isLayout c = true
      · rw [if_pos hc, if_pos hc]
        exact ih last
      · rw [if_neg hc, if_neg hc]
        exact List.Subset.refl _
    | name raw =>
      rw [Lexeme.freeName?]
      by_cases hpoint : (last == some '.') = true
      · rw [if_pos hpoint]
        exact List.subset_append_right _ _
      · rw [if_neg hpoint]
        exact List.Subset.refl _
    | keyword raw => exact List.Subset.refl _
    | literal raw => exact List.Subset.refl _
    | number raw => exact List.Subset.refl _

/-! ### texts put together -/

theorem lastMark_other {m : Char} (hm : isMark m = true) (hlayout : isLayout m = false)
    (last : Option Char) :
    (Lexeme.other m).lastMark last = some m ∧ (Lexeme.other m).lastMark last ≠ some '.' := by
  have hmark : (Lexeme.other m).lastMark last = some m := by
    rw [Lexeme.lastMark, hlayout]
    rfl
  refine ⟨hmark, ?_⟩
  rw [hmark]
  intro hpoint
  cases hpoint
  cases hm

theorem namesIn_append_mark {a : Text} (ha : LiteralsClosed a) {m : Char} (hm : isMark m = true)
    (hlayout : isLayout m = false) (b : Text) : namesIn (a ++ m :: b) = namesIn a ++ namesIn b := by
  rw [namesIn_eq, namesIn_eq, namesIn_eq, lexemes_append ha (startsFresh_cons hm b),
    lexemes_cons_mark hm, namesFrom_append, namesFrom_cons,
    namesFrom_of_ne_point (lastMark_other hm hlayout _).2]
  rfl

theorem namesIn_cons_mark {m : Char} (hm : isMark m = true) (s : Text) :
    namesIn (m :: s) = namesIn s := by
  rw [namesIn_eq, namesIn_eq, lexemes_cons_mark hm, namesFrom_cons]
  refine (namesFrom_of_ne_point ?_ _).trans rfl
  cases hlayout : isLayout m with
  | false => exact (lastMark_other hm hlayout _).2
  | true =>
    rw [Lexeme.lastMark, if_pos hlayout]
    decide

theorem namesIn_append_separator {a m : Text} (ha : LiteralsClosed a) (hm : isSeparator m = true)
    (b : Text) : namesIn (a ++ (m ++ b)) = namesIn a ++ namesIn b := by
  obtain ⟨hne, hmarks⟩ := isSeparator_spec hm
  cases m with
  | nil => exact absurd rfl hne
  | cons c m =>
    obtain ⟨hc, hlayout⟩ := hmarks c List.mem_cons_self
    have hrest : ∀ m : Text, (∀ c ∈ m, isMark c = true) → namesIn (m ++ b) = namesIn b := by
      intro m
      induction m with
      | nil => exact fun _ => rfl
      | cons d m ih =>
        intro h
        rw [List.cons_append, namesIn_cons_mark (h d List.mem_cons_self)]
        exact ih fun e he => h e (List.mem_cons_of_mem d he)
    rw [List.cons_append, namesIn_append_mark ha hc hlayout,
      hrest m fun d hd => (hmarks d (List.mem_cons_of_mem c hd)).1]

theorem namesIn_append_subset {a b : Text} (h : lexemes (a ++ b) = lexemes a ++ lexemes b) :
    namesIn (a ++ b) ⊆ namesIn a ++ namesIn b := by
  rw [namesIn_eq, namesIn_eq, namesIn_eq, h, namesFrom_append]
  exact List.append_subset.2 ⟨List.subset_append_left _ _,
    fun w hw => List.mem_append_right _ (namesFrom_subset _ _ hw)⟩

theorem namesIn_name {w b : Text} (hw : isName w = true) (hb : EndsName b) :
    namesIn (w ++ b) = w :: namesIn b := by
  have hlast : (Lexeme.name w).lastMark none ≠ some '.' := by
    intro hpoint
    have hmem : '.' ∈ w := List.mem_of_getLast? hpoint
    have hpart := isNamePart_of_isName hw _ hmem
    revert hpart
    decide
  rw [namesIn_eq, namesIn_eq, lexemes_name hw hb, namesFrom_cons, namesFrom_of_ne_point hlast]
  rfl

/-! ### lexemes of a renamed text -/

def Renaming.Named (f : Renaming) : Prop :=
  ∀ a x, f.get? a = some x → isName a = true ∧ isName x = true

theorem Renaming.Named.keyword {f : Renaming} (hf : f.Named) (raw : Text) :
    f.get? ('\\' :: raw) = none := by
  cases hget : f.get? ('\\' :: raw) with
  | none => rfl
  | some x => exact absurd (hf _ x hget).1 (not_isName_keyword raw)

theorem Renaming.Named.image {f : Renaming} (hf : f.Named) {a : Text} (ha : isName a = true) :
    isName (f.image a) = true := by
  cases hget : f.get? a with
  | none =>
    rw [Renaming.image_of_none hget]
    exact ha
  | some x =>
    rw [Renaming.image_of_some hget]
    exact (hf a x hget).2

def Lexeme.mapName (f : Renaming) (last : Option Char) : Lexeme → Lexeme
  | .name raw => if last == some '.' then .name raw else .name (f.image raw)
  | l => l

def renamedLexemes (f : Renaming) (last : Option Char) : List Lexeme → List Lexeme
  | [] => []
  | l :: ls => l.mapName f last :: renamedLexemes f (l.lastMark last) ls

theorem literalTail_idem (q : Char) (s : Text) :
    literalTail q (literalTail q s).1 = ((literalTail q s).1, []) := by
  fun_induction literalTail q s with
  | case1 => rfl
  | case2 c => rfl
  | case3 c d r hesc p ih =>
    show literalTail q (c :: d :: p.1) = (c :: d :: p.1, [])
    rw [literalTail, if_pos hesc, ih]
  | case4 d r hesc => rfl
  | case5 c d r hesc hc p ih =>
    show literalTail q (c :: p.1) = (c :: p.1, [])
    cases hp : p.1 with
    | nil => rfl
    | cons x y =>
      have hagain : literalTail q (x :: y) = (x :: y, []) := by
        rw [← hp]
        exact ih
      rw [literalTail, if_neg hesc, if_neg hc, hagain]

/-- a literal ends where it did, if it is closed or nothing follows it -/
theorem literalTail_append_tail {q : Char} {s t : Text} (h : (literalTail q s).2 = [] → t = []) :
    literalTail q ((literalTail q s).1 ++ t) = ((literalTail q s).1, t) := by
  have hself := literalTail_idem q s
  by_cases hnil : (literalTail q s).2 = []
  · rw [h hnil, List.append_nil]
    exact hself
  · have hclosed := after_literalTail hnil
    rw [(literalTail_of_closed hclosed t).1, hself]
    rfl

theorem lexemes_keyword {w rest : Text} (hw : isName w = true) (hrest : EndsName rest) :
    lexemes ('\\' :: (w ++ rest)) = .keyword ('\\' :: w) :: lexemes rest := by
  have hparts := isNamePart_of_isName hw
  obtain ⟨htake, hdrop⟩ := takeWhile_name hparts hrest
  cases w with
  | nil => cases hw
  | cons d w =>
    have hd : isNameStart d = true := (isName_cons.1 hw).1
    have hfirst : firstLexeme '\\' (d :: w ++ rest) = (.keyword ('\\' :: d :: w), rest) := by
      rw [firstLexeme, htake, hdrop, List.cons_append, List.head?_cons, Option.any_some, hd]
      rfl
    rw [lexemes, hfirst]

theorem lexemes_number {d : Char} {r b : Text} (hd : ('0' ≤ d && d ≤ '9') = true)
    (hr : ∀ c ∈ r, isNumberPart c = true) (hb : StartsFresh b) :
    lexemes (d :: (r ++ b)) = .number (d :: r) :: lexemes b := by
  have hpart : isNumberPart d = true := by
    rw [isNumberPart, isNamePart, hd, Bool.or_true, Bool.true_or]
  have hquote := not_isQuoteMark_of_isNumberPart hpart
  have hstart := not_isNameStart_of_digit hd
  have hslash : d ≠ '\\' := by
    rintro rfl
    revert hd
    decide
  obtain ⟨htake, hdrop⟩ := takeWhile_of_all hr hb
  have hfirst : firstLexeme d (r ++ b) = (.number (d :: r), b) := by
    rw [firstLexeme, hquote, if_neg (by decide), if_neg (by simp [hslash]), hstart,
      if_neg (by decide), if_pos hd, htake, hdrop]
  rw [lexemes, hfirst]

theorem startsFresh_dropWhile (s : Text) : StartsFresh (s.dropWhile isNumberPart) := by
  intro c hc
  have hnot := List.head?_dropWhile_not isNumberPart s
  rw [hc] at hnot
  simpa using hnot

theorem isName_takeWhile {d : Char} (hd : isNameStart d = true) (r : Text) :
    isName (d :: r.takeWhile isNamePart) = true := by
  rw [isName, hd, List.all_takeWhile]
  rfl

/-- the text `t` begins like `s`, unless `s` begins with a name -/
def SameStart (s t : Text) : Prop :=
  (∀ d ∈ s.head?, isNameStart d = false) → t.head? = s.head?

theorem SameStart.endsName {s t : Text} (h : SameStart s t) (hs : EndsName s) : EndsName t := by
  unfold EndsName
  rw [h]
  · exact hs
  · intro d hd
    have hpart := hs d hd
    rw [isNamePart, Bool.or_eq_false_iff] at hpart
    exact hpart.1

theorem SameStart.startsFresh {s t : Text} (h : SameStart s t) (hs : StartsFresh s) :
    StartsFresh t := by
  unfold StartsFresh
  rw [h]
  · exact hs
  · intro d hd
    have hpart := not_isNamePart_of_not_isNumberPart (hs d hd)
    rw [isNamePart, Bool.or_eq_false_iff] at hpart
    exact hpart.1

/-- a character that begins no lexeme begins none in front of a text that begins alike -/
theorem SameStart.lexemes_other {c : Char} {r t : Text} (h : SameStart r t)
    (hquote : ¬isQuoteMark c = true) (hkey : ¬(c = '\\' && r.head?.any isNameStart) = true)
    (hstart : ¬isNameStart c = true) (hdigit : ¬('0' ≤ c && c ≤ '9') = true) :
    lexemes (c :: t) = .other c :: lexemes t := by
  have hkey' : ¬(c = '\\' && t.head?.any isNameStart) = true := by
    intro hslash
    rw [Bool.and_eq_true, decide_eq_true_eq] at hslash hkey
    have hr : ∀ d ∈ r.head?, isNameStart d = false := by
      intro d hd
      rw [Option.mem_def.1 hd] at hkey
      cases hds : isNameStart d with
      | false => rfl
      | true => exact absurd ⟨hslash.1, hds⟩ hkey
    rw [h hr] at hslash
    exact hkey hslash
  rw [lexemes, firstLexeme, if_neg hquote, if_neg hkey', if_neg hstart, if_neg hdigit]

/-- a renamed lexeme is one lexeme in front of the renamed rest of the text -/
theorem lexemes_renamed_append {f : Renaming} (hf : f.Named) (last : Option Char) (c : Char)
    (r : Text) {t : Text}
    (ht : t = renameFrom f ((firstLexeme c r).1.lastMark last) (lexemes (firstLexeme c r).2)) :
    lexemes ((firstLexeme c r).1.renamed f last ++ t)
      = (firstLexeme c r).1.mapName f last :: lexemes t := by
  have hsame : SameStart (firstLexeme c r).2 t := by
    intro hstart
    rw [ht]
    exact head?_renameFrom hf.keyword _ hstart
  have hnil : (firstLexeme c r).2 = [] → t = [] := by
    intro hnil
    rw [ht, hnil, lexemes]
    rfl
  clear ht
  unfold firstLexeme at *
  by_cases hquote : isQuoteMark c = true
  · rw [if_pos hquote] at *
    show lexemes (c :: ((literalTail c r).1 ++ t)) = .literal (c :: (literalTail c r).1) :: _
    rw [lexemes, firstLexeme, if_pos hquote, literalTail_append_tail hnil]
  simp only [if_neg hquote] at *
  by_cases hkey : (c = '\\' && r.head?.any isNameStart) = true
  · rw [if_pos hkey] at *
    obtain ⟨rfl, d, r, hr, hd⟩ : c = '\\' ∧ ∃ d u, r = d :: u ∧ isNameStart d = true := by
      rw [Bool.and_eq_true, decide_eq_true_eq] at hkey
      cases r with
      | nil => exact absurd hkey.2 (by decide)
      | cons d u => exact ⟨hkey.1, d, u, rfl, hkey.2⟩
    have hname : isName ((d :: r).takeWhile isNamePart) = true := by
      rw [List.takeWhile_cons, isNamePart, hd]
      exact isName_takeWhile hd r
    subst hr
    rw [Lexeme.renamed, Renaming.image_of_none (hf.keyword _)]
    exact lexemes_keyword hname (hsame.endsName (endsName_dropWhile _))
  simp only [if_neg hkey] at *
  by_cases hstart : isNameStart c = true
  · rw [if_pos hstart] at *
    have hname := isName_takeWhile hstart r
    have hends : EndsName t := hsame.endsName (endsName_dropWhile r)
    rw [Lexeme.renamed, Lexeme.mapName]
    split
    · exact lexemes_name hname hends
    · exact lexemes_name (hf.image hname) hends
  simp only [if_neg hstart] at *
  by_cases hdigit : ('0' ≤ c && c ≤ '9') = true
  · rw [if_pos hdigit] at *
    have hfresh : StartsFresh t := hsame.startsFresh (startsFresh_dropWhile r)
    exact lexemes_number hdigit (List.all_eq_true.1 List.all_takeWhile) hfresh
  · simp only [if_neg hdigit] at *
    exact hsame.lexemes_other hquote hkey hstart hdigit

theorem lexemes_renameFrom {f : Renaming} (hf : f.Named) (last : Option Char) (s : Text) :
    lexemes (renameFrom f last (lexemes s)) = renamedLexemes f last (lexemes s) := by
  fun_induction lexemes s generalizing last with
  | case1 =>
    rw [renameFrom, lexemes]
    rfl
  | case2 c r ih =>
    rw [renameFrom_cons, lexemes_renamed_append hf last c r rfl, ih, renamedLexemes]

theorem lexemes_rename {f : Renaming} (hf : f.Named) (s : Text) :
    lexemes (rename f s) = renamedLexemes f none (lexemes s) :=
  lexemes_renameFrom hf none s

/-! ### names of a renamed text -/

theorem keyword_of_mem_lexemes {s raw : Text} (h : .keyword raw ∈ lexemes s) :
    ∃ w, raw = '\\' :: w := by
  fun_induction lexemes s with
  | case1 => cases h
  | case2 c r ih =>
    rcases List.mem_cons.1 h with h | h
    · unfold firstLexeme at h
      split at h
      · cases h
      split at h
      · rename_i hkey
        rw [Bool.and_eq_true, decide_eq_true_eq] at hkey
        cases h
        exact ⟨_, congrArg (· :: r.takeWhile isNamePart) hkey.1⟩
      split at h
      · cases h
      split at h <;> cases h
    · exact ih h

/-- a renaming never makes or takes away a point at the end of a name -/
theorem lastMark_mapName {f : Renaming} (hf : f.Named) {last last' : Option Char}
    (hlast : last = some '.' ↔ last' = some '.') (l : Lexeme) :
    l.lastMark last = some '.' ↔ (l.mapName f last).lastMark last' = some '.' := by
  cases l with
  | name raw =>
    have hname : ∀ {w : Text}, isName w = true → (Lexeme.name w).lastMark last' ≠ some '.' := by
      intro w hw hpoint
      have hpart := isNamePart_of_isName hw _ (List.mem_of_getLast? hpoint)
      revert hpart
      decide
    rw [Lexeme.mapName]
    split
    · exact Iff.rfl
    · cases hget : f.get? raw with
      | none =>
        rw [Renaming.image_of_none hget]
        exact Iff.rfl
      | some x =>
        obtain ⟨hraw, hx⟩ := hf raw x hget
        rw [Renaming.image_of_some hget]
        exact iff_of_false (hname hraw) (hname hx)
  | other c =>
    show (Lexeme.other c).lastMark last = some '.' ↔ (Lexeme.other c).lastMark last' = some '.'
    rw [Lexeme.lastMark, Lexeme.lastMark]
    split
    · exact hlast
    · exact Iff.rfl
  | keyword raw => exact Iff.rfl
  | literal raw => exact Iff.rfl
  | number raw => exact Iff.rfl

theorem namesFrom_renamedLexemes {f : Renaming} (hf : f.Named) {ls : List Lexeme}
    (hkey : ∀ raw, .keyword raw ∈ ls → f.get? raw = none) {last last' : Option Char}
    (hlast : last = some '.' ↔ last' = some '.') :
    namesFrom last' (renamedLexemes f last ls) = (namesFrom last ls).map f.image := by
  induction ls generalizing last last' with
  | nil => rfl
  | cons l ls ih =>
    have hrest := ih (fun raw hraw => hkey raw (List.mem_cons_of_mem l hraw))
      (lastMark_mapName hf hlast l)
    rw [renamedLexemes, namesFrom_cons, namesFrom_cons, List.map_append, hrest]
    congr 1
    cases l with
    | name raw =>
      have hbeq : (last == some '.') = (last' == some '.') := by
        rw [Bool.eq_iff_iff, beq_iff_eq, beq_iff_eq]
        exact hlast
      rw [Lexeme.mapName, Lexeme.freeName?]
      by_cases hpoint : (last == some '.') = true
      · rw [if_pos hpoint, if_pos hpoint, Lexeme.freeName?, if_pos (hbeq ▸ hpoint)]
        rfl
      · rw [if_neg hpoint, if_neg hpoint, Lexeme.freeName?, if_neg (hbeq ▸ hpoint)]
        rfl
    | keyword raw =>
      show [raw] = [f.image raw]
      rw [Renaming.image_of_none (hkey raw List.mem_cons_self)]
    | literal raw => rfl
    | number raw => rfl
    | other c => rfl

theorem namesIn_rename {f : Renaming} (hf : f.Named) (s : Text) :
    namesIn (rename f s) = (namesIn s).map f.image := by
  rw [namesIn_eq, namesIn_eq, lexemes_rename hf]
  refine namesFrom_renamedLexemes hf ?_ Iff.rfl
  intro raw hraw
  obtain ⟨w, rfl⟩ := keyword_of_mem_lexemes hraw
  exact hf.keyword w

end ContractChecks
