import ContractChecks.Proofs.NameOccurrences

/-!
# A name put behind a text

When a name is written directly after a text, it may run together with the last lexeme of the text,
and a point before it makes a selector of it.

* `identifiers s`: the names and keywords of `s`, each with whether it is a selector;
* `Lexeme.grow n l`: what becomes of the lexeme `l` when the name `n` follows it directly;
* `lexemes_append_name`: the lexemes of a text with a name behind it (`spliceName`);
* `StandsApart s`: a name behind `s` neither runs together with its last lexeme nor is a selector;
* `identifiersFrom_spliceName`: exactly then the name is one more identifier.
-/

namespace ContractChecks

/-! ### identifiers -/

/-- the names and keywords of a text in order, each with whether it is a selector -/
def identifiers (s : Text) : List (Text × Bool) :=
  (occurrences s).map fun o => (o.text, o.selector)

def Lexeme.identifier? (last : Option Char) : Lexeme → Option (Text × Bool)
  | .keyword raw => some (raw, false)
  | .name raw => some (raw, last == some '.')
  | _ => none

/-- the identifiers among lexemes, where `last` is the last character other than layout before
them -/
def identifiersFrom (last : Option Char) : List Lexeme → List (Text × Bool)
  | [] => []
  | l :: ls => (l.identifier? last).toList ++ identifiersFrom (l.lastMark last) ls

theorem identifiersFrom_cons (last : Option Char) (l : Lexeme) (ls : List Lexeme) :
    identifiersFrom last (l :: ls)
      = (l.identifier? last).toList ++ identifiersFrom (l.lastMark last) ls := rfl

theorem map_occurrencesFrom (pos : Nat) (last : Option Char) (ls : List Lexeme) :
    (occurrencesFrom pos last ls).map (fun o => (o.text, o.selector))
      = identifiersFrom last ls := by
  induction ls generalizing pos last with
  | nil => rfl
  | cons l ls ih =>
    rw [identifiersFrom_cons, ← ih (pos + l.text.bytes)]
    cases l <;> rfl

theorem identifiers_eq (s : Text) : identifiers s = identifiersFrom none (lexemes s) :=
  map_occurrencesFrom 0 none (lexemes s)

theorem identifiersFrom_append (last : Option Char) (ls ls' : List Lexeme) :
    identifiersFrom last (ls ++ ls')
      = identifiersFrom last ls ++ identifiersFrom (lastMarkAfter last ls) ls' := by
  induction ls generalizing last with
  | nil => rfl
  | cons l ls ih =>
    rw [List.cons_append, identifiersFrom_cons, identifiersFrom_cons, ih, List.append_assoc]
    rfl

/-- what stands before the lexemes matters only if it is a point -/
theorem identifiersFrom_of_ne_point {last : Option Char} (h : last ≠ some '.')
    (ls : List Lexeme) : identifiersFrom last ls = identifiersFrom none ls := by
  have hlast : (last == some '.') = false := beq_eq_false_iff_ne.2 h
  induction ls with
  | nil => rfl
  | cons l ls ih =>
    rw [identifiersFrom_cons, identifiersFrom_cons]
    cases l with
    | other c =>
      rw [Lexeme.lastMark, Lexeme.lastMark]
      by_cases hc : isLayout c = true
      · rw [if_pos hc, if_pos hc, ih]
        rfl
      · rw [if_neg hc, if_neg hc]
        rfl
    | name raw =>
      rw [Lexeme.identifier?, hlast]
      rfl
    | keyword raw => rfl
    | literal raw => rfl
    | number raw => rfl

theorem identifiersFrom_mark {m : Char} (hm : isMark m = true) (hlayout : isLayout m = false)
    (last : Option Char) (s : Text) :
    identifiersFrom last (lexemes (m :: s)) = identifiers s := by
  rw [lexemes_cons_mark hm, identifiersFrom_cons,
    identifiersFrom_of_ne_point (lastMark_other hm hlayout last).2, identifiers_eq]
  rfl

theorem identifiers_cons_mark {m : Char} (hm : isMark m = true) (hlayout : isLayout m = false)
    (s : Text) : identifiers (m :: s) = identifiers s := by
  rw [identifiers_eq, identifiersFrom_mark hm hlayout]

theorem identifiers_append_mark {a : Text} (ha : LiteralsClosed a) {m : Char}
    (hm : isMark m = true) (hlayout : isLayout m = false) (b : Text) :
    identifiers (a ++ m :: b) = identifiers a ++ identifiers b := by
  rw [identifiers_eq, lexemes_append ha (startsFresh_cons hm b), identifiersFrom_append,
    identifiersFrom_mark hm hlayout, ← identifiers_eq]

/-! ### lexemes that grow -/

/-- the lexeme that a name runs together with, if the name follows it directly -/
def Lexeme.grow (n : Text) : Lexeme → Option Lexeme
  | .name raw => some (.name (raw ++ n))
  | .keyword raw => some (.keyword (raw ++ n))
  | .number raw => some (.number (raw ++ n))
  | .other c => if c = '\\' then some (.keyword (c :: n)) else none
  | .literal _ => none

/-- lexemes with a name written directly after them -/
def spliceName (n : Text) : List Lexeme → List Lexeme
  | [] => [.name n]
  | [l] =>
    match l.grow n with
    | some m => [m]
    | none => [l, .name n]
  | l :: m :: ls => l :: spliceName n (m :: ls)

theorem OpenWord.lexemes_append_name {w n t : Text} (hw : OpenWord w) (hne : w ≠ [])
    (hn : isName n = true) (ht : StartsFresh t) :
    ∃ l m, lexemes w = [l] ∧ l.grow n = some m ∧ lexemes (w ++ (n ++ t)) = m :: lexemes t := by
  have hparts := isNamePart_of_isName hn
  have hends : EndsName t := fun c hc => not_isNamePart_of_not_isNumberPart (ht c hc)
  have hnil : EndsName [] := by simp [EndsName]
  have hstop : lexemes [] = [] := by rw [lexemes]
  cases hw with
  | nil => exact absurd rfl hne
  | @keyword r hhead hr =>
    cases r with
    | nil =>
      refine ⟨.other '\\', .keyword ('\\' :: n), ?_, rfl, lexemes_keyword hn hends⟩
      rw [lexemes, ← hstop]
      rfl
    | cons d r =>
      have hd : isName (d :: r) = true :=
        isName_cons.2 ⟨hhead d rfl, fun c hc => hr c (List.mem_cons_of_mem d hc)⟩
      have hself := lexemes_keyword hd hnil
      rw [List.append_nil, hstop] at hself
      refine ⟨_, _, hself, rfl, ?_⟩
      rw [List.cons_append, ← List.append_assoc]
      exact lexemes_keyword (isName_append hd hparts) hends
  | @name c r hc hr =>
    have hd : isName (c :: r) = true := isName_cons.2 ⟨hc, hr⟩
    have hself := lexemes_name hd hnil
    rw [List.append_nil, hstop] at hself
    refine ⟨_, _, hself, rfl, ?_⟩
    rw [← List.append_assoc]
    exact lexemes_name (isName_append hd hparts) hends
  | @number c r hc hr =>
    have hself := lexemes_number hc hr (b := []) (by simp [StartsFresh])
    rw [List.append_nil, hstop] at hself
    refine ⟨_, _, hself, rfl, ?_⟩
    rw [List.cons_append, ← List.append_assoc]
    refine lexemes_number hc ?_ ht
    intro d hd
    rcases List.mem_append.1 hd with hd | hd
    · exact hr d hd
    · exact isNumberPart_of_isNamePart (hparts d hd)

/-- a lexeme that a name can run together with is an open word -/
theorem openWord_of_grow {c : Char} {r n : Text} (h : ((firstLexeme c r).1.grow n).isSome = true) :
    OpenWord (firstLexeme c r).1.text := by
  have htake : ∀ {p : Char → Bool}, ∀ d ∈ r.takeWhile p, p d = true := fun {p} =>
    List.all_eq_true.1 List.all_takeWhile
  unfold firstLexeme at *
  by_cases hquote : isQuoteMark c = true
  · rw [if_pos hquote] at h
    cases h
  simp only [if_neg hquote] at *
  by_cases hkey : (c = '\\' && r.head?.any isNameStart) = true
  · rw [if_pos hkey]
    rw [Bool.and_eq_true, decide_eq_true_eq] at hkey
    obtain ⟨rfl, hhead⟩ := hkey
    refine .keyword ?_ htake
    cases r with
    | nil => simp
    | cons d r =>
      have hd : isNameStart d = true := hhead
      rw [List.takeWhile_cons, isNamePart, hd]
      intro c hc
      cases hc
      exact hd
  simp only [if_neg hkey] at *
  by_cases hname : isNameStart c = true
  · rw [if_pos hname]
    exact .name hname htake
  simp only [if_neg hname] at *
  by_cases hdigit : ('0' ≤ c && c ≤ '9') = true
  · rw [if_pos hdigit]
    exact .number hdigit htake
  · simp only [if_neg hdigit, Lexeme.grow] at *
    split at h
    case isFalse => cases h
    case isTrue hslash =>
      subst hslash
      exact .keyword (by simp) (by simp)

theorem lexemes_append_name {a n t : Text} (ha : LiteralsClosed a) (hn : isName n = true)
    (ht : StartsFresh t) : lexemes (a ++ (n ++ t)) = spliceName n (lexemes a) ++ lexemes t := by
  have hends : EndsName t := fun c hc => not_isNamePart_of_not_isNumberPart (ht c hc)
  induction hlen : a.length using Nat.strongRecOn generalizing a with
  | _ len ih =>
    subst hlen
    cases a with
    | nil =>
      rw [List.nil_append, lexemes_name hn hends, lexemes.eq_1]
      rfl
    | cons c r =>
      by_cases hopen : OpenWord (c :: r)
      · obtain ⟨l, m, hl, hm, happ⟩ := hopen.lexemes_append_name (List.cons_ne_nil c r) hn ht
        rw [happ, hl, spliceName, hm]
        rfl
      · obtain ⟨hrest, hstable⟩ := (firstLexeme_append_cases ha).resolve_left hopen
        have hshort := length_firstLexeme_le c r
        have hnext := ih _ (Nat.lt_succ_of_le hshort) hrest rfl
        rw [List.cons_append, lexemes, hstable, hnext, lexemes.eq_2 c r]
        cases hls : lexemes (firstLexeme c r).2 with
        | cons m ls => rfl
        | nil =>
          -- the whole text is one lexeme, which is no open word
          have hnil : (firstLexeme c r).2 = [] := by
            rw [← concat_lexemes (firstLexeme c r).2, hls]
            rfl
          have htext := firstLexeme_append c r
          rw [hnil, List.append_nil] at htext
          have hgrow : (firstLexeme c r).1.grow n = none := by
            cases hm : (firstLexeme c r).1.grow n with
            | none => rfl
            | some m =>
              have hsome : ((firstLexeme c r).1.grow n).isSome = true := by
                rw [hm]
                rfl
              exact absurd (htext ▸ openWord_of_grow hsome) hopen
          rw [spliceName, spliceName, hgrow]
          rfl

/-! ### names that stand apart -/

/-- whether a name behind the lexeme runs together with it -/
def Lexeme.isOpen : Lexeme → Bool
  | .literal _ => false
  | .other c => c = '\\'
  | _ => true

/-- a name behind the lexemes neither runs together with the last of them nor is a selector -/
def LeavesApart (last : Option Char) (ls : List Lexeme) : Prop :=
  ls.getLast?.any Lexeme.isOpen = false ∧ lastMarkAfter last ls ≠ some '.'

instance (last : Option Char) (ls : List Lexeme) : Decidable (LeavesApart last ls) :=
  inferInstanceAs
    (Decidable (ls.getLast?.any Lexeme.isOpen = false ∧ lastMarkAfter last ls ≠ some '.'))

/-- a name behind the text stands apart: the text does not end with a name, a keyword, a number or
a backslash, and its last character other than layout is no point -/
def StandsApart (s : Text) : Prop := LeavesApart none (lexemes s)

instance (s : Text) : Decidable (StandsApart s) :=
  inferInstanceAs (Decidable (LeavesApart none (lexemes s)))

/-- a lexeme that grows takes the name in, except for a backslash, which becomes a keyword -/
theorem grow_cases {n : Text} {l m : Lexeme} (hm : l.grow n = some m) :
    l.isOpen = true ∧
      ((∀ last, (identifiersFrom last [m]).length = (identifiersFrom last [l]).length) ∨
        l = .other '\\' ∧ m = .keyword ('\\' :: n)) := by
  cases l with
  | name raw =>
    cases hm
    exact ⟨rfl, .inl fun _ => rfl⟩
  | keyword raw =>
    cases hm
    exact ⟨rfl, .inl fun _ => rfl⟩
  | number raw =>
    cases hm
    exact ⟨rfl, .inl fun _ => rfl⟩
  | literal raw => cases hm
  | other c =>
    rw [Lexeme.grow] at hm
    split at hm
    case isFalse => cases hm
    case isTrue hslash =>
      cases hm
      subst hslash
      exact ⟨rfl, .inr ⟨rfl, rfl⟩⟩

theorem length_identifiersFrom_spliceName (n : Text) (last : Option Char) (ls : List Lexeme) :
    (identifiersFrom last (spliceName n ls)).length ≤ (identifiersFrom last ls).length + 1 := by
  fun_induction spliceName n ls generalizing last with
  | case1 => exact Nat.le_refl 1
  | case2 l m hm =>
    rcases (grow_cases hm).2 with hlen | ⟨rfl, rfl⟩
    · exact Nat.le_succ_of_le (Nat.le_of_eq (hlen last))
    · exact Nat.le_refl 1
  | case3 l hl =>
    rw [identifiersFrom_cons, identifiersFrom_cons last l, List.length_append, List.length_append]
    exact Nat.le_refl _
  | case4 l m ls ih =>
    have hrest := ih (l.lastMark last)
    rw [identifiersFrom_cons, identifiersFrom_cons last l, List.length_append, List.length_append]
    omega

/-- identifiers that come later do not make up for a name that was taken in -/
theorem identifiersFrom_grow {n : Text} {l m : Lexeme} (hm : l.grow n = some m)
    (last : Option Char) {R R' : List (Text × Bool)} (hle : R.length ≤ R'.length) :
    identifiersFrom last [m] ++ R ≠ identifiersFrom last [l] ++ (n, false) :: R' := by
  intro heq
  rcases (grow_cases hm).2 with hlen | ⟨rfl, rfl⟩
  · have hlength := congrArg List.length heq
    rw [List.length_append, List.length_append, List.length_cons, hlen last] at hlength
    omega
  · have hfirst : ('\\' :: n, false) = (n, false) := (List.cons.inj heq).1
    exact List.cons_ne_self '\\' n (congrArg Prod.fst hfirst)

theorem identifiersFrom_spliceName (n : Text) (last : Option Char) (ls : List Lexeme)
    {R R' : List (Text × Bool)} (hle : R.length ≤ R'.length) :
    identifiersFrom last (spliceName n ls) ++ R = identifiersFrom last ls ++ (n, false) :: R' ↔
      LeavesApart last ls ∧ R = R' := by
  have hname : ∀ last : Option Char, ((n, last == some '.') :: R = (n, false) :: R') ↔
      last ≠ some '.' ∧ R = R' := by
    intro last
    rw [List.cons.injEq, Prod.mk.injEq, beq_eq_false_iff_ne]
    exact and_congr_left' (and_iff_right rfl)
  fun_induction spliceName n ls generalizing last with
  | case1 =>
    refine (hname last).trans (and_congr_left' ?_)
    exact (and_iff_right rfl).symm
  | case2 l m hm =>
    refine iff_of_false (identifiersFrom_grow hm last hle) ?_
    rintro ⟨⟨hclosed, -⟩, -⟩
    cases hclosed.symm.trans (grow_cases hm).1
  | case3 l hl =>
    have hclosed : l.isOpen = false := by
      cases l with
      | literal raw => rfl
      | other c =>
        rw [Lexeme.grow] at hl
        split at hl
        · cases hl
        · rename_i hslash
          rw [Lexeme.isOpen, decide_eq_false hslash]
      | name raw => cases hl
      | keyword raw => cases hl
      | number raw => cases hl
    have hnone : l.identifier? last = none := by
      cases l <;> first | rfl | cases hclosed
    rw [identifiersFrom_cons, identifiersFrom_cons last l, hnone]
    refine (hname (l.lastMark last)).trans (and_congr_left' ?_)
    exact (and_iff_right hclosed).symm
  | case4 l m ls ih =>
    rw [identifiersFrom_cons, identifiersFrom_cons last l, List.append_assoc, List.append_assoc,
      List.append_cancel_left_eq]
    refine (ih (l.lastMark last)).trans (and_congr_left' ?_)
    unfold LeavesApart
    rw [List.getLast?_cons_cons]
    rfl

end ContractChecks
