import ContractChecks.Proofs.OldExpressions
import ContractChecks.Proofs.PaddedWords
import Mathlib.Data.List.Chain

/-!
# Words of filled expressions

Reading an expression puts names in the place of keywords and old expressions.  A name that is put in
stays a word of its own, as long as nothing stands so close that it would run into it.

* `KeywordsApart s`: no keyword of `s` touches a name character or a backslash before it;
* `OldsApart bad s`: no old expression of `s` touches a part after it that is `bad`;
* `FilledWord`: the words that can stand in a filled expression;
* `filledWord_of_mem`: no other words stand in it.
-/

namespace ContractChecks

/-! ### what stands apart -/

def Lexeme.isKeyword : Lexeme → Bool
  | .keyword _ => true
  | _ => false

theorem Lexeme.eq_keyword {l : Lexeme} (h : l.isKeyword = true) : ∃ raw, l = .keyword raw := by
  cases l with
  | keyword raw => exact ⟨raw, rfl⟩
  | literal raw => cases h
  | name raw => cases h
  | number raw => cases h
  | other c => cases h

theorem Lexeme.eq_name {l : Lexeme} {w : Text} (h : l.word? = some w) (hkey : l.isKeyword = false) :
    l = .name w := by
  cases l with
  | name raw => exact congrArg _ (Option.some.inj h)
  | keyword raw => cases hkey
  | literal raw => cases h
  | number raw => cases h
  | other c => cases h

def Lexeme.endsOpen (l : Lexeme) : Bool := l.text.getLast?.any fun c => isNamePart c || c = '\\'

/-- no keyword directly follows a name character or a backslash -/
def KeywordsApart (s : Text) : Prop :=
  (lexemes s).IsChain fun l l' => l'.isKeyword = true → l.endsOpen = false

def ExprPart.startsName : ExprPart → Bool
  | .lexeme (.name _) => true
  | .lexeme (.number _) => true
  | _ => false

def ExprPart.startsKeyword : ExprPart → Bool
  | .lexeme (.keyword _) => true
  | .old _ => true
  | _ => false

/-- no old expression is directly followed by a part that is `bad` -/
def OldsApart (bad : ExprPart → Bool) (s : Text) : Prop :=
  (exprParts s).IsChain fun p q => p.inner?.isSome = true → bad q = false

instance (s : Text) : Decidable (KeywordsApart s) :=
  inferInstanceAs (Decidable ((lexemes s).IsChain _))

instance (bad : ExprPart → Bool) (s : Text) : Decidable (OldsApart bad s) :=
  inferInstanceAs (Decidable ((exprParts s).IsChain _))

/-- what may not directly follow an old expression: it would run into the name that is put in -/
def ExprPart.joinsOld (p : ExprPart) : Bool := p.startsName || p.startsKeyword

def startsKeyword (s : Text) : Bool := (lexemes s).head?.any Lexeme.isKeyword

/-! ### one lexeme -/

theorem isName_of_mem_lexemes {s raw : Text} (h : .name raw ∈ lexemes s) : isName raw = true := by
  fun_induction lexemes s with
  | case1 => cases h
  | case2 c r ih =>
    rcases List.mem_cons.1 h with h | h
    · unfold firstLexeme at h
      split at h
      · cases h
      split at h
      · cases h
      split at h
      case isTrue hstart =>
        cases h
        exact isName_takeWhile hstart r
      split at h <;> cases h
    · exact ih h

theorem head?_firstLexeme (c : Char) (r : Text) : (firstLexeme c r).1.text.head? = some c := by
  unfold firstLexeme
  split
  · rfl
  split
  · rfl
  split
  · rfl
  split <;> rfl

section
variable {c : Char} {r t : Text}

/-- a word goes on for as long as it can -/
theorem rest_of_word? (h : (firstLexeme c r).1.word?.isSome = true) :
    (firstLexeme c r).2 = r.dropWhile isNamePart := by
  unfold firstLexeme at *
  split at h
  · cases h
  rename_i hquote
  rw [if_neg hquote]
  split at h
  case isTrue hkey => rw [if_pos hkey]
  rename_i hkey
  rw [if_neg hkey]
  split at h
  case isTrue hstart => rw [if_pos hstart]
  split at h <;> cases h

theorem endsOpen_of_word? (h : (firstLexeme c r).1.word?.isSome = true) :
    (firstLexeme c r).1.endsOpen = true := by
  obtain ⟨w, hw⟩ := Option.isSome_iff_exists.1 h
  have hmem : w ∈ words (c :: r) := by
    rw [words_cons, hw]
    exact List.mem_cons_self
  have hopen : w ≠ [] ∧ ∀ d ∈ w, (isNamePart d || d = '\\') = true := by
    have hname : ∀ {n : Text}, isName n = true → ∀ d ∈ n, (isNamePart d || d = '\\') = true := by
      intro n hn d hd
      rw [isNamePart_of_isName hn d hd, Bool.true_or]
    rcases mem_words_cases hmem with hn | ⟨n, rfl, hn⟩
    · refine ⟨?_, hname hn⟩
      rintro rfl
      cases hn
    · exact ⟨List.cons_ne_nil _ _, List.forall_mem_cons.2 ⟨rfl, hname hn⟩⟩
  rw [Lexeme.endsOpen, Lexeme.text_of_word? hw, List.getLast?_eq_some_getLast hopen.1, Option.any_some]
  exact hopen.2 _ (List.getLast_mem hopen.1)

/-- what is put in after a word does not run into it -/
theorem endsName_of_word?
    (hhead : startsKeyword (firstLexeme c r).2 = false → t.head? = (firstLexeme c r).2.head?)
    (hapart : startsKeyword (firstLexeme c r).2 = true → (firstLexeme c r).1.endsOpen = false)
    (hword : (firstLexeme c r).1.word?.isSome = true) : EndsName t := by
  have hno : startsKeyword (firstLexeme c r).2 = false := by
    rw [endsOpen_of_word? hword] at hapart
    exact Bool.eq_false_iff.2 fun hkey => Bool.noConfusion (hapart hkey)
  rw [EndsName, hhead hno, rest_of_word? hword]
  exact endsName_dropWhile r

theorem words_word_append {w t : Text} (hw : isName w = true ∨ ∃ n, w = '\\' :: n ∧ isName n = true)
    (ht : EndsName t) : words (w ++ t) = w :: words t := by
  rcases hw with hname | ⟨n, rfl, hname⟩
  · rw [words, lexemes_name hname ht]
    rfl
  · rw [words, List.cons_append, lexemes_keyword hname ht]
    rfl

/-- a lexeme that is kept gives its own word, whatever is put in after it -/
theorem words_firstLexeme_append (hnil : (firstLexeme c r).2 = [] → t = [])
    (hhead : startsKeyword (firstLexeme c r).2 = false → t.head? = (firstLexeme c r).2.head?)
    (hapart : startsKeyword (firstLexeme c r).2 = true → (firstLexeme c r).1.endsOpen = false) :
    words ((firstLexeme c r).1.text ++ t) ⊆ (firstLexeme c r).1.word?.toList ++ words t := by
  cases hword : (firstLexeme c r).1.word? with
  | some w =>
    have hmem : w ∈ words (c :: r) := by
      rw [words_cons, hword]
      exact List.mem_cons_self
    have hends := endsName_of_word? hhead hapart (by rw [hword]; rfl)
    rw [Lexeme.text_of_word? hword, words_word_append (mem_words_cases hmem) hends]
    exact List.Subset.refl _
  | none =>
    show words ((firstLexeme c r).1.text ++ t) ⊆ words t
    unfold firstLexeme at *
    by_cases hquote : isQuoteMark c = true
    · rw [if_pos hquote] at *
      show words (c :: ((literalTail c r).1 ++ t)) ⊆ words t
      rw [words_cons, firstLexeme, if_pos hquote, literalTail_append_tail hnil]
      exact List.Subset.refl _
    simp only [if_neg hquote] at *
    by_cases hkey : (c = '\\' && r.head?.any isNameStart) = true
    · rw [if_pos hkey] at hword
      cases hword
    simp only [if_neg hkey] at *
    by_cases hstart : isNameStart c = true
    · rw [if_pos hstart] at hword
      cases hword
    simp only [if_neg hstart] at *
    by_cases hdigit : ('0' ≤ c && c ≤ '9') = true
    · rw [if_pos hdigit]
      exact words_number_subset hdigit (List.all_eq_true.1 List.all_takeWhile) t
    simp only [if_neg hdigit] at *
    -- a backslash does not become the beginning of a keyword
    have hkey' : ¬(c = '\\' && t.head?.any isNameStart) = true := by
      intro hslash
      have hc : c = '\\' := of_decide_eq_true (Bool.and_eq_true_iff.1 hslash).1
      have hno : startsKeyword r = false := by
        refine Bool.eq_false_iff.2 fun hstarts => ?_
        have hopen := hapart hstarts
        rw [hc] at hopen
        exact absurd hopen (by decide)
      rw [hhead hno] at hslash
      exact hkey hslash
    show words (c :: t) ⊆ words t
    rw [words_cons, firstLexeme, if_neg hquote, if_neg hkey', if_neg hstart, if_neg hdigit]
    exact List.Subset.refl _

end

/-- a name character begins a name or a number -/
theorem firstLexeme_of_isNamePart {c : Char} (h : isNamePart c = true) (r : Text) :
    (∃ raw, (firstLexeme c r).1 = .name raw) ∨ ∃ raw, (firstLexeme c r).1 = .number raw := by
  have hquote := not_isQuoteMark_of_isNamePart h
  have hslash : c ≠ '\\' := by
    rintro rfl
    revert h
    decide
  rw [firstLexeme, hquote, if_neg (by decide), if_neg (by simp [hslash])]
  by_cases hstart : isNameStart c = true
  · rw [if_pos hstart]
    exact .inl ⟨_, rfl⟩
  · have hdigit : ('0' ≤ c && c ≤ '9') = true := by
      rw [isNamePart, Bool.or_eq_true] at h
      exact h.resolve_left hstart
    rw [if_neg hstart, if_pos hdigit]
    exact .inr ⟨_, rfl⟩

/-! ### arguments of old expressions -/

/-- the argument of an old expression stands between brackets, and none of its literals is open -/
theorem oldArgument?_eq_some {s inner rest : Text} (h : oldArgument? s = some (inner, rest)) :
    ∃ (u : Text) (c : Char), (∀ d ∈ u, isMark d = true) ∧ isMark c = true ∧ LiteralsClosed inner ∧
      s = u ++ ('(' :: (inner ++ c :: rest)) := by
  simp only [oldArgument?] at h
  split at h
  case isFalse => cases h
  case isTrue hopen =>
    split at h
    case h_2 => cases h
    case h_1 a b hcut =>
      cases h
      obtain ⟨hclosed, c, tail, rfl, hclosing⟩ := cutClose_closed hcut
      have happend := cutClose_append hcut
      have hspaces : ∀ d ∈ s.takeWhile (fun d => d = ' '), isMark d = true := by
        intro d hd
        rw [of_decide_eq_true (List.all_eq_true.1 List.all_takeWhile d hd)]
        decide
      obtain ⟨inner, rfl⟩ : ∃ inner, a = '(' :: inner := by
        obtain ⟨tail', htail⟩ := List.isPrefixOf_iff_prefix.1 hopen
        rw [← htail] at happend
        cases a with
        | nil =>
          cases happend
          exact absurd hclosing (by decide)
        | cons d inner =>
          cases happend
          exact ⟨inner, rfl⟩
      have hinner : LiteralsClosed inner :=
        (literalsClosed_of_isMark (m := ['(']) (List.all_eq_true.1 (by decide))).of_append hclosed
      refine ⟨_, c, hspaces, (isMark_of_isClosing hclosing).1, hinner, ?_⟩
      calc s = s.takeWhile (fun d => d = ' ') ++ s.dropWhile fun d => d = ' ' :=
            List.takeWhile_append_dropWhile.symm
        _ = _ := by rw [← happend]; rfl

/-- the lexemes of the argument and of what follows it -/
theorem lexemes_oldArgument {s inner rest : Text} (h : oldArgument? s = some (inner, rest)) :
    ∃ ls c, lexemes s = ls ++ (lexemes inner ++ .other c :: lexemes rest) := by
  obtain ⟨u, c, hu, hc, hinner, rfl⟩ := oldArgument?_eq_some h
  refine ⟨u.map .other ++ [.other '('], c, ?_⟩
  rw [lexemes_marks hu, lexemes_cons_mark (by decide), lexemes_append hinner (startsFresh_cons hc rest),
    lexemes_cons_mark hc, List.append_assoc]
  rfl

/-! ### parts in order -/

section
variable {c : Char} {r : Text}

theorem exprParts_old {inner rest : Text} (h : (firstLexeme c r).1 = .keyword oldKeyword)
    (harg : oldArgument? (firstLexeme c r).2 = some (inner, rest)) :
    exprParts (c :: r) = .old inner :: exprParts rest := by
  rw [exprParts, if_pos h]
  split
  case h_1 inner' rest' hsome =>
    rw [harg] at hsome
    cases hsome
    rfl
  case h_2 hnone =>
    rw [harg] at hnone
    cases hnone

theorem exprParts_lexeme (h : (firstLexeme c r).1 ≠ .keyword oldKeyword) :
    exprParts (c :: r) = .lexeme (firstLexeme c r).1 :: exprParts (firstLexeme c r).2 := by
  rw [exprParts, if_neg h]

end

/-- the names that stand for keywords are names -/
structure Scope.Named (sc : Scope) : Prop where
  this : isName sc.this = true
  result : sc.result ≠ [] → isName sc.result = true

/-- the words that can stand in the filled expression -/
inductive FilledWord (sc : Scope) (temp : Text → Text) (s : Text) : Text → Prop where
  | name {n : Text} (h : .name n ∈ lexemes s) : FilledWord sc temp s n
  | quantifier (k : QuantifierKind) : FilledWord sc temp s k.keyword
  | this : FilledWord sc temp s sc.this
  | result (h : sc.result ≠ []) : FilledWord sc temp s sc.result
  | old {inner e : Text} (h : inner ∈ oldArguments s) (he : sc.oldExpr inner = .ok e) :
    FilledWord sc temp s (temp e)

section
variable {sc : Scope} {temp : Text → Text} {s whole : Text} {us : List Text}

theorem FilledWord.mono {s' w : Text} (hlex : lexemes s ⊆ lexemes s')
    (hold : oldArguments s ⊆ oldArguments s') (h : FilledWord sc temp s w) :
    FilledWord sc temp s' w := by
  cases h with
  | name h => exact .name (hlex h)
  | quantifier k => exact .quantifier k
  | this => exact .this
  | result h => exact .result h
  | old h he => exact .old (hold h) he

/-- what stands for a keyword -/
theorem postKeyword_eq_ok {raw t : Text} (h : sc.postKeyword whole raw = .ok t) :
    raw ≠ oldKeyword ∧ ((t = sc.result ∧ sc.result ≠ []) ∨ t = sc.this ∨
      ∃ k : QuantifierKind, raw = k.keyword ∧ t = raw) := by
  unfold Scope.postKeyword at h
  split at h
  case isTrue hresult =>
    rw [Bool.and_eq_true, decide_eq_true_eq, bne_iff_ne] at hresult
    cases h
    refine ⟨?_, .inl ⟨rfl, hresult.2⟩⟩
    rw [hresult.1]
    decide
  case isFalse =>
    unfold Scope.preKeyword at h
    split at h
    · cases h
    rename_i hold
    refine ⟨hold, .inr ?_⟩
    split at h
    · cases h
    split at h
    · cases h
      exact .inl rfl
    split at h
    case isTrue hsome =>
      cases h
      obtain ⟨k, hk⟩ := Option.isSome_iff_exists.1 hsome
      have hkey : k.keyword = raw := by simpa using List.find?_some hk
      exact .inr ⟨k, hkey.symm, rfl⟩
    case isFalse => cases h

/-- what stands for a keyword is a word -/
theorem word_of_postKeyword (hsc : sc.Named) {raw u : Text} (h : sc.postKeyword whole raw = .ok u) :
    isName u = true ∨ ∃ n, u = '\\' :: n ∧ isName n = true := by
  rcases (postKeyword_eq_ok h).2 with ⟨rfl, hne⟩ | rfl | ⟨k, rfl, rfl⟩
  · exact .inl (hsc.result hne)
  · exact .inl hsc.this
  · refine .inr ⟨k.keyword.tail, ?_⟩
    cases k <;> decide

theorem partText_lexeme {l : Lexeme} (h : l.isKeyword = false) :
    sc.partText temp whole (.lexeme l) = .ok l.text := by
  cases l with
  | keyword raw => cases h
  | literal raw => rfl
  | name raw => rfl
  | number raw => rfl
  | other c => rfl

/-- a filled text begins like the expression, unless a keyword is replaced there -/
theorem head?_filled (h : (exprParts s).mapM (sc.partText temp whole) = .ok us)
    (hno : startsKeyword s = false) : (Text.concat us).head? = s.head? := by
  cases s with
  | nil =>
    rw [exprParts] at h
    cases h
    rfl
  | cons c r =>
    have hkey : (firstLexeme c r).1.isKeyword = false := by
      rw [startsKeyword, lexemes] at hno
      exact hno
    have hold : (firstLexeme c r).1 ≠ .keyword oldKeyword := by
      intro heq
      rw [heq] at hkey
      cases hkey
    rw [exprParts_lexeme hold] at h
    obtain ⟨u, us, hu, -, rfl⟩ := exists_of_mapM_cons h
    rw [partText_lexeme hkey] at hu
    cases hu
    show ((firstLexeme c r).1.text ++ Text.concat us).head? = some c
    rw [List.head?_append, head?_firstLexeme]
    rfl

theorem filled_nil (h : (exprParts []).mapM (sc.partText temp whole) = .ok us) :
    Text.concat us = [] := by
  rw [exprParts] at h
  cases h
  rfl

/-- what follows an old expression does not run into the name that is put in its place -/
theorem endsName_of_not_joinsOld (h : (exprParts s).mapM (sc.partText temp whole) = .ok us)
    (hapart : ∀ q ∈ (exprParts s).head?, q.joinsOld = false) : EndsName (Text.concat us) := by
  cases s with
  | nil =>
    rw [filled_nil h]
    simp [EndsName]
  | cons c r =>
    have hkey : (firstLexeme c r).1.isKeyword = false := by
      rw [exprParts] at hapart
      cases hl : (firstLexeme c r).1 with
      | keyword raw =>
        rw [hl] at hapart
        split at hapart
        · split at hapart
          · exact Bool.noConfusion (show true = false from hapart _ rfl)
          · exact Bool.noConfusion (show true = false from hapart _ rfl)
        · exact Bool.noConfusion (show true = false from hapart _ rfl)
      | literal raw => rfl
      | name raw => rfl
      | number raw => rfl
      | other d => rfl
    have hold : (firstLexeme c r).1 ≠ .keyword oldKeyword := by
      intro heq
      rw [heq] at hkey
      cases hkey
    rw [exprParts_lexeme hold] at hapart
    intro d hd
    rw [head?_filled h (by rw [startsKeyword, lexemes]; exact hkey)] at hd
    cases hd
    refine Bool.eq_false_iff.2 fun hpart => ?_
    have hjoins := hapart _ rfl
    rcases firstLexeme_of_isNamePart hpart r with ⟨raw, hl⟩ | ⟨raw, hl⟩
    · rw [hl] at hjoins
      cases hjoins
    · rw [hl] at hjoins
      cases hjoins

/-- the first lexeme, and what is filled in after it -/
theorem filledWord_of_lexeme (hsc : sc.Named) {c : Char} {r u t w : Text}
    (hu : sc.partText temp whole (.lexeme (firstLexeme c r).1) = .ok u)
    (hnil : (firstLexeme c r).2 = [] → t = [])
    (hhead : startsKeyword (firstLexeme c r).2 = false → t.head? = (firstLexeme c r).2.head?)
    (hapart : startsKeyword (firstLexeme c r).2 = true → (firstLexeme c r).1.endsOpen = false)
    (hw : w ∈ words (u ++ t)) : FilledWord sc temp (c :: r) w ∨ w ∈ words t := by
  cases hl : (firstLexeme c r).1.isKeyword with
  | false =>
    rw [partText_lexeme hl] at hu
    cases hu
    rcases List.mem_append.1 (words_firstLexeme_append hnil hhead hapart hw) with hw | hw
    · have hname := Lexeme.eq_name (Option.mem_toList.1 hw) hl
      refine .inl (.name ?_)
      rw [lexemes, hname]
      exact List.mem_cons_self
    · exact .inr hw
  | true =>
    obtain ⟨raw, hraw⟩ := Lexeme.eq_keyword hl
    have hends := endsName_of_word? hhead hapart (by rw [hraw]; rfl)
    rw [hraw] at hu
    rw [words_word_append (word_of_postKeyword hsc hu) hends] at hw
    rcases List.mem_cons.1 hw with rfl | hw
    · rcases (postKeyword_eq_ok hu).2 with ⟨rfl, hne⟩ | rfl | ⟨k, hk, hw⟩
      · exact .inl (.result hne)
      · exact .inl .this
      · rw [hw, hk]
        exact .inl (.quantifier k)
    · exact .inr hw

/-- every word of a filled expression is one of its names, a name that was put in or a quantifier -/
theorem filledWord_of_mem (hsc : sc.Named) (htemp : ∀ e, isName (temp e) = true)
    (hkey : KeywordsApart s) (hold : OldsApart ExprPart.joinsOld s)
    (h : (exprParts s).mapM (sc.partText temp whole) = .ok us) :
    ∀ w ∈ words (Text.concat us), FilledWord sc temp s w := by
  fun_induction exprParts s generalizing us with
  | case1 =>
    intro w hw
    cases h
    change w ∈ words [] at hw
    rw [words_nil] at hw
    cases hw
  | case2 c r hfirst inner rest harg ih =>
    obtain ⟨u, us, hu, hus, rfl⟩ := exists_of_mapM_cons h
    obtain ⟨e, he, hpure⟩ := except_bind_eq_ok hu
    cases hpure
    obtain ⟨ls, d, hlex⟩ := lexemes_oldArgument harg
    have hsuffix : lexemes rest <:+ lexemes (c :: r) := by
      rw [lexemes, hlex]
      exact ⟨(firstLexeme c r).1 :: (ls ++ (lexemes inner ++ [.other d])), by simp⟩
    have hargs : oldArguments (c :: r) = inner :: oldArguments rest := by
      rw [oldArguments, exprParts_old hfirst harg]
      rfl
    rw [OldsApart, exprParts_old hfirst harg, List.isChain_cons] at hold
    -- the variable is a word of its own, because the part after it does not begin with a name
    have hends := endsName_of_not_joinsOld hus fun q hq => hold.1 q hq rfl
    have hrest := ih (hkey.suffix hsuffix) hold.2 hus
    intro w hw
    change w ∈ words (temp e ++ Text.concat us) at hw
    rw [words_word_append (.inl (htemp e)) hends] at hw
    rcases List.mem_cons.1 hw with rfl | hw
    · exact .old (hargs ▸ List.mem_cons_self) he
    · exact (hrest w hw).mono hsuffix.subset (hargs ▸ List.subset_cons_self _ _)
  | case3 c r hfirst harg ih =>
    obtain ⟨u, us, hu, -, rfl⟩ := exists_of_mapM_cons h
    rw [hfirst] at hu
    exact absurd rfl (postKeyword_eq_ok hu).1
  | case4 c r hfirst ih =>
    obtain ⟨u, us, hu, hus, rfl⟩ := exists_of_mapM_cons h
    have hlex : lexemes (c :: r) = (firstLexeme c r).1 :: lexemes (firstLexeme c r).2 := by
      rw [lexemes]
    have hargs : oldArguments (c :: r) = oldArguments (firstLexeme c r).2 := by
      rw [oldArguments, exprParts_lexeme hfirst]
      rfl
    rw [OldsApart, exprParts_lexeme hfirst, List.isChain_cons] at hold
    rw [KeywordsApart, hlex, List.isChain_cons] at hkey
    have hrest : ∀ w ∈ words (Text.concat us), FilledWord sc temp (c :: r) w := fun w hw =>
      (ih hkey.2 hold.2 hus w hw).mono (hlex ▸ List.subset_cons_self _ _)
        (hargs ▸ List.Subset.refl _)
    have hnil : (firstLexeme c r).2 = [] → Text.concat us = [] := by
      intro hrest
      rw [hrest] at hus
      exact filled_nil hus
    have hapart : startsKeyword (firstLexeme c r).2 = true → (firstLexeme c r).1.endsOpen = false := by
      intro hstarts
      obtain ⟨l, hl, hlkey⟩ := (Option.any_eq_true _ _).1 hstarts
      exact hkey.1 l hl hlkey
    intro w hw
    rcases filledWord_of_lexeme hsc hu hnil (head?_filled hus) hapart hw with hw | hw
    · exact hw
    · exact hrest w hw

/-! ### literals -/

theorem literalsClosed_word {w : Text}
    (h : isName w = true ∨ ∃ n, w = '\\' :: n ∧ isName n = true) : LiteralsClosed w := by
  have hname : ∀ {n : Text}, isName n = true → ∀ c ∈ n, isQuoteMark c = false := fun hn c hc =>
    not_isQuoteMark_of_isNamePart (isNamePart_of_isName hn c hc)
  refine literalsClosed_of_noQuote ?_
  rcases h with hw | ⟨n, rfl, hn⟩
  · exact hname hw
  · exact List.forall_mem_cons.2 ⟨by decide, hname hn⟩

theorem literalsClosed_cons {c : Char} {r : Text} (h : LiteralsClosed (c :: r)) :
    LiteralsClosed (firstLexeme c r).1.text ∧ LiteralsClosed (firstLexeme c r).2 := by
  have htext := firstLexeme_append c r
  have hfirst : LiteralsClosed (firstLexeme c r).1.text := by
    by_cases hrest : (firstLexeme c r).2 = []
    · rw [hrest, List.append_nil] at htext
      rw [htext]
      exact h
    · exact literalsClosed_firstLexeme hrest
  rw [← htext] at h
  exact ⟨hfirst, hfirst.of_append h⟩

/-- filling an expression leaves no literal open that was closed -/
theorem literalsClosed_filled (hsc : sc.Named) (htemp : ∀ e, isName (temp e) = true)
    (hs : LiteralsClosed s) (h : (exprParts s).mapM (sc.partText temp whole) = .ok us) :
    LiteralsClosed (Text.concat us) := by
  fun_induction exprParts s generalizing us with
  | case1 =>
    cases h
    exact literalsClosed_nil
  | case2 c r hfirst inner rest harg ih =>
    obtain ⟨u, us, hu, hus, rfl⟩ := exists_of_mapM_cons h
    obtain ⟨e, -, hpure⟩ := except_bind_eq_ok hu
    cases hpure
    obtain ⟨m, d, hm, hd, hinner, htext⟩ := oldArgument?_eq_some harg
    have hrest := (literalsClosed_cons hs).2
    rw [htext] at hrest
    have hopen : LiteralsClosed ['('] := literalsClosed_of_isMark (List.all_eq_true.1 (by decide))
    have hclose : LiteralsClosed [d] :=
      literalsClosed_of_isMark fun x hx => List.mem_singleton.1 hx ▸ hd
    have hargument := hopen.of_append ((literalsClosed_of_isMark hm).of_append hrest)
    exact (literalsClosed_word (.inl (htemp e))).append
      (ih (hclose.of_append (hinner.of_append hargument)) hus)
  | case3 c r hfirst harg ih =>
    obtain ⟨u, us, hu, -, rfl⟩ := exists_of_mapM_cons h
    rw [hfirst] at hu
    exact absurd rfl (postKeyword_eq_ok hu).1
  | case4 c r hfirst ih =>
    obtain ⟨u, us, hu, hus, rfl⟩ := exists_of_mapM_cons h
    have hpart : LiteralsClosed u := by
      cases hl : (firstLexeme c r).1.isKeyword with
      | false =>
        rw [partText_lexeme hl] at hu
        cases hu
        exact (literalsClosed_cons hs).1
      | true =>
        obtain ⟨raw, hraw⟩ := Lexeme.eq_keyword hl
        rw [hraw] at hu
        exact literalsClosed_word (word_of_postKeyword hsc hu)
    exact hpart.append (ih (literalsClosed_cons hs).2 hus)

/-! ### expressions without old state -/

theorem partText_of_preLexeme {l : Lexeme} {u : Text} (h : sc.preLexeme whole l = .ok u)
    (temp : Text → Text) :
    l ≠ .keyword oldKeyword ∧ sc.partText temp whole (.lexeme l) = .ok u := by
  cases l with
  | keyword raw =>
    have hkeep : raw ≠ oldKeyword ∧ raw ≠ resultKeyword := by
      constructor
      · rintro rfl
        cases h
      · rintro rfl
        cases h
    refine ⟨fun heq => hkeep.1 (Lexeme.keyword.inj heq), ?_⟩
    show sc.postKeyword whole raw = .ok u
    rw [Scope.postKeyword, if_neg (by simp [hkeep.2])]
    exact h
  | literal raw => exact ⟨Lexeme.noConfusion, h⟩
  | name raw => exact ⟨Lexeme.noConfusion, h⟩
  | number raw => exact ⟨Lexeme.noConfusion, h⟩
  | other c => exact ⟨Lexeme.noConfusion, h⟩

/-- an expression of the state before the call has no old expressions, and is filled the same way -/
theorem filled_of_preText {t : Text} (h : sc.preText s = .ok t) (temp : Text → Text) :
    oldArguments s = [] ∧ sc.filled temp s = .ok t := by
  have hparts : ∀ {whole s : Text} {us : List Text}, (lexemes s).mapM (sc.preLexeme whole) = .ok us →
      oldArguments s = [] ∧ (exprParts s).mapM (sc.partText temp whole) = .ok us := by
    intro whole s us h
    unfold oldArguments
    fun_induction lexemes s generalizing us with
    | case1 =>
      rw [exprParts]
      exact ⟨rfl, h⟩
    | case2 c r ih =>
      obtain ⟨u, us, hu, hus, rfl⟩ := exists_of_mapM_cons h
      obtain ⟨hnone, hfill⟩ := ih hus
      obtain ⟨hold, hpart⟩ := partText_of_preLexeme hu temp
      rw [exprParts_lexeme hold]
      exact ⟨hnone, mapM_cons_eq_ok hpart hfill⟩
  obtain ⟨us, hus, hpure⟩ := except_bind_eq_ok h
  cases hpure
  obtain ⟨hnone, hfill⟩ := hparts hus
  refine ⟨hnone, ?_⟩
  rw [Scope.filled, hfill]
  rfl

end

/-- the lexemes of the argument of an old expression -/
theorem lexemes_infix_of_mem_oldArguments {s inner : Text} (h : inner ∈ oldArguments s) :
    lexemes inner <:+: lexemes s := by
  unfold oldArguments at h
  fun_induction exprParts s with
  | case1 => cases h
  | case2 c r hfirst inner' rest harg ih =>
    obtain ⟨ls, d, hlex⟩ := lexemes_oldArgument harg
    rw [lexemes, hlex]
    rcases List.mem_cons.1 h with rfl | h
    · exact ⟨(firstLexeme c r).1 :: ls, .other d :: lexemes rest, by simp⟩
    · obtain ⟨as, bs, hmid⟩ := ih h
      refine ⟨(firstLexeme c r).1 :: (ls ++ (lexemes inner' ++ .other d :: as)), bs, ?_⟩
      rw [← hmid]
      simp
  | case3 c r hfirst harg ih =>
    rw [lexemes]
    exact (ih h).trans (List.suffix_cons _ _).isInfix
  | case4 c r hfirst ih =>
    rw [lexemes]
    exact (ih h).trans (List.suffix_cons _ _).isInfix

end ContractChecks
