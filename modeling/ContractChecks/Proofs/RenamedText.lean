import ContractChecks.Capture.Guard
import ContractChecks.Proofs.ClosedPieces
import ContractChecks.Proofs.Temporaries

/-!
# Texts under a renaming

A text put together from parts is renamed part by part, and a renaming that takes variable names to
variable names leaves the shape of guards and assignments alone.

* `renameFrom_append`: lexemes are renamed one after the other, with the last mark carried along;
* `rename_append_mark`: a mark separates two parts that are renamed independently;
* `VariableName n`: a plain name other than `if`;
* `Renaming.Plain f`: the renaming has variable names only; `inheritedRenaming_plain`: that of an
  inherited contract does;
* `rename_guardedBy`: a guarded statement stays guarded, by the renamed predicate;
* `Assigns s`: the statement begins with a variable name; `Assigns.rename_eq`: it still does after a
  renaming, so that it never looks like a guarded one (`not_guardedWith_of_name`).
-/

namespace ContractChecks

/-! ### lexemes in order -/

def lastMarkAfter (last : Option Char) (ls : List Lexeme) : Option Char :=
  ls.foldl Lexeme.lastMark last

theorem renameFrom_append (f : Renaming) (last : Option Char) (ls ls' : List Lexeme) :
    renameFrom f last (ls ++ ls')
      = renameFrom f last ls ++ renameFrom f (lastMarkAfter last ls) ls' := by
  induction ls generalizing last with
  | nil => rfl
  | cons l ls ih =>
    rw [List.cons_append, renameFrom_cons, renameFrom_cons, ih, List.append_assoc]
    rfl

/-- what stands before the lexemes matters only if it is a point -/
theorem renameFrom_of_ne_point (f : Renaming) {last : Option Char} (h : last ≠ some '.')
    (ls : List Lexeme) : renameFrom f last ls = renameFrom f none ls := by
  have hlast : (last == some '.') = false := beq_eq_false_iff_ne.2 h
  induction ls with
  | nil => rfl
  | cons l ls ih =>
    rw [renameFrom_cons, renameFrom_cons]
    cases l with
    | other c =>
      -- a layout character leaves the mark before it in place
      rw [Lexeme.lastMark, Lexeme.lastMark]
      by_cases hc : isLayout c = true
      · rw [if_pos hc, if_pos hc, ih]
        rfl
      · rw [if_neg hc, if_neg hc]
        rfl
    | name raw =>
      unfold Lexeme.renamed
      rw [hlast]
      rfl
    | keyword raw => rfl
    | literal raw => rfl
    | number raw => rfl

theorem rename_nil_left (s : Text) : rename [] s = s := by
  have hall : ∀ (ls : List Lexeme) (last : Option Char), renameFrom [] last ls = unlex ls := by
    intro ls
    induction ls with
    | nil => exact fun last => rfl
    | cons l ls ih =>
      intro last
      rw [renameFrom_cons, ih, unlex, unlex, List.flatMap_cons]
      congr 1
      cases l with
      | name raw => exact ite_self _
      | keyword raw => rfl
      | literal raw => rfl
      | number raw => rfl
      | other c => rfl
  rw [rename, hall, concat_lexemes]

theorem rename_empty (f : Renaming) : rename f [] = [] := by
  rw [rename, lexemes]
  rfl

/-! ### parts of a text -/

theorem isMark_of_isLayout {c : Char} (h : isLayout c = true) : isMark c = true := by
  rcases isLayout_cases h with rfl | rfl | rfl <;> decide

theorem rename_append_mark (f : Renaming) {a : Text} (ha : LiteralsClosed a) {m : Char}
    (hm : isMark m = true) (hlayout : isLayout m = false) (b : Text) :
    rename f (a ++ m :: b) = rename f a ++ m :: rename f b := by
  have hpoint : some m ≠ some '.' := by
    rintro hpoint
    cases hpoint
    cases hm
  have hlast : ∀ last, (Lexeme.other m).lastMark last = some m := by
    intro last
    rw [Lexeme.lastMark, hlayout]
    rfl
  unfold rename
  rw [lexemes_append ha (startsFresh_cons hm b), lexemes_cons_mark hm, renameFrom_append,
    renameFrom_cons, hlast, renameFrom_of_ne_point f hpoint]
  rfl

theorem rename_layout_append (f : Renaming) {m : Text} (hm : ∀ c ∈ m, isLayout c = true)
    (s : Text) : rename f (m ++ s) = m ++ rename f s := renameFrom_layout f none hm s

theorem rename_append_layout (f : Renaming) {a : Text} (ha : LiteralsClosed a) {m : Text}
    (hm : ∀ c ∈ m, isLayout c = true) : rename f (a ++ m) = rename f a ++ m := by
  have hfresh : StartsFresh m := by
    intro c hc
    have hmark := isMark_of_isLayout (hm c (List.mem_of_mem_head? hc))
    exact (isMark_spec hmark).2.2
  have hlayout : ∀ last, renameFrom f last (lexemes m) = m := by
    intro last
    have happ := renameFrom_layout f last hm []
    rw [List.append_nil, lexemes, renameFrom, List.append_nil] at happ
    exact happ
  unfold rename
  rw [lexemes_append ha hfresh, renameFrom_append, hlayout]

/-- a character that neither the text nor a new name has is not in the renamed text -/
theorem not_mem_rename {f : Renaming} {c : Char} (hf : ∀ a x, f.get? a = some x → c ∉ x) {s : Text}
    (hs : c ∉ s) : c ∉ rename f s := by
  have himage : ∀ raw, c ∉ raw → c ∉ f.image raw := by
    intro raw hraw
    cases hget : f.get? raw with
    | none =>
      rw [Renaming.image_of_none hget]
      exact hraw
    | some x =>
      rw [Renaming.image_of_some hget]
      exact hf raw x hget
  have hlexeme : ∀ (l : Lexeme) (last : Option Char), c ∉ l.text → c ∉ l.renamed f last := by
    intro l last hl
    cases l with
    | name raw =>
      rw [Lexeme.renamed]
      split
      · exact hl
      · exact himage raw hl
    | keyword raw => exact himage raw hl
    | literal raw => exact hl
    | number raw => exact hl
    | other d => exact hl
  have hall : ∀ (ls : List Lexeme) (last : Option Char), c ∉ unlex ls →
      c ∉ renameFrom f last ls := by
    intro ls
    induction ls with
    | nil => exact fun last h => h
    | cons l ls ih =>
      intro last h
      rw [unlex, List.flatMap_cons, List.mem_append, not_or] at h
      rw [renameFrom_cons, List.mem_append, not_or]
      exact ⟨hlexeme l last h.1, ih _ h.2⟩
  refine hall _ _ ?_
  rw [concat_lexemes]
  exact hs

/-! ### variable names -/

def ifWord : Text := "if"

/-- a plain name other than the word `if` -/
structure VariableName (n : Text) : Prop extends PlainName n where
  ne_if : n ≠ ifWord

theorem variableName_iff {n : Text} :
    (isName n && n.all (fun c => !isBlank c) && n != varWord && n != ifWord) = true ↔
      VariableName n := by
  constructor
  · intro h
    rw [Bool.and_eq_true] at h
    exact ⟨plainName_of_decide h.1, bne_iff_ne.1 h.2⟩
  · rintro ⟨⟨hname, hsolid, hvar⟩, hif⟩
    simp only [Bool.and_eq_true, List.all_eq_true, Bool.not_eq_true', bne_iff_ne]
    exact ⟨⟨⟨hname, hsolid⟩, hvar⟩, hif⟩

instance (n : Text) : Decidable (VariableName n) := decidable_of_iff _ variableName_iff

theorem VariableName.not_mem {n : Text} (h : VariableName n) {c : Char}
    (hc : isNamePart c = false) : c ∉ n := by
  intro hmem
  rw [isNamePart_of_isName h.name c hmem] at hc
  cases hc

theorem variableName_receiverName {m : Method} (h : m.receiver = [] ∨ VariableName m.receiver) :
    VariableName m.receiverName := by
  unfold Method.receiverName
  rcases h with h | h
  · rw [if_pos h]
    decide
  · rw [if_neg h.toPlainName.ne_nil]
    exact h

theorem VariableName.tempCandidate {a : Text} (h : VariableName a) (level n : Nat) :
    VariableName (tempCandidate a level n) := by
  refine ⟨h.toPlainName.tempCandidate level n, ?_⟩
  intro hif
  have hmem : '_' ∈ ContractChecks.tempCandidate a level n := by
    unfold ContractChecks.tempCandidate
    split <;> simp
  rw [hif] at hmem
  revert hmem
  decide

/-- the renaming takes variable names to variable names -/
def Renaming.Plain (f : Renaming) : Prop :=
  ∀ a x, f.get? a = some x → VariableName a ∧ VariableName x

namespace Renaming.Plain

theorem nil : Renaming.Plain [] := by
  intro a x h
  cases h

variable {f : Renaming}

theorem keepsWords (hf : f.Plain) : f.KeepsWords :=
  Renaming.keepsWords_of_plain fun a x hget => (hf a x hget).1.toPlainName

theorem image_if (hf : f.Plain) : f.image ifWord = ifWord := by
  cases hget : f.get? ifWord with
  | none => exact Renaming.image_of_none hget
  | some x => exact absurd rfl (hf _ x hget).1.ne_if

theorem image (hf : f.Plain) {n : Text} (hn : VariableName n) : VariableName (f.image n) := by
  cases hget : f.get? n with
  | none =>
    rw [Renaming.image_of_none hget]
    exact hn
  | some x =>
    rw [Renaming.image_of_some hget]
    exact (hf n x hget).2

theorem slash_not_mem (hf : f.Plain) {s : Text} (hs : '/' ∉ s) : '/' ∉ rename f s :=
  not_mem_rename (fun a x h => (hf a x h).2.not_mem (by decide)) hs

end Renaming.Plain

theorem inheritedRenaming_plain {own : Method} {c : Contract}
    (hown : ∀ a ∈ own.receiver :: own.paramNames, a = [] ∨ VariableName a)
    (hsignature : ∀ a ∈ c.method.receiver :: c.method.paramNames, a = [] ∨ VariableName a)
    (htemps : ∀ t ∈ c.temporaries, VariableName t) (taken : List Text) (level : Nat) :
    (inheritedRenaming taken own c level).1.Plain := by
  intro a x h
  rw [(inheritedRenaming_spec taken own c level).1] at h
  rcases Option.or_eq_some_iff.1 h with h | ⟨-, h⟩
  · obtain ⟨ha, -, -, n, rfl⟩ := freshName?_eq_some h
    exact ⟨htemps a ha, (htemps a ha).tempCandidate level n⟩
  · rcases signatureRenaming_eq_some h with ⟨rfl, rfl⟩ | ⟨ha, ha0, hx, hx0⟩
    · exact ⟨variableName_receiverName (hsignature _ List.mem_cons_self),
        variableName_receiverName (hown _ List.mem_cons_self)⟩
    · exact ⟨(hsignature a (List.mem_cons_of_mem _ ha)).resolve_left ha0,
        (hown x (List.mem_cons_of_mem _ hx)).resolve_left hx0⟩

/-! ### guarded statements and assignments -/

/-- the statement runs only if the predicate holds -/
def GuardedWith (pre s : Text) : Prop := ∃ stmt, s = guardedBy pre stmt

theorem guardedBy_eq (pre stmt : Text) :
    guardedBy pre stmt
      = (ifWord ++ (' ' :: pre ++ [' '])) ++ '\x7b' :: (('\n' :: stmt ++ ['\n']) ++ ['\x7d']) := by
  show ("if " : Text) ++ pre ++ (" \x7b\n" : Text) ++ stmt ++ ("\n\x7d" : Text) = _
  simp [ifWord]

theorem guardedBy_ne_nil (pre stmt : Text) : guardedBy pre stmt ≠ [] := by
  have hif : ifWord ≠ [] := by decide
  rw [guardedBy_eq]
  exact List.append_ne_nil_of_left_ne_nil (List.append_ne_nil_of_left_ne_nil hif _) _

theorem rename_guardedBy {f : Renaming} (hf : f.Plain) {pre stmt : Text} (hpre : LiteralsClosed pre)
    (hstmt : LiteralsClosed stmt) :
    rename f (guardedBy pre stmt) = guardedBy (rename f pre) (rename f stmt) := by
  have hspace : ∀ c ∈ [' '], isLayout c = true := List.all_eq_true.1 (by decide)
  have hline : ∀ c ∈ ['\n'], isLayout c = true := List.all_eq_true.1 (by decide)
  have hclosed : ∀ {c : Char} {s : Text}, isLayout c = true → LiteralsClosed s →
      LiteralsClosed (c :: s ++ [c]) := by
    intro c s hc hs
    have hmark : LiteralsClosed [c] := by
      refine literalsClosed_of_isMark fun d hd => ?_
      rw [List.mem_singleton.1 hd]
      exact isMark_of_isLayout hc
    exact hmark.append (hs.append hmark)
  have hinside : rename f ('\n' :: stmt ++ ['\n']) = '\n' :: rename f stmt ++ ['\n'] := by
    show rename f (['\n'] ++ (stmt ++ ['\n'])) = _
    rw [rename_layout_append f hline, rename_append_layout f hstmt hline]
    rfl
  have hhead : rename f (ifWord ++ (' ' :: pre ++ [' ']))
      = ifWord ++ (' ' :: rename f pre ++ [' ']) := by
    have hend : EndsName (' ' :: pre ++ [' ']) := by
      intro c hc
      cases hc
      decide
    rw [rename, renameFrom_name f (by simp) (by decide) hend, hf.image_if,
      renameFrom_of_ne_point f (by decide)]
    congr 1
    show rename f ([' '] ++ (pre ++ [' '])) = _
    rw [rename_layout_append f hspace, rename_append_layout f hpre hspace]
    rfl
  have hif : LiteralsClosed (ifWord ++ (' ' :: pre ++ [' '])) := by
    have hword : LiteralsClosed ifWord := rfl
    exact hword.append (hclosed (by decide) hpre)
  rw [guardedBy_eq, rename_append_mark f hif (by decide) (by decide),
    rename_append_mark f (hclosed (by decide) hstmt) (by decide) (by decide), rename_empty, hhead,
    hinside, guardedBy_eq]

/-- the statement begins with the name of a variable, and its literals are closed -/
structure Assigns (s : Text) : Prop where
  target : VariableName (s.takeWhile isNamePart)
  closed : LiteralsClosed s

instance (s : Text) : Decidable (LiteralsClosed s) :=
  inferInstanceAs (Decidable (Quoting.code.after s = .code))

instance (s : Text) : Decidable (Assigns s) :=
  decidable_of_iff (VariableName (s.takeWhile isNamePart) ∧ LiteralsClosed s)
    ⟨fun h => ⟨h.1, h.2⟩, fun h => ⟨h.1, h.2⟩⟩

theorem not_guardedWith_of_name {n rest : Text} (hn : VariableName n) (hrest : EndsName rest)
    (pre : Text) : ¬GuardedWith pre (n ++ rest) := by
  rintro ⟨stmt, heq⟩
  have hparts := (takeWhile_name (isNamePart_of_isName hn.name) hrest).1
  rw [heq, guardedBy_eq] at hparts
  exact hn.ne_if hparts.symm

theorem Assigns.rename_eq {s : Text} (hs : Assigns s) {f : Renaming} (hf : f.Plain) :
    ∃ n rest, rename f s = n ++ rest ∧ VariableName n ∧ EndsName rest := by
  have hparts : s.takeWhile isNamePart ++ s.dropWhile isNamePart = s :=
    List.takeWhile_append_dropWhile
  have hend := endsName_dropWhile s
  refine ⟨f.image (s.takeWhile isNamePart), _, ?_, hf.image hs.target,
    endsName_renameFrom hf.keepsWords (s.takeWhile isNamePart).getLast? hend⟩
  have hname : rename f (s.takeWhile isNamePart ++ s.dropWhile isNamePart) = _ :=
    renameFrom_name f (by simp) hs.target.name hend
  rw [hparts] at hname
  exact hname

end ContractChecks
