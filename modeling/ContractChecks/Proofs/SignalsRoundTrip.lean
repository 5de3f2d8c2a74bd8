import ContractChecks.Directive.Form
import ContractChecks.Proofs.MatchingBrackets
import ContractChecks.Proofs.TrimmedNames

/-!
# Signals clauses read back from their texts

The text of a signals clause has its type and its variable in parentheses and its predicate after
them.  Reading it looks for the parenthesis that closes the first one and cuts what stands between
them at blanks.

* `words_solid`, `words_pair`: one or two words without blanks are found again;
* `Signals.Readable s`: type, variable and predicate can be told apart in the text of `s`;
* `Signals.parse_dropStart_text`: then reading the text gives `s`.
-/

namespace ContractChecks

/-! ### the words between the parentheses -/

/-- no blank in the text -/
def Unbroken (s : Text) : Prop := ∀ c ∈ s, isBlank c = false

theorem unbroken_of_any {s : Text} (h : s.any isBlank = false) : Unbroken s :=
  fun c hc => Bool.eq_false_iff.2 (List.any_eq_false.1 h c hc)

theorem wordsFrom_append {w : Text} (hw : Unbroken w) (run rest : Text) :
    Text.wordsFrom run (w ++ rest) = Text.wordsFrom (run ++ w) rest := by
  induction w generalizing run with
  | nil => rw [List.append_nil, List.nil_append]
  | cons c w ih =>
    rw [List.cons_append, Text.wordsFrom, hw c List.mem_cons_self, if_neg (by decide),
      ih fun d hd => hw d (List.mem_cons_of_mem c hd), List.append_assoc]
    rfl

theorem words_solid {w : Text} (hw : Unbroken w) (hne : w ≠ []) : Text.words w = [w] := by
  have hrun := wordsFrom_append hw [] []
  rw [List.append_nil, List.nil_append, Text.wordsFrom, List.isEmpty_eq_false_iff.2 hne] at hrun
  exact hrun

theorem words_pair {v w : Text} (hv : Unbroken v) (hvne : v ≠ []) (hw : Unbroken w)
    (hwne : w ≠ []) : Text.words (v ++ ' ' :: w) = [v, w] := by
  have hspace : isBlank ' ' = true := by decide
  rw [Text.words, wordsFrom_append hv, List.nil_append, Text.wordsFrom, if_pos hspace,
    List.isEmpty_eq_false_iff.2 hvne]
  exact congrArg (v :: ·) (words_solid hw hwne)

/-! ### reading the text of a clause -/

/-- type, variable and predicate as they can be told apart in the text of a clause -/
structure Signals.Readable (s : Signals) : Prop where
  type_ne : s.type ≠ []
  type_unbroken : Unbroken s.type
  type_nested : WellNested s.type
  var : s.var = [] ∨ isName s.var = true ∧ Unbroken s.var
  pred_ne : s.pred ≠ []
  pred_trimmed : s.pred.trim = s.pred

theorem Signals.dropStart_text (s : Signals) :
    Text.dropStart "signals " s.text = '(' :: (s.binding ++ ')' :: ' ' :: s.pred) := by
  have htext : s.text = ("signals " : Text) ++ '(' :: (s.binding ++ ')' :: ' ' :: s.pred) := by
    show "signals (" ++ s.binding ++ ") " ++ s.pred = _
    simp only [List.append_assoc]
    rfl
  rw [htext]
  rfl

namespace Signals.Readable

variable {s : Signals} (h : s.Readable)
include h

theorem typeOrAny : s.typeOrAny = s.type := by
  rw [Signals.typeOrAny, List.isEmpty_eq_false_iff.2 h.type_ne]
  rfl

theorem binding_nested : WellNested s.binding := by
  unfold Signals.binding
  rw [h.typeOrAny]
  split
  case isTrue => exact h.type_nested
  case isFalse hvar =>
    have hname : isName s.var = true := by
      rcases h.var with hnil | ⟨hname, -⟩
      · exact absurd (List.isEmpty_iff.2 hnil) hvar
      · exact hname
    exact (h.type_nested.append (wellNested_of_all rfl)).append (wellNested_of_isName hname)

theorem ofWords_binding (text : Text) :
    Signals.ofWords text s.pred (Text.words s.binding) = .ok s := by
  obtain ⟨type, var, pred⟩ := s
  unfold Signals.binding
  rw [h.typeOrAny]
  rcases h.var with hnil | ⟨hname, hunbroken⟩
  · obtain rfl : var = [] := hnil
    rw [List.isEmpty_nil, if_pos rfl, words_solid h.type_unbroken h.type_ne]
    rfl
  · have hne : var ≠ [] := by
      rintro rfl
      cases hname
    have hpair := words_pair h.type_unbroken h.type_ne hunbroken hne
    rw [List.isEmpty_eq_false_iff.2 hne, if_neg (by decide), List.append_assoc]
    show Signals.ofWords text pred (Text.words (type ++ ' ' :: var)) = _
    rw [hpair]
    exact if_pos hname

end Signals.Readable

/-- **A signals clause is read back from its text.** -/
theorem Signals.parse_dropStart_text {s : Signals} (h : s.Readable) :
    Signals.parse (Text.dropStart "signals " s.text) = .ok s := by
  have hpred : orTrue (Text.trim (' ' :: s.pred)) = s.pred := by
    rw [trim_cons_blank (by decide), h.pred_trimmed, orTrue, if_neg h.pred_ne]
  rw [Signals.dropStart_text, Signals.parse, cutClose_nested rfl rfl h.binding_nested]
  show Signals.ofWords _ (orTrue (Text.trim (' ' :: s.pred))) (Text.words s.binding) = .ok s
  rw [hpred, h.ofWords_binding]

/-- a type with all sorts of brackets and with a parenthesis in a literal -/
def timeoutSignals : Signals where
  type := "map[[len(`)`)]string]struct\x7b\x7d"
  var := "caught"
  pred := "len(caught) > 0 && note != \" )\""

theorem Signals.parse_dropStart_text_timeout :
    timeoutSignals.Readable ∧
      Signals.parse (Text.dropStart "signals " timeoutSignals.text) = .ok timeoutSignals := by
  have hreadable : timeoutSignals.Readable :=
    { type_ne := by decide
      type_unbroken := unbroken_of_any (by decide)
      type_nested := nests_of_check (by decide)
      var := .inr ⟨by decide, unbroken_of_any (by decide)⟩
      pred_ne := by decide
      pred_trimmed := by decide }
  exact ⟨hreadable, Signals.parse_dropStart_text hreadable⟩

end ContractChecks
