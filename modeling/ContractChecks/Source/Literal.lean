import ContractChecks.Text.Blank

/-!
# Literals in source text

A literal opens with a quotation mark (double, single or back quote) and runs to the next mark of
the same sort.  Inside the first two sorts a backslash takes away the meaning of the character
after it.  A literal that is never closed runs to the end of the text.

* `Quoting`: where a scan stands with respect to literals, with its step `Quoting.next`;
  `Quoting.Proper`: a literal was opened by a quotation mark, so nothing else closes it;
* `literalTail q s`: the rest of the literal opened by `q`, and the text after it;
* `Quoting.depthAfter`: the bracket depth after one more character;
* `isInert`: the characters that neither open nor close anything.
-/

namespace ContractChecks

def isQuoteMark (c : Char) : Bool := c = '\x22' || c = '\x27' || c = '\x60'

theorem isQuoteMark_cases {c : Char} (h : isQuoteMark c = true) :
    c = '\x22' ∨ c = '\x27' ∨ c = '\x60' := by
  simpa [isQuoteMark, or_assoc] using h

/-- whether a backslash has a meaning between two marks `q` -/
def escapes (q : Char) : Bool := q != '\x60'

inductive Quoting where
  /-- outside every literal -/
  | code
  /-- inside a literal opened by the mark -/
  | within (mark : Char)
  /-- inside a literal, just after a backslash -/
  | escaped (mark : Char)
deriving DecidableEq, Repr

namespace Quoting

def next : Quoting → Char → Quoting
  | .code, c => if isQuoteMark c then .within c else .code
  | .within q, c =>
    if c = '\\' && escapes q then .escaped q
    else if c = q then .code
    else .within q
  | .escaped q, _ => .within q

/-- where a scan stands after a whole text -/
def after (st : Quoting) (s : Text) : Quoting := s.foldl next st

theorem after_nil (st : Quoting) : st.after [] = st := rfl

theorem after_cons (st : Quoting) (c : Char) (s : Text) :
    st.after (c :: s) = (st.next c).after s := rfl

theorem after_append (st : Quoting) (s t : Text) : st.after (s ++ t) = (st.after s).after t := by
  simp [after]

end Quoting

theorem next_code {c : Char} (h : isQuoteMark c = false) : Quoting.code.next c = .code := by
  show (if isQuoteMark c then Quoting.within c else .code) = .code
  rw [h]
  rfl

/-- literals are opened by quotation marks only -/
def Quoting.Proper : Quoting → Prop
  | .code => True
  | .within q => isQuoteMark q = true
  | .escaped q => isQuoteMark q = true

theorem Quoting.Proper.next {st : Quoting} (h : st.Proper) (c : Char) : (st.next c).Proper := by
  cases st with
  | code =>
    show (if isQuoteMark c then Quoting.within c else .code).Proper
    by_cases hc : isQuoteMark c = true
    · rw [if_pos hc]
      exact hc
    · rw [if_neg hc]
      trivial
  | within q =>
    show (if c = '\\' && escapes q then Quoting.escaped q
      else if c = q then .code else .within q).Proper
    split
    · exact h
    · split
      · trivial
      · exact h
  | escaped q => exact h

theorem Quoting.Proper.after {st : Quoting} (h : st.Proper) (s : Text) : (st.after s).Proper := by
  induction s generalizing st with
  | nil => exact h
  | cons c s ih => exact ih (h.next c)

theorem eq_code_of_next {st : Quoting} (h : st.Proper) {c : Char} (hc : isQuoteMark c = false)
    (hnext : st.next c = .code) : st = .code := by
  cases st with
  | code => rfl
  | within q =>
    have hq : c ≠ q := by
      rintro rfl
      rw [show isQuoteMark c = true from h] at hc
      cases hc
    change (if c = '\\' && escapes q then Quoting.escaped q
      else if c = q then .code else .within q) = .code at hnext
    rw [if_neg hq] at hnext
    split at hnext <;> cases hnext
  | escaped q => cases hnext

theorem eq_code_of_after {st : Quoting} (h : st.Proper) {s : Text}
    (hs : ∀ c ∈ s, isQuoteMark c = false) (hafter : st.after s = .code) : st = .code := by
  induction s generalizing st with
  | nil => exact hafter
  | cons c s ih =>
    have hnext := ih (h.next c) (fun d hd => hs d (List.mem_cons_of_mem c hd)) hafter
    exact eq_code_of_next h (hs c List.mem_cons_self) hnext

/-- the rest of a literal opened by `q` with its closing mark, and the text after it -/
def literalTail (q : Char) : Text → Text × Text
  | [] => ([], [])
  | [c] => ([c], [])
  | c :: d :: r =>
    if c = '\\' && escapes q then
      let p := literalTail q r
      (c :: d :: p.1, p.2)
    else if c = q then ([c], d :: r)
    else
      let p := literalTail q (d :: r)
      (c :: p.1, p.2)

theorem literalTail_append (q : Char) (s : Text) :
    (literalTail q s).1 ++ (literalTail q s).2 = s := by
  fun_induction literalTail q s with
  | case1 => rfl
  | case2 c => rfl
  | case3 c d r h p ih => simpa [p] using ih
  | case4 d r h => rfl
  | case5 c d r h1 h2 p ih => simpa [p] using ih

theorem length_literalTail_le (q : Char) (s : Text) : (literalTail q s).2.length ≤ s.length := by
  have h := congrArg List.length (literalTail_append q s)
  simp at h
  omega

def isOpening (c : Char) : Bool := c = '(' || c = '[' || c = '\x7b'

def isClosing (c : Char) : Bool := c = ')' || c = ']' || c = '\x7d'

/-- what a character outside literals does to the bracket depth -/
def bracketStep (c : Char) : Int :=
  if isOpening c then 1 else if isClosing c then -1 else 0

/-- the bracket depth after a character; brackets inside literals do not count -/
def Quoting.depthAfter (st : Quoting) (depth : Int) (c : Char) : Int :=
  if st = .code then depth + bracketStep c else depth

/-! ### characters that change nothing -/

/-- neither a quotation mark nor a bracket -/
def isInert (c : Char) : Bool := !isQuoteMark c && !isOpening c && !isClosing c

theorem isInert_spec {c : Char} (h : isInert c = true) :
    isQuoteMark c = false ∧ bracketStep c = 0 := by
  simp only [isInert, Bool.and_eq_true, Bool.not_eq_true'] at h
  refine ⟨h.1.1, ?_⟩
  rw [bracketStep, h.1.2, h.2]
  rfl

def nestingMarks : List Char := ['\x22', '\x27', '\x60', '(', '[', '\x7b', ')', ']', '\x7d']

/-- a class of characters without quotation marks and brackets -/
theorem isInert_of_class {p : Char → Bool} (hp : nestingMarks.any p = false) {c : Char}
    (h : p c = true) : isInert c = true := by
  cases hc : isInert c with
  | true => rfl
  | false =>
    have hmem : c ∈ nestingMarks := by
      refine Decidable.byContradiction fun hnot => ?_
      simp only [nestingMarks, List.mem_cons, List.not_mem_nil, or_false, not_or] at hnot
      simp [isInert, isQuoteMark, isOpening, isClosing, hnot] at hc
    rw [List.any_eq_true.2 ⟨c, hmem, h⟩] at hp
    cases hp

theorem isInert_of_isBlank {c : Char} (h : isBlank c = true) : isInert c = true :=
  isInert_of_class (by decide) h

theorem not_isQuoteMark_of_isBlank {c : Char} (h : isBlank c = true) : isQuoteMark c = false :=
  (isInert_spec (isInert_of_isBlank h)).1

end ContractChecks
