import ContractChecks.Proofs.QuantifierOffsets
import ContractChecks.Proofs.ScopeNames
import ContractChecks.Wrapper.Imports

/-!
# Packages that a wrapper names

A wrapper names a package by a qualifier: a name that is no selector, with a point behind it.  The
imports of a wrapper are chosen by looking for names that touch their points, wherever they stand.
So a name with layout before its point is missed, and one that means a parameter or a temporary is
taken for a package.

* `Occurrence.touchesPoint`, `Occurrence.qualifies`: a point behind an occurrence, directly or after
  layout;
* `qualifiers_eq`: the names that are looked for are the occurrences that touch a point;
* `Wrapper.localNames w`: receiver, parameters and declared temporaries of `w`;
* `Wrapper.RefersTo w n`: a qualifier `n` of `w` that is no local name;
* `usedImports_exact_iff`: when the imports of a wrapper are exactly those it refers to.
-/

namespace ContractChecks

/-! ### points behind names -/

namespace Occurrence

def behind (s : Text) (o : Occurrence) : Text := (seekFrom 0 o.stop s).2

def touchesPoint (s : Text) (o : Occurrence) : Bool :=
  !o.selector && (o.behind s).head? == some '.'

/-- no selector, and a point behind it with nothing but layout in between -/
def qualifies (s : Text) (o : Occurrence) : Bool :=
  !o.selector && ((o.behind s).dropWhile isLayout).head? == some '.'

theorem qualifies_of_touchesPoint {s : Text} {o : Occurrence} (h : o.touchesPoint s = true) :
    o.qualifies s = true := by
  rw [touchesPoint, Bool.and_eq_true, beq_iff_eq] at h
  obtain ⟨r, hr⟩ : ∃ r, o.behind s = '.' :: r := by
    cases hs : o.behind s with
    | nil =>
      rw [hs] at h
      cases h.2
    | cons c r =>
      rw [hs] at h
      cases h.2
      exact ⟨r, rfl⟩
  rw [qualifies, h.1, hr]
  rfl

end Occurrence

theorem head?_lexemes_point (t : Text) :
    (lexemes t).head? = some (.other '.') ↔ t.head? = some '.' := by
  cases t with
  | nil =>
    rw [lexemes]
    exact iff_of_false (by simp) (by simp)
  | cons c r =>
    rw [lexemes, List.head?_cons, List.head?_cons, Option.some.injEq, Option.some.injEq]
    constructor
    · intro h
      have htext := firstLexeme_append c r
      rw [h] at htext
      exact (List.cons.inj htext).1.symm
    · rintro rfl
      rfl

/-- the text behind an occurrence decides whether it touches a point -/
theorem touchesPoint_append (front raw rest : Text) (selector : Bool) :
    Occurrence.touchesPoint (front ++ (raw ++ rest))
        ⟨raw, Text.bytes front, Text.bytes front + Text.bytes raw, selector⟩
      = (!selector && (lexemes rest).head? = some (.other '.')) := by
  have hseek := seekFrom_append 0 (front ++ raw) rest
  rw [Nat.zero_add, Text.bytes_append, List.append_assoc] at hseek
  rw [Occurrence.touchesPoint, Occurrence.behind, hseek]
  congr 1
  rw [Bool.eq_iff_iff, beq_iff_eq, decide_eq_true_eq]
  exact (head?_lexemes_point rest).symm

theorem qualifiersFrom_eq (front : Text) (last : Option Char) (t : Text) :
    qualifiersFrom last (lexemes t)
      = ((occurrencesFrom (Text.bytes front) last (lexemes t)).filter
          (Occurrence.touchesPoint (front ++ t))).map Occurrence.text := by
  fun_induction lexemes t generalizing front last with
  | case1 => rfl
  | case2 c r ih =>
    have htext := firstLexeme_append c r
    have hrest := ih (front ++ (firstLexeme c r).1.text) ((firstLexeme c r).1.lastMark last)
    rw [Text.bytes_append, List.append_assoc] at hrest
    rw [← htext]
    revert hrest
    generalize (firstLexeme c r).1 = l
    generalize (firstLexeme c r).2 = u
    intro hrest
    cases l with
    | keyword raw =>
      rw [occurrencesFrom, List.filter_cons, qualifiersFrom, hrest, Lexeme.text,
        touchesPoint_append]
      simp only [Bool.not_false, Bool.true_and, decide_eq_true_eq]
      split <;> rfl
    | name raw =>
      rw [occurrencesFrom, List.filter_cons, qualifiersFrom, hrest, Lexeme.text,
        touchesPoint_append, bne]
      split <;> rfl
    | literal raw => exact hrest
    | number raw => exact hrest
    | other d => exact hrest

theorem qualifiers_eq (s : Text) :
    qualifiers s
      = ((occurrences s).filter (Occurrence.touchesPoint s)).map Occurrence.text :=
  qualifiersFrom_eq [] none s

/-! ### names of a wrapper -/

namespace Wrapper

/-- the name `n` stands somewhere in the wrapper with a point directly behind it -/
def Touches (w : Wrapper) (n : Text) : Prop :=
  ∃ t ∈ w.texts, ∃ o ∈ occurrences t, o.text = n ∧ o.touchesPoint t = true

/-- the name `n` stands somewhere in the wrapper with a point behind it, up to layout -/
def Qualifies (w : Wrapper) (n : Text) : Prop :=
  ∃ t ∈ w.texts, ∃ o ∈ occurrences t, o.text = n ∧ o.qualifies t = true

/-- the temporaries that the statements declare, at any depth -/
def temporaryNames (w : Wrapper) : List Text :=
  namesOf (((flatten w.stmts).filter fun a => a.kind = .declare).map Action.text)

/-- receiver, parameters and temporaries -/
def localNames (w : Wrapper) : List Text := w.signatureNames ++ w.temporaryNames

/-- the wrapper names a package `n`: a qualifier that is no local name -/
structure RefersTo (w : Wrapper) (n : Text) : Prop where
  qualifies : w.Qualifies n
  free : n ∉ w.localNames

theorem Touches.qualifies {w : Wrapper} {n : Text} (h : w.Touches n) : w.Qualifies n := by
  obtain ⟨t, ht, o, ho, hn, hpoint⟩ := h
  exact ⟨t, ht, o, ho, hn, Occurrence.qualifies_of_touchesPoint hpoint⟩

theorem mem_usedImports {w : Wrapper} {imports : Imports} {e : Text × Text} :
    e ∈ w.usedImports imports ↔ e ∈ imports ∧ w.Touches e.1 := by
  have htouches : (w.texts.any fun t => (qualifiers t).contains e.1) = true ↔ w.Touches e.1 := by
    unfold Touches
    simp only [List.any_eq_true, List.contains_iff_mem, qualifiers_eq, List.mem_map,
      List.mem_filter]
    refine exists_congr fun t => and_congr_right fun _ => exists_congr fun o => ?_
    rw [and_assoc, and_comm (a := o.touchesPoint t = true)]
  rw [usedImports, List.mem_filter, htouches]

end Wrapper

/-- **When imports are exact.**  Every import of a wrapper is one of those given, with a name that is a
qualifier in the wrapper.  The imports are exactly those that the wrapper refers to if and only if
every given name that is a qualifier touches a point somewhere if it is no local name, and nowhere
if it is one. -/
theorem usedImports_exact_iff (w : Wrapper) (imports : Imports) :
    (∀ e ∈ w.usedImports imports, e ∈ imports ∧ w.Qualifies e.1) ∧
      ((∀ e, e ∈ w.usedImports imports ↔ e ∈ imports ∧ w.RefersTo e.1) ↔
        ∀ e ∈ imports, w.Qualifies e.1 → (w.Touches e.1 ↔ e.1 ∉ w.localNames)) := by
  refine ⟨?_, ?_, ?_⟩
  · intro e he
    obtain ⟨hmem, htouch⟩ := Wrapper.mem_usedImports.1 he
    exact ⟨hmem, htouch.qualifies⟩
  · intro hexact e he hqualifies
    constructor
    · intro htouch
      have hused := Wrapper.mem_usedImports.2 ⟨he, htouch⟩
      exact ((hexact e).1 hused).2.free
    · intro hfree
      have hused := (hexact e).2 ⟨he, hqualifies, hfree⟩
      exact (Wrapper.mem_usedImports.1 hused).2
  · intro hnames e
    rw [Wrapper.mem_usedImports]
    refine and_congr_right fun he => ⟨fun htouch => ?_, fun hrefers => ?_⟩
    · exact ⟨htouch.qualifies, (hnames e he htouch.qualifies).1 htouch⟩
    · exact (hnames e he hrefers.qualifies).2 hrefers.free

/-! ### a parameter with the name of a package -/

/-- a wrapper with a parameter `url`, whose check names the package `strings` with a space before the
point -/
def fetchWrapper : Wrapper where
  name := "racCheckPostFetch"
  callTarget := "Fetch(url)"
  params := [⟨"url", "Link", false⟩]
  stmts := [
    .leaf { phase := .checkPrecondition, kind := .check, text := "url.Host != \"\"" },
    .leaf { phase := .normalPath, kind := .check, text := "strings .Contains(url.Host, \".\")" }]

def fetchImports : Imports := [("strings", "strings"), ("url", "net/url")]

theorem not_exact_fetchWrapper :
    fetchWrapper.usedImports fetchImports = [(("url" : Text), ("net/url" : Text))] ∧
      fetchWrapper.RefersTo "strings" ∧ ¬fetchWrapper.RefersTo "url" := by
  refine ⟨by decide +kernel, ⟨?_, by decide +kernel⟩, ?_⟩
  · refine ⟨"strings .Contains(url.Host, \".\")", by decide +kernel, ⟨"strings", 0, 7, false⟩, ?_⟩
    decide +kernel
  · intro hrefers
    exact hrefers.free (by decide +kernel)

end ContractChecks
