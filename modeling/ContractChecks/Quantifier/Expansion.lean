import ContractChecks.Quantifier.Loop

/-!
# Expansion of quantifiers

Every quantifier of a predicate is replaced by the call of a local closure, so that what remains
is a plain expression.  Closures are numbered in the order in which their quantifiers are met,
outer before inner; a number is used up even if its quantifier turns out to be malformed.

* `findQuantifier ls`: the first quantifier keyword among lexemes;
* `firstSpan? s`: the parenthesized span of the first quantifier of `s`;
* `expandFrom stem s`: the closures of the outermost quantifiers of `s` and the text that calls
  them; the closures of inner quantifiers are declared inside those of the outer ones;
* `Expander`: the numbering shared by all expansions for one wrapper.
-/

namespace ContractChecks

structure QuantifierCut where
  before : Text
  kind : QuantifierKind
  keyword : Text
  after : Text
deriving DecidableEq, Repr

def findQuantifier : List Lexeme → Option QuantifierCut
  | [] => none
  | l :: ls =>
    match l with
    | .keyword raw =>
      match QuantifierKind.ofKeyword? raw with
      | some k => some ⟨[], k, raw, unlex ls⟩
      | none => (findQuantifier ls).map fun x => { x with before := raw ++ x.before }
    | l => (findQuantifier ls).map fun x => { x with before := l.text ++ x.before }

def containsQuantifier (s : Text) : Bool := (findQuantifier (lexemes s)).isSome

theorem findQuantifier_append {ls : List Lexeme} {x : QuantifierCut}
    (h : findQuantifier ls = some x) : x.before ++ x.keyword ++ x.after = unlex ls := by
  induction ls generalizing x with
  | nil => cases h
  | cons l ls ih =>
    have step : ∀ t : Text, l.text = t →
        (findQuantifier ls).map (fun x => { x with before := t ++ x.before }) = some x →
        x.before ++ x.keyword ++ x.after = unlex (l :: ls) := by
      intro t ht hm
      obtain ⟨y, hy, rfl⟩ := Option.map_eq_some_iff.1 hm
      have h1 := ih hy
      simp only [unlex, List.flatMap_cons, ht, List.append_assoc] at h1 ⊢
      rw [h1]
    cases l with
    | keyword raw =>
      simp only [findQuantifier] at h
      split at h
      · cases h
        simp [unlex, Lexeme.text]
      · exact step raw rfl h
    | literal raw => exact step raw rfl h
    | name raw => exact step raw rfl h
    | number raw => exact step raw rfl h
    | other c => exact step [c] rfl h

/-- the first quantifier of a text with what stands around it -/
structure QuantifierSpan where
  kind : QuantifierKind
  /-- the text before the opening parenthesis -/
  head : Text
  /-- the quantifier with its parentheses -/
  text : Text
  /-- what stands between the keyword and the closing parenthesis -/
  inner : Text
  /-- the text after the closing parenthesis -/
  rest : Text
deriving DecidableEq, Repr

/-- the span of a quantifier whose keyword follows `head`, an opening parenthesis and `gap` -/
def spanOf (head gap : Text) (x : QuantifierCut) : Except QuantifierFault QuantifierSpan :=
  let span := '(' :: (gap ++ x.keyword ++ x.after)
  match cutClose span with
  | some (a, c :: rest) =>
    .ok ⟨x.kind, head, a ++ [c], a.drop (1 + gap.length + x.keyword.length), rest⟩
  | _ => .error ⟨span, .unbalanced⟩

def firstSpan? (s : Text) : Except QuantifierFault (Option QuantifierSpan) :=
  match findQuantifier (lexemes s) with
  | none => .ok none
  | some x =>
    let front := x.before.trimLayoutEnd
    if front.getLast? = some '(' then
      (spanOf front.dropLast (x.before.drop front.length) x).map some
    else .error ⟨x.keyword ++ x.after, .notParenthesized⟩

theorem length_spanOf {head gap : Text} {x : QuantifierCut} {p : QuantifierSpan}
    (h : spanOf head gap x = .ok p) :
    p.inner.length < 1 + gap.length + x.keyword.length + x.after.length ∧
      p.rest.length < 1 + gap.length + x.keyword.length + x.after.length := by
  simp only [spanOf] at h
  split at h
  · rename_i a c rest hc
    have h1 := congrArg List.length (cutClose_append hc)
    simp only [List.length_append, List.length_cons] at h1
    cases h
    simp only [List.length_drop]
    omega
  · cases h

/-- the inside of the first quantifier and the text after it are shorter than the text -/
theorem length_firstSpan? {s : Text} {p : QuantifierSpan} (h : firstSpan? s = .ok (some p)) :
    p.inner.length < s.length ∧ p.rest.length < s.length := by
  simp only [firstSpan?] at h
  split at h
  · cases h
  · rename_i x hx
    split at h
    · rename_i hlast
      cases hs : spanOf x.before.trimLayoutEnd.dropLast
          (x.before.drop x.before.trimLayoutEnd.length) x with
      | error e => rw [hs] at h; cases h
      | ok p' =>
        rw [hs] at h
        cases h
        have h1 := length_spanOf hs
        have h2 := congrArg List.length (findQuantifier_append hx)
        rw [concat_lexemes] at h2
        have h3 := Text.length_trimLayoutEnd_le x.before
        have h4 : 0 < x.before.trimLayoutEnd.length := by
          cases hf : x.before.trimLayoutEnd with
          | nil => rw [hf] at hlast; cases hlast
          | cons c r => simp
        simp only [List.length_append, List.length_drop] at h1 h2
        omega
    · cases h

/-- closures in the order of their declaration, and the text that calls them -/
structure Expansion where
  decls : List Text := []
  text : Text := []
deriving DecidableEq, Repr

/-- expansion can fail, and hands out the numbers of closures -/
abbrev ExpandM := ExceptT QuantifierFault (StateM Nat)

def freshNumber : ExpandM Nat := modifyGet fun n => (n, n + 1)

/-- expands the outermost quantifiers of a text, and within their closures the inner ones -/
def expandFrom (stem s : Text) : ExpandM Expansion :=
  match _h : firstSpan? s with
  | .error f => throw f
  | .ok none => pure ⟨[], s⟩
  | .ok (some p) => do
    let n ← freshNumber
    let name := stem ++ Text.ofNat n
    match _hq : Quantified.parse p.kind p.inner with
    | .error problem => throw ⟨p.text, problem⟩
    | .ok q =>
      let filters ← q.filters.attach.mapM fun g => expandFrom stem g.1
      let body ← expandFrom stem q.body
      let rest ← expandFrom stem p.rest
      let decl := q.closure name (filters.map fun e => (e.decls, e.text)) (body.decls, body.text)
      pure ⟨decl :: rest.decls, p.head ++ name ++ "()" ++ rest.text⟩
termination_by s.length
decreasing_by
  · have h1 := (length_firstSpan? _h).1
    have h2 := (Quantified.length_parse _hq).2 g.1 g.2
    omega
  · have h1 := (length_firstSpan? _h).1
    have h2 := (Quantified.length_parse _hq).1
    omega
  · exact (length_firstSpan? _h).2

/-- the beginning of every closure's name unless another is asked for -/
def defaultStem : Text := "racQuant"

/-- the numbering shared by the expansions for one wrapper -/
structure Expander where
  stem : Text := defaultStem
  next : Nat := 0
deriving DecidableEq, Repr

namespace Expander

/-- an expander whose closures are named after `stem`, or after the default if it is empty -/
def named (stem : Text) : Expander := { stem := if stem = [] then defaultStem else stem }

/-- expands every quantifier of a predicate after renaming it; the numbering goes on also after
a failure -/
def expand (e : Expander) (pred : Text) (f : Renaming) :
    Except QuantifierFault Expansion × Expander :=
  let p := (expandFrom e.stem (rename f pred)).run e.next
  (p.1, { e with next := p.2 })

end Expander

end ContractChecks
