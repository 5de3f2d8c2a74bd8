import ContractChecks.Quantifier.Bound
import ContractChecks.Quantifier.Fault
import ContractChecks.Source.Bracket

/-!
# Quantified expressions

The supported forms are

* `(\forall i int; 0 <= i && i < len(xs); xs[i] > 0)`
* `(\exists i, j int; 0 <= i && i < n && i < j && j < n; xs[i] == xs[j])`
* `(\num_of k, v := range m; v > 0)`
* `(\sum i int64; 1 <= i && i <= n; i * i)`

A typed quantifier must bound each of its variables from below and from above with a conjunct of
its range; any other conjunct is a filter.  The range form runs over a collection and may have a
filter before the body.

* `QuantifierKind`: the four keywords;
* `Loop`: one loop of the nest, with its header text;
* `Quantified`: loops, filters and body of a quantifier, read by `Quantified.parse`;
* `Quantified.closure`: the closure that computes its value.
-/

namespace ContractChecks

inductive QuantifierKind where
  | all
  | any
  | count
  | sum
deriving DecidableEq, Repr

namespace QuantifierKind

def keyword : QuantifierKind → Text
  | .all => "\\forall"
  | .any => "\\exists"
  | .count => "\\num_of"
  | .sum => "\\sum"

def ofKeyword? (s : Text) : Option QuantifierKind :=
  [QuantifierKind.all, .any, .count, .sum].find? fun k => k.keyword = s

end QuantifierKind

inductive Loop where
  /-- over a collection, with the variables that the body reads -/
  | range (key value : Option Text) (clause : Text)
  /-- over the values from `init` on that satisfy the relation to `limit` -/
  | counting (var init : Text) (rel : Relation) (limit : Text)
deriving DecidableEq, Repr

namespace Loop

def header : Loop → Text
  | .range none none clause => "for " ++ clause
  | .range (some k) none clause => "for " ++ k ++ " := " ++ clause
  | .range k (some v) clause => "for " ++ k.getD "_" ++ ", " ++ v ++ " := " ++ clause
  | .counting var init rel limit =>
    "for " ++ var ++ " := " ++ init ++ "; " ++ var ++ " " ++ rel.text ++ " " ++ limit ++ "; "
      ++ var ++ "++"

end Loop

structure Quantified where
  kind : QuantifierKind
  /-- the type of a sum -/
  type : Text
  loops : List Loop
  filters : List Text
  body : Text
deriving DecidableEq, Repr

/-! ### reading -/

/-- the names of a declaration such as `i, j int`, and what follows them -/
def declNames? (s : Text) : Option (List Text × Text) :=
  let name := leadingName s
  if name = [] then none
  else
    match _h : Text.trim (s.drop name.length) with
    | [] => some ([name], [])
    | c :: r =>
      if c = ',' then (declNames? (Text.trim r)).map fun p => (name :: p.1, p.2)
      else some ([name], c :: r)
termination_by s.length
decreasing_by
  have h1 := Text.length_trim_le (s.drop name.length)
  have h2 := Text.length_trim_le r
  simp only [_h, List.length_cons, List.length_drop] at h1
  omega

def parseDecl (decl : Text) : Except QuantifierProblem (List Text × Text) :=
  match declNames? decl.trim with
  | none => .error (.badDeclaration decl)
  | some (names, type) =>
    if type = [] then .error (.missingType decl) else .ok (names, type)

/-- the start of a loop over a variable of a type -/
def startText (type lo : Text) : Text := if type = "int" then lo else type ++ "(" ++ lo ++ ")"

/-- one loop for each variable; each takes its bounds from the conjuncts -/
def countingLoops (type : Text) :
    List Text → List Conjunct → Except QuantifierProblem (List Loop × List Conjunct)
  | [], cs => .ok ([], cs)
  | v :: vs, cs =>
    let p := findBound v (v :: vs) {} cs
    match p.1.lower, p.1.upper with
    | none, _ => .error (.noLowerBound v)
    | some _, none => .error (.noUpperBound v)
    | some lo, some hi =>
      match countingLoops type vs p.2 with
      | .error e => .error e
      | .ok q => .ok (.counting v (startText type lo) hi.1 hi.2 :: q.1, q.2)

theorem texts_countingLoops {type : Text} {vs : List Text} {cs : List Conjunct}
    {p : List Loop × List Conjunct} (h : countingLoops type vs cs = .ok p) :
    p.2.map Conjunct.text = cs.map Conjunct.text := by
  induction vs generalizing cs p with
  | nil =>
    simp only [countingLoops, Except.ok.injEq] at h
    rw [← h]
  | cons v vs ih =>
    simp only [countingLoops] at h
    split at h
    · simp at h
    · simp at h
    · split at h
      · simp at h
      · rename_i q hq
        simp only [Except.ok.injEq] at h
        rw [← h, ih hq, texts_findBound]

/-- the conjuncts that have not served as bounds -/
def remainingFilters (cs : List Conjunct) : List Text :=
  (cs.filter fun c => !c.used && c.text != []).map Conjunct.text

def readVariable (used var : Text) : Option Text :=
  if var != ['_'] && references used var then some var else none

/-- the loop of a range binding `lhs := clause` -/
def rangeLoop (lhs clause used : Text) : Except QuantifierProblem Loop :=
  let vars := splitTop "," lhs
  if vars.all isName then
    match vars with
    | [k] => .ok (.range (readVariable used k) none clause)
    | [k, v] => .ok (.range (readVariable used k) (readVariable used v) clause)
    | _ => .error (.badRangeVariables lhs)
  else .error (.badRangeVariables lhs)

namespace Quantified

/-- the range form; `parts` follow the binding `lhs := rhs` -/
def parseRange (kind : QuantifierKind) (lhs rhs : Text) (parts : List Text) :
    Except QuantifierProblem Quantified :=
  let clause := rhs.trim
  if !clause.startsWith "range " then .error .noRangeClause
  else
    match parts with
    | [body] =>
      if kind = .sum then .error .untypedSum
      else do
        let loop ← rangeLoop lhs clause body
        .ok ⟨kind, [], [loop], [], body⟩
    | [filter, body] =>
      if kind = .sum then .error .untypedSum
      else do
        let loop ← rangeLoop lhs clause (body ++ " " ++ filter)
        .ok ⟨kind, [], [loop], [filter], body⟩
    | _ => .error .rangeParts

/-- the typed form; `parts` follow the declaration -/
def parseTyped (kind : QuantifierKind) (decl : Text) (parts : List Text) :
    Except QuantifierProblem Quantified :=
  match parts with
  | [range, body] => do
    let p ← parseDecl decl
    let q ← countingLoops p.2 p.1 ((splitTop "&&" range).map fun t => { text := t })
    .ok ⟨kind, p.2, q.1, remainingFilters q.2, body⟩
  | _ => .error .typedParts

/-- either form, with a body that may be empty -/
def parseForm (kind : QuantifierKind) : List Text → Except QuantifierProblem Quantified
  | [] => .error .typedParts
  | binding :: parts =>
    match Text.cut? ":=" binding with
    | some p => parseRange kind p.1 p.2 parts
    | none => parseTyped kind binding parts

/-- reads what stands between the keyword and the closing parenthesis -/
def parse (kind : QuantifierKind) (inner : Text) : Except QuantifierProblem Quantified := do
  let q ← parseForm kind (splitTop ";" inner)
  if q.body = [] then .error .emptyBody else .ok q

theorem parseRange_parts {kind : QuantifierKind} {lhs rhs : Text} {parts : List Text}
    {q : Quantified} (h : parseRange kind lhs rhs parts = .ok q) :
    q.body ∈ parts ∧ ∀ g ∈ q.filters, g ∈ parts := by
  simp only [parseRange, bind, Except.bind] at h
  split at h
  · cases h
  · split at h
    · split at h
      · cases h
      · split at h
        · cases h
        · cases h
          simp
    · split at h
      · cases h
      · split at h
        · cases h
        · cases h
          simp
    · cases h

theorem parseTyped_parts {kind : QuantifierKind} {decl : Text} {parts : List Text}
    {q : Quantified} (h : parseTyped kind decl parts = .ok q) :
    q.body ∈ parts ∧ ∀ g ∈ q.filters, ∃ p ∈ parts, g.length ≤ p.length := by
  simp only [parseTyped, bind, Except.bind] at h
  split at h
  · rename_i range body
    split at h
    · cases h
    · split at h
      · cases h
      · rename_i ls hl
        cases h
        refine ⟨by simp, ?_⟩
        intro g hg
        refine ⟨range, by simp, ?_⟩
        obtain ⟨c, hc, rfl⟩ := List.mem_map.1 hg
        have h1 : c.text ∈ ls.2.map Conjunct.text :=
          List.mem_map_of_mem (List.mem_filter.1 hc).1
        rw [texts_countingLoops hl, List.map_map] at h1
        obtain ⟨t, ht, he⟩ := List.mem_map.1 h1
        rw [← he]
        exact length_le_of_mem_splitTop ht
  · cases h

/-- body and filters are no longer than the text they were read from -/
theorem length_parse {kind : QuantifierKind} {inner : Text} {q : Quantified}
    (h : parse kind inner = .ok q) :
    q.body.length ≤ inner.length ∧ ∀ g ∈ q.filters, g.length ≤ inner.length := by
  have hs : ∀ p ∈ splitTop ";" inner, p.length ≤ inner.length :=
    fun p hp => length_le_of_mem_splitTop hp
  simp only [parse, bind, Except.bind] at h
  split at h
  · cases h
  · rename_i q' hq
    split at h
    · cases h
    · cases h
      cases hp : splitTop ";" inner with
      | nil => simp only [hp, parseForm] at hq; cases hq
      | cons binding parts =>
        rw [hp] at hs
        simp only [hp, parseForm] at hq
        split at hq
        · obtain ⟨h1, h2⟩ := parseRange_parts hq
          exact ⟨hs _ (List.mem_cons_of_mem _ h1),
            fun g hg => hs _ (List.mem_cons_of_mem _ (h2 g hg))⟩
        · obtain ⟨h1, h2⟩ := parseTyped_parts hq
          refine ⟨hs _ (List.mem_cons_of_mem _ h1), fun g hg => ?_⟩
          obtain ⟨p, hp1, hp2⟩ := h2 g hg
          exact Nat.le_trans hp2 (hs _ (List.mem_cons_of_mem _ hp1))

/-! ### writing -/

/-- the head of the closure -/
def opening (q : Quantified) (name : Text) : Text :=
  match q.kind with
  | .all => name ++ " := func() bool \x7b\n"
  | .any => name ++ " := func() bool \x7b\n"
  | .count => name ++ " := func() (racCount int64) \x7b\n"
  | .sum => name ++ " := func() (racSum " ++ q.type ++ ") \x7b\n"

/-- what is done with the value of the body -/
def step (q : Quantified) (body : Text) : Text :=
  match q.kind with
  | .all => "if !(" ++ body ++ ") \x7b\nreturn false\n\x7d\n"
  | .any => "if " ++ body ++ " \x7b\nreturn true\n\x7d\n"
  | .count => "if " ++ body ++ " \x7b\nracCount++\n\x7d\n"
  | .sum => "racSum += " ++ body ++ "\n"

/-- the value after the last loop -/
def closing (q : Quantified) : Text :=
  match q.kind with
  | .all => "return true\n"
  | .any => "return false\n"
  | _ => "return\n"

def skipUnless (filters : List Text) : Text :=
  if filters.isEmpty then []
  else "if !(" ++ Text.join " && " filters ++ ") \x7b\ncontinue\n\x7d\n"

def onLines (ts : List Text) : Text := ts.flatMap fun t => t ++ ['\n']

/-- the closure `name`, where `filters` and `body` are the expanded parts with the closures they
call -/
def closure (q : Quantified) (name : Text) (filters : List (List Text × Text))
    (body : List Text × Text) : Text :=
  q.opening name
    ++ onLines (q.loops.map fun l => l.header ++ " \x7b")
    ++ onLines (filters.flatMap Prod.fst)
    ++ skipUnless (filters.map Prod.snd)
    ++ onLines body.1
    ++ q.step body.2
    ++ onLines (q.loops.map fun _ => ("\x7d" : Text))
    ++ q.closing
    ++ "\x7d"

end Quantified

end ContractChecks
