import ContractChecks.Source.Literal
import ContractChecks.Text.Blank

/-!
# Brackets

All three bracket sorts are counted together, and literals are passed over.

* `cutClose s`: `s` up to the bracket that closes the one at its start, and the rest from that
  bracket on;
* `matchClose s start`: the same with byte offsets into a longer text;
* `cutTop sep s`: the raw pieces of `s` between the occurrences of `sep` outside brackets and
  literals, `[s]` if `sep` is empty; `splitTop sep s` are the pieces trimmed;
* `SplitState.step`: a round of the scan for those pieces, which goes on behind each separator;
  behind an empty one it stands where it stood before;
* `splitTop? sep s`: the outcome of that scan, `none` if it never comes to an end.
-/

namespace ContractChecks

/-- the text up to the closing bracket at which the depth comes back to zero, and the text from
that bracket on -/
def cutCloseFrom (st : Quoting) (depth : Int) : Text → Option (Text × Text)
  | [] => none
  | c :: r =>
    if st = .code && isClosing c && st.depthAfter depth c = 0 then some ([], c :: r)
    else (cutCloseFrom (st.next c) (st.depthAfter depth c) r).map fun p => (c :: p.1, p.2)

def cutClose (s : Text) : Option (Text × Text) := cutCloseFrom .code 0 s

theorem cutCloseFrom_append {st : Quoting} {depth : Int} {s a b : Text}
    (h : cutCloseFrom st depth s = some (a, b)) : a ++ b = s := by
  induction s generalizing st depth a b with
  | nil => simp [cutCloseFrom] at h
  | cons c r ih =>
    simp only [cutCloseFrom] at h
    split at h
    · simp at h
      simp [← h.1, ← h.2]
    · obtain ⟨⟨x, y⟩, hp, he⟩ := Option.map_eq_some_iff.1 h
      simp only [Prod.mk.injEq] at he
      rw [← he.1, ← he.2, List.cons_append, ih hp]

theorem cutClose_append {s a b : Text} (h : cutClose s = some (a, b)) : a ++ b = s :=
  cutCloseFrom_append h

/-- the trimmed inside of a text that is one pair of parentheses -/
def enclosed? (s : Text) : Option Text :=
  if s.startsWith "(" then
    match cutClose s with
    | some (a, [_]) => some (Text.trim (a.drop 1))
    | _ => none
  else none

/-- the first character boundary at or after byte `start`, with the text from there on, of a text
that starts at byte `pos` -/
def seekFrom (pos start : Nat) : Text → Nat × Text
  | [] => (pos, [])
  | c :: r => if start ≤ pos then (pos, c :: r) else seekFrom (pos + c.utf8Size) start r

/-- the byte offset of the bracket that closes the one at byte `start` -/
def matchClose (s : Text) (start : Nat) : Option Nat :=
  let p := seekFrom 0 start s
  (cutClose p.2).map fun q => p.1 + q.1.bytes

/-- a character put in front of the first piece -/
def consPiece (c : Char) : List Text → List Text
  | [] => [[c]]
  | p :: ps => (c :: p) :: ps

/-- a separator outside brackets and literals starts with the character `c` -/
def separates (sep : Text) (st : Quoting) (depth : Int) (c : Char) (r : Text) : Bool :=
  st = .code && isInert c && depth = 0 && sep.isPrefixOf (c :: r)

theorem separates_iff {sep : Text} {st : Quoting} {depth : Int} {c : Char} {r : Text} :
    separates sep st depth c r = true ↔
      st = .code ∧ isInert c = true ∧ depth = 0 ∧ sep <+: c :: r := by
  simp only [separates, Bool.and_eq_true, decide_eq_true_eq, List.isPrefixOf_iff_prefix, and_assoc]

/-- where a scan for pieces stands: the parts found, the piece read since, and what is left -/
structure SplitState where
  quoting : Quoting := .code
  depth : Int := 0
  parts : List Text := []
  piece : Text := []
  rest : Text

namespace SplitState

/-- one round of the scan: all parts if nothing is left, else where it goes on; a separator is left
out, and the scan goes on behind it -/
def step (sep : Text) (x : SplitState) : List Text ⊕ SplitState :=
  match x.rest with
  | [] => .inl (x.parts ++ [x.piece.trim])
  | c :: r =>
    if separates sep x.quoting x.depth c r then
      .inr { parts := x.parts ++ [x.piece.trim], rest := (c :: r).drop sep.length }
    else
      .inr { quoting := x.quoting.next c, depth := x.quoting.depthAfter x.depth c
             parts := x.parts, piece := x.piece ++ [c], rest := r }

/-- the parts that are found in at most `n` rounds -/
def run (sep : Text) : Nat → SplitState → Option (List Text)
  | 0, _ => none
  | n + 1, x =>
    match x.step sep with
    | .inl parts => some parts
    | .inr y => y.run sep n

section

variable {sep : Text} {st : Quoting} {depth : Int} {c : Char} {r : Text}

theorem run_separated (h : separates sep st depth c r = true) (n : Nat) (parts : List Text)
    (piece : Text) :
    run sep (n + 1) ⟨st, depth, parts, piece, c :: r⟩
      = run sep n { parts := parts ++ [piece.trim], rest := (c :: r).drop sep.length } := by
  simp only [run, step, if_pos h]

theorem run_passed (h : ¬separates sep st depth c r = true) (n : Nat) (parts : List Text)
    (piece : Text) :
    run sep (n + 1) ⟨st, depth, parts, piece, c :: r⟩
      = run sep n ⟨st.next c, st.depthAfter depth c, parts, piece ++ [c], r⟩ := by
  simp only [run, step, if_neg h]

end

end SplitState

/-- the trimmed pieces of `s` between the occurrences of `sep` outside brackets and literals; `none`
is a scan without an end, since no scan that has one takes more rounds -/
def splitTop? (sep s : Text) : Option (List Text) :=
  SplitState.run sep (s.length + 1) { rest := s }

/-- the raw pieces between separators that are not empty; `skip` characters of a separator are still
to be passed -/
def cutTopFrom (sep : Text) (st : Quoting) (depth : Int) (skip : Nat) : Text → List Text
  | [] => [[]]
  | c :: r =>
    match skip with
    | k + 1 => cutTopFrom sep .code depth k r
    | 0 =>
      if !sep.isEmpty && separates sep st depth c r then
        [] :: cutTopFrom sep .code 0 (sep.length - 1) r
      else
        consPiece c (cutTopFrom sep (st.next c) (st.depthAfter depth c) 0 r)

def cutTop (sep s : Text) : List Text := cutTopFrom sep .code 0 0 s

/-- what `splitTop?` finds if it comes to an end, as it does with every `sep` that is not empty -/
def splitTop (sep s : Text) : List Text := (cutTop sep s).map Text.trim

theorem mem_consPiece {c : Char} {ps : List Text} {p : Text} (h : p ∈ consPiece c ps) :
    p.length ≤ 1 ∨ ∃ q ∈ ps, p.length ≤ q.length + 1 := by
  cases ps with
  | nil =>
    left
    simp [consPiece] at h
    simp [h]
  | cons q qs =>
    right
    simp only [consPiece, List.mem_cons] at h
    rcases h with h | h
    · exact ⟨q, List.mem_cons_self, by simp [h]⟩
    · exact ⟨p, List.mem_cons_of_mem _ h, Nat.le_succ _⟩

theorem length_le_of_mem_cutTopFrom {sep : Text} {st : Quoting} {depth : Int} {skip : Nat}
    {s p : Text} (h : p ∈ cutTopFrom sep st depth skip s) : p.length ≤ s.length := by
  induction s generalizing st depth skip p with
  | nil =>
    simp [cutTopFrom] at h
    simp [h]
  | cons c r ih =>
    unfold cutTopFrom at h
    split at h
    · exact Nat.le_succ_of_le (ih h)
    · split at h
      · rcases List.mem_cons.1 h with h | h
        · simp [h]
        · exact Nat.le_succ_of_le (ih h)
      · rcases mem_consPiece h with h | ⟨q, hq, hl⟩
        · simp only [List.length_cons]; omega
        · have := ih hq
          simp only [List.length_cons]; omega

/-- no piece is longer than the text it was cut from -/
theorem length_le_of_mem_splitTop {sep s p : Text} (h : p ∈ splitTop sep s) :
    p.length ≤ s.length := by
  obtain ⟨q, hq, rfl⟩ := List.mem_map.1 h
  exact Nat.le_trans (Text.length_trim_le q) (length_le_of_mem_cutTopFrom hq)

end ContractChecks
