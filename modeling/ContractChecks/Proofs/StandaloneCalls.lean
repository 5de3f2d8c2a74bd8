import ContractChecks.Proofs.ExpansionComplete
import ContractChecks.Proofs.SplicedNames

/-!
# Calls of closures as identifiers of a predicate

An expansion puts the name of a closure where the opening parenthesis of a quantifier was.  Nothing
is written before the name, so it is an identifier of its own exactly if the text before the
parenthesis leaves it apart.

* `closureCount s`: how many numbers the expansion of `s` uses up; `expandFrom_closureCount`;
* `outermost n s`: the outermost quantifiers of `s` with their numbers, and `afterQuantifiers s`,
  the text behind them; `CutAtQuantifiers`: how they cut a text;
* `identifiersWithCalls`: the identifiers of a text with a call in place of each quantifier;
* `Expander.identifiers_expand_iff`: when these are the identifiers of the expanded predicate.
-/

namespace ContractChecks

/-! ### numbers -/

/-- the closures that the expansion of a text declares, with those inside of others -/
def closureCount (s : Text) : Nat :=
  match _h : firstSpan? s with
  | .ok (some p) =>
    match _hq : Quantified.parse p.kind p.inner with
    | .ok q =>
      1 + (q.filters.attach.map fun g => closureCount g.1).foldr Nat.add 0 + closureCount q.body
        + closureCount p.rest
    | .error _ => 0
  | _ => 0
termination_by s.length
decreasing_by
  · have h1 := (length_firstSpan? _h).1
    have h2 := (Quantified.length_parse _hq).2 g.1 g.2
    omega
  · have h1 := (length_firstSpan? _h).1
    have h2 := (Quantified.length_parse _hq).1
    omega
  · exact (length_firstSpan? _h).2

/-- the closures that are declared for one quantifier: its own, and those inside of it -/
def Quantified.closureCount (q : Quantified) : Nat :=
  1 + (q.filters.map ContractChecks.closureCount).foldr Nat.add 0
    + ContractChecks.closureCount q.body

theorem closureCount_plain {s : Text} (h : firstSpan? s = .ok none) : closureCount s = 0 := by
  rw [closureCount]
  split
  · rename_i hspan
    cases h.symm.trans hspan
  · rfl

theorem closureCount_span {s : Text} {p : QuantifierSpan} {q : Quantified}
    (hspan : firstSpan? s = .ok (some p)) (hread : Quantified.parse p.kind p.inner = .ok q) :
    closureCount s = q.closureCount + closureCount p.rest := by
  rw [closureCount]
  split
  · rename_i p' hspan'
    cases hspan.symm.trans hspan'
    split
    · rename_i q' hread'
      cases hread.symm.trans hread'
      rw [List.attach_map_val]
      rfl
    · rename_i hread'
      cases hread.symm.trans hread'
  · rename_i hnone
    exact absurd hspan (hnone p)

theorem ExpandM.mapM_number {α β : Type} {g : α → ExpandM β} (size : α → Nat) (l : List α)
    (hg : ∀ x ∈ l, ∀ n y m, (g x).run n = (.ok y, m) → m = n + size x) :
    ∀ {n m : Nat} {ys : List β}, (l.mapM g).run n = (.ok ys, m) →
      m = n + (l.map size).foldr Nat.add 0 := by
  induction l with
  | nil =>
    intro n m ys h
    cases h
    rfl
  | cons x l ih =>
    intro n m ys h
    rw [List.mapM_cons] at h
    obtain ⟨y, n₁, hy, h⟩ := bind_eq_ok h
    obtain ⟨zs, n₂, hz, h⟩ := bind_eq_ok h
    cases h
    rw [ih (fun x hx => hg x (List.mem_cons_of_mem _ hx)) hz, hg x List.mem_cons_self n y n₁ hy,
      Nat.add_assoc]
    rfl

theorem expandFrom_closureCount {stem s : Text} {x : Expansion} {n m : Nat}
    (h : (expandFrom stem s).run n = (.ok x, m)) : m = n + closureCount s := by
  induction hlen : s.length using Nat.strongRecOn generalizing s x n m with
  | _ len ih =>
    subst hlen
    rcases expandFrom_run h with ⟨hspan, -, rfl⟩ | ⟨p, q, filters, body, rest, m₁, m₂, hspan, hq,
      hfilters, hbody, hrest, -⟩
    · rw [closureCount_plain hspan]
      rfl
    · obtain ⟨hinner, hshort⟩ := length_firstSpan? hspan
      obtain ⟨hbodyLen, hfilterLen⟩ := Quantified.length_parse hq
      have h₁ := ExpandM.mapM_number closureCount q.filters (fun g hg n e m he =>
        ih _ (Nat.lt_of_le_of_lt (hfilterLen g hg) hinner) he rfl) hfilters
      have h₂ := ih _ (Nat.lt_of_le_of_lt hbodyLen hinner) hbody rfl
      have h₃ := ih _ hshort hrest rfl
      rw [closureCount_span hspan hq, Quantified.closureCount]
      omega

/-! ### outermost quantifiers -/

def QuantifierSpan.closureCount (p : QuantifierSpan) : Nat :=
  match Quantified.parse p.kind p.inner with
  | .ok q => q.closureCount
  | .error _ => 0

theorem QuantifierSpan.closureCount_eq {p : QuantifierSpan} {q : Quantified}
    (h : Quantified.parse p.kind p.inner = .ok q) : p.closureCount = q.closureCount := by
  rw [QuantifierSpan.closureCount, h]

/-- the outermost quantifiers of a text with the numbers of their closures, from `n` on; an outer
closure is numbered before those inside of it -/
def outermost (n : Nat) (s : Text) : List (QuantifierSpan × Nat) :=
  match _h : firstSpan? s with
  | .ok (some p) => (p, n) :: outermost (n + p.closureCount) p.rest
  | _ => []
termination_by s.length
decreasing_by exact (length_firstSpan? _h).2

def afterQuantifiers (s : Text) : Text :=
  match _h : firstSpan? s with
  | .ok (some p) => afterQuantifiers p.rest
  | _ => s
termination_by s.length
decreasing_by exact (length_firstSpan? _h).2

theorem outermost_plain {s : Text} (h : firstSpan? s = .ok none) (n : Nat) :
    outermost n s = [] ∧ afterQuantifiers s = s := by
  rw [outermost, afterQuantifiers]
  split
  · rename_i hspan
    cases h.symm.trans hspan
  · exact ⟨rfl, rfl⟩

theorem outermost_span {s : Text} {p : QuantifierSpan} (h : firstSpan? s = .ok (some p)) (n : Nat) :
    outermost n s = (p, n) :: outermost (n + p.closureCount) p.rest ∧
      afterQuantifiers s = afterQuantifiers p.rest := by
  rw [outermost, afterQuantifiers]
  split
  · rename_i p' hspan
    cases h.symm.trans hspan
    exact ⟨rfl, rfl⟩
  · rename_i hnone
    exact absurd h (hnone p)

theorem spanOf_text {head gap : Text} {x : QuantifierCut} {p : QuantifierSpan}
    (h : spanOf head gap x = .ok p) :
    p.head = head ∧ '(' :: (gap ++ x.keyword ++ x.after) = p.text ++ p.rest ∧
      ∃ a c, p.text = '(' :: (a ++ [c]) ∧ LiteralsClosed a ∧ isClosing c = true := by
  simp only [spanOf] at h
  split at h
  case h_2 => cases h
  case h_1 a c rest hcut =>
    cases h
    obtain ⟨ha, d, r, hd, hclosing⟩ := cutClose_closed hcut
    cases hd
    have happend := cutClose_append hcut
    refine ⟨rfl, by rw [← happend, List.append_assoc]; rfl, ?_⟩
    cases a with
    | nil =>
      cases happend
      cases hclosing
    | cons d a =>
      rw [List.cons_append] at happend
      obtain ⟨rfl, -⟩ := List.cons.inj happend
      exact ⟨a, c, rfl, LiteralsClosed.of_append (a := ['(']) rfl ha, hclosing⟩

/-- a text is cut at its first quantifier, from its parenthesis to the bracket that closes it -/
theorem firstSpan?_text {s : Text} {p : QuantifierSpan} (h : firstSpan? s = .ok (some p)) :
    s = p.head ++ (p.text ++ p.rest) ∧
      ∃ a c, p.text = '(' :: (a ++ [c]) ∧ LiteralsClosed a ∧ isClosing c = true := by
  simp only [firstSpan?] at h
  split at h
  · cases h
  rename_i x hx
  split at h
  case isFalse => cases h
  case isTrue hlast =>
    obtain ⟨r, hr, he⟩ := except_map_eq_ok h
    cases he
    obtain ⟨hbefore, -⟩ := eq_append_of_getLast? hlast
    obtain ⟨hhead, htext, hparts⟩ := spanOf_text hr
    have hs := findQuantifier_append hx
    rw [concat_lexemes, hbefore] at hs
    refine ⟨?_, hparts⟩
    rw [← htext, hhead, ← hs, List.append_assoc, List.append_assoc, List.cons_append,
      List.append_assoc]

theorem identifiers_span {s : Text} {p : QuantifierSpan} (h : firstSpan? s = .ok (some p)) :
    identifiers s = identifiers p.head ++ identifiers p.text ++ identifiers p.rest := by
  obtain ⟨hs, a, c, htext, ha, hc⟩ := firstSpan?_text h
  obtain ⟨hmark, hlayout⟩ := isMark_of_isClosing hc
  have hhead := (firstSpan?_spec h).1
  have hnil : identifiers [] = [] := by
    rw [identifiers_eq, lexemes]
    rfl
  rw [hs, htext, List.cons_append, List.append_assoc, List.singleton_append,
    identifiers_append_mark hhead (by decide) (by decide), identifiers_append_mark ha hmark hlayout,
    identifiers_cons_mark (by decide) (by decide), identifiers_append_mark ha hmark hlayout, hnil,
    List.append_nil, List.append_assoc]

/-- the spans hold all quantifiers of a text, and cut the text and its identifiers into pieces -/
structure CutAtQuantifiers (s : Text) (ps : List (QuantifierSpan × Nat)) (after : Text) : Prop where
  text : s = ps.flatMap (fun p => p.1.head ++ p.1.text) ++ after
  identifiers_eq : identifiers s
    = ps.flatMap (fun p => identifiers p.1.head ++ identifiers p.1.text) ++ identifiers after
  heads : ∀ p ∈ ps, containsQuantifier p.1.head = false
  after : containsQuantifier after = false

theorem Expanded.cutAtQuantifiers {stem s : Text} {x : Expansion} (h : Expanded stem s x)
    (n : Nat) : CutAtQuantifiers s (outermost n s) (afterQuantifiers s) := by
  refine Expanded.induction (motive := fun s _ =>
    ∀ n, CutAtQuantifiers s (outermost n s) (afterQuantifiers s)) ?_ ?_ h n
  · intro s hspan n
    rw [(outermost_plain hspan n).1, (outermost_plain hspan n).2]
    exact ⟨rfl, rfl, by simp, quantifierFree_of_firstSpan? hspan⟩
  · intro s p q _ filters body rest hspan _ _ _ hrest n
    obtain ⟨hcons, hafter⟩ := outermost_span hspan n
    obtain ⟨htext, hidentifiers, hheads, hfree⟩ := hrest (n + p.closureCount)
    rw [hcons, hafter]
    refine ⟨?_, ?_, List.forall_mem_cons.2 ⟨(firstSpan?_spec hspan).2.1, hheads⟩, hfree⟩
    · rw [List.flatMap_cons, List.append_assoc, ← htext, List.append_assoc,
        ← (firstSpan?_text hspan).1]
    · rw [List.flatMap_cons, List.append_assoc, ← hidentifiers, identifiers_span hspan]

/-! ### calls -/

/-- the identifiers of a text with the name of a closure in place of each outermost quantifier -/
def identifiersWithCalls (stem : Text) (n : Nat) (s : Text) : List (Text × Bool) :=
  (outermost n s).flatMap (fun p => identifiers p.1.head ++ [(stem ++ Text.ofNat p.2, false)])
    ++ identifiers (afterQuantifiers s)

theorem identifiers_call {head n rest : Text} (hhead : LiteralsClosed head) (hn : isName n = true) :
    identifiers (head ++ (n ++ '(' :: ')' :: rest))
      = identifiersFrom none (spliceName n (lexemes head)) ++ identifiers rest := by
  have hopen : isMark '(' = true := by decide
  rw [identifiers_eq, lexemes_append_name hhead hn (startsFresh_cons hopen _),
    identifiersFrom_append, identifiersFrom_mark hopen (by decide),
    identifiers_cons_mark (by decide) (by decide)]

/-- the induction behind the iff: a name that was taken in leaves too few identifiers, whatever
happens later in the text -/
theorem identifiers_expandFrom {stem : Text} (hstem : isName stem = true) {s : Text}
    {x : Expansion} {n m : Nat} (h : (expandFrom stem s).run n = (.ok x, m)) :
    (identifiers x.text = identifiersWithCalls stem n s ↔
        ∀ p ∈ outermost n s, StandsApart p.1.head) ∧
      (identifiers x.text).length ≤ (identifiersWithCalls stem n s).length := by
  induction hlen : s.length using Nat.strongRecOn generalizing s x n m with
  | _ len ih =>
    subst hlen
    rcases expandFrom_run h with ⟨hspan, rfl, -⟩ | ⟨p, q, filters, body, rest, m₁, m₂, hspan, hq,
      hfilters, hbody, hrest, rfl⟩
    · obtain ⟨hnone, hafter⟩ := outermost_plain hspan n
      rw [identifiersWithCalls, hnone, hafter]
      exact ⟨iff_of_true rfl (by simp), Nat.le_refl _⟩
    · have hnumber : n + p.closureCount = m₂ := by
        have hall := expandFrom_closureCount h
        have hlater := expandFrom_closureCount hrest
        rw [closureCount_span hspan hq] at hall
        rw [QuantifierSpan.closureCount_eq hq]
        omega
      obtain ⟨hcons, hafter⟩ := outermost_span hspan n
      rw [hnumber] at hcons
      obtain ⟨hiff, hle⟩ := ih _ (length_firstSpan? hspan).2 hrest rfl
      have hexpected : identifiersWithCalls stem n s
          = identifiersFrom none (lexemes p.head)
            ++ (stem ++ Text.ofNat n, false) :: identifiersWithCalls stem m₂ p.rest := by
        rw [identifiersWithCalls, hcons, hafter, List.flatMap_cons, ← identifiers_eq,
          identifiersWithCalls]
        simp only [List.append_assoc, List.cons_append, List.nil_append]
      rw [text_replaced, identifiers_call (firstSpan?_spec hspan).1 (closureName_spec hstem n).1,
        hexpected, hcons, List.forall_mem_cons]
      refine ⟨(identifiersFrom_spliceName _ _ _ hle).trans (and_congr_right' hiff), ?_⟩
      have hsplice := length_identifiersFrom_spliceName (stem ++ Text.ofNat n) none (lexemes p.head)
      rw [List.length_append, List.length_append, List.length_cons]
      omega

/-- the identifiers of an expanded predicate are those of the renamed predicate, with one call in
place of those in each outermost quantifier, exactly if no parenthesis of a quantifier directly
follows a name, a keyword, a number or a backslash, or, up to layout, a point -/
theorem Expander.identifiers_expand_iff {e e' : Expander} (hstem : isName e.stem = true)
    {pred : Text} {f : Renaming} {x : Expansion} (h : e.expand pred f = (.ok x, e')) :
    CutAtQuantifiers (rename f pred) (outermost e.next (rename f pred))
        (afterQuantifiers (rename f pred)) ∧
      (identifiers x.text
          = (outermost e.next (rename f pred)).flatMap
              (fun p => identifiers p.1.head ++ [(e.stem ++ Text.ofNat p.2, false)])
            ++ identifiers (afterQuantifiers (rename f pred)) ↔
        ∀ p ∈ outermost e.next (rename f pred), StandsApart p.1.head) := by
  cases hp : (expandFrom e.stem (rename f pred)).run e.next with
  | mk r m =>
    rw [Expander.expand, hp] at h
    cases h
    have hrun : Expanded e.stem (rename f pred) x := ⟨e.next, m, hp⟩
    exact ⟨hrun.cutAtQuantifiers e.next, (identifiers_expandFrom hstem hp).1⟩

/-- two outermost quantifiers, with another one inside the first -/
def separatedPredicate : Text :=
  "ok && (\\forall i int; 0 <= i && i < n; (\\exists k := range m; k == i)) || "
    ++ "!(\\exists v := range m; v)"

theorem identifiers_separatedPredicate :
    isName defaultStem = true ∧
      (({} : Expander).expand separatedPredicate []).1.map Expansion.text
        = .ok "ok && racQuant0() || !racQuant2()" ∧
      identifiers "ok && racQuant0() || !racQuant2()"
        = (outermost 0 separatedPredicate).flatMap
            (fun p => identifiers p.1.head ++ [("racQuant" ++ Text.ofNat p.2, false)])
          ++ identifiers (afterQuantifiers separatedPredicate) := by
  have hstem : isName defaultStem = true := by decide
  have htext : (({} : Expander).expand separatedPredicate []).1.map Expansion.text
      = .ok "ok && racQuant0() || !racQuant2()" := by
    -- the kernel is slow in reading the characters of a literal, so they are put in its place
    unfold separatedPredicate
    repeat rw [String.toList_ofList]
    decide +kernel
  have hplain : rename [] separatedPredicate = separatedPredicate := by
    unfold separatedPredicate
    repeat rw [String.toList_ofList]
    decide +kernel
  obtain ⟨x, hx, hcalls⟩ := except_map_eq_ok htext
  have hiff := (Expander.identifiers_expand_iff hstem (Prod.ext hx rfl)).2
  rw [hplain, hcalls] at hiff
  refine ⟨hstem, htext, hiff.2 ?_⟩
  unfold separatedPredicate
  repeat rw [String.toList_ofList]
  decide +kernel

def calledPredicate : Text := "ok(\\forall i int; 0 <= i && i < n; p(i))"

/-- the parentheses of the call are taken for those of the quantifier, and the names run together -/
theorem identifiers_calledPredicate :
    (({} : Expander).expand calledPredicate []).1.map Expansion.text = .ok "okracQuant0()" ∧
      identifiers "okracQuant0()" = [(("okracQuant0" : Text), false)] ∧
      (outermost 0 calledPredicate).flatMap
            (fun p => identifiers p.1.head ++ [("racQuant" ++ Text.ofNat p.2, false)])
          ++ identifiers (afterQuantifiers calledPredicate)
        = [(("ok" : Text), false), (("racQuant0" : Text), false)] := by
  unfold calledPredicate
  repeat rw [String.toList_ofList]
  decide +kernel

end ContractChecks
