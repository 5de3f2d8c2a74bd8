import ContractChecks.Proofs.RangeMeaning

/-!
# The values that the loops of a quantifier run over

A typed quantifier runs over the values that satisfy the conjuncts of its range, each of which is a
limit of a loop or a filter.  A chain of comparisons that is taken for one of its sides, because the
other limit was there before, is neither on its other side.

* `Loop.keeps type k l`: the loop `l` makes the comparison `k`; `exists_keeps`: a loop makes one of
  the comparisons of each conjunct taken as a bound;
* `BoundedLoops.inOrder`, `BoundedLoops.within`, `BoundedLoops.compares`: loops whose limits come
  from conjuncts, and their limits;
* `droppedComparisons`: comparisons of conjuncts taken as bounds which no loop makes;
* `Quantified.holds_range_iff`: the values in the range are those with which the loops come to the
  body past the filters, as far as they satisfy the dropped comparisons.
-/

namespace ContractChecks

/-! ### loops -/

def Loop.keeps (type : Text) (k : Comparison) : Loop → Bool
  | .counting var init rel limit =>
    match simpleBound? var k.lhs k.rel k.rhs with
    | some ⟨some lo, none⟩ => startText type lo = init
    | some ⟨none, some u⟩ => u = (rel, limit)
    | _ => false
  | .range .. => false

/-- a single comparison bounds a variable on one side at most -/
theorem oneSided_simpleBound? {v lhs rhs : Text} {rel : Relation} {b : Bound}
    (h : simpleBound? v lhs rel rhs = some b) : b.lower = none ∨ b.upper = none := by
  have hupper : ∀ rel limit, (upperBound rel limit).lower = none := by
    intro rel limit
    unfold upperBound
    split <;> rfl
  unfold simpleBound? at h
  split at h
  · cases h
    split
    · exact .inl (hupper _ _)
    · exact .inr (upper_lowerBound _ _)
  split at h
  · cases h
    split
    · exact .inr (upper_lowerBound _ _)
    · exact .inl (hupper _ _)
  · cases h

/-- a loop makes the comparison from which it has one of its limits -/
theorem keeps_of_side {type v lo : Text} {u : Relation × Text} {k : Comparison} {b : Bound}
    (h : simpleBound? v k.lhs k.rel k.rhs = some b) (hside : b.lower = some lo ∨ b.upper = some u) :
    (Loop.counting v (startText type lo) u.1 u.2).keeps type k = true := by
  obtain ⟨lower, upper⟩ := b
  have hone := oneSided_simpleBound? h
  rw [Loop.keeps, h]
  rcases hside with hlo | hu
  · cases hlo
    cases hone.resolve_left (by simp)
    exact decide_eq_true rfl
  · cases hu
    cases hone.resolve_right (by simp)
    exact decide_eq_true rfl

/-- of a conjunct that gave a loop one of its limits, the loop makes one comparison -/
theorem exists_keeps {names : List Text} {type v c lo : Text} {u : Relation × Text} {b : Bound}
    (hv : v ∈ names) (hb : bound? v c = some b) (hchain : chainsAround names v c = true)
    (hside : b.lower = some lo ∨ b.upper = some u) :
    ∃ k ∈ comparisonsIn names c,
      (Loop.counting v (startText type lo) u.1 u.2).keeps type k = true := by
  rcases bound?_cases hv hb hchain with ⟨k, hks, hk⟩ | ⟨k, k', a, a', hks, hk, hk', rfl⟩
  · rw [hks]
    exact ⟨k, List.mem_cons_self, keeps_of_side hk hside⟩
  · rw [hks]
    rcases hside with hlo | hu
    · exact ⟨k, List.mem_cons_self, keeps_of_side hk (.inl hlo)⟩
    · exact ⟨k', by simp, keeps_of_side hk' (.inr hu)⟩

/-- the comparisons of conjuncts taken as bounds that no loop makes -/
def droppedComparisons (names : List Text) (type : Text) (cs : List Text) (q : Quantified) :
    List Comparison :=
  ((cs.filter fun c => !q.filters.contains c).flatMap (comparisonsIn names)).filter fun k =>
    !q.loops.any (Loop.keeps type k)

/-- every conjunct accepted as a bound of a variable, if it has a second comparison of a variable,
is a chain around the variable it bounds -/
def ReadAsMeant (names cs : List Text) : Prop :=
  ∀ us v vs, us ++ v :: vs = names → ∀ c ∈ cs, ∀ b, BoundsFrom v vs c b →
    chainsAround names v c = true

section
variable {names : List Text} {type : Text} {I : Interpretation names type}

theorem Loop.Within.compares {var init limit : Text} {rel : Relation} {k : Comparison} {env : Env}
    (hvar : var ∈ names) (hk : (Loop.counting var init rel limit).keeps type k = true)
    (h : (Loop.counting var init rel limit).Within I.value env) : I.Compares k env := by
  simp only [Loop.keeps] at hk
  split at hk
  · rename_i lo hb
    have hstart : startText type lo = init := by simpa using hk
    refine (Interpretation.says_simpleBound? hvar hb env).holds (by simp) ⟨?_, by simp⟩
    rintro t ⟨⟩
    rw [← Interpretation.value_startText, hstart]
    exact h.1
  · rename_i u hb
    have hlimit : u = (rel, limit) := by simpa using hk
    refine (Interpretation.says_simpleBound? hvar hb env).holds (by simp) ⟨by simp, ?_⟩
    rintro t ⟨⟩
    rw [hlimit]
    exact h.2
  · cases hk

variable {cs : List Text}

/-- limits accepted for a variable depend only on the variables before it -/
theorem BoundedLoops.inOrder {vs : List Text} {ls : List Loop} (h : BoundedLoops type cs vs ls)
    (us : List Text) (hnames : us ++ vs = names) (hdistinct : names.Nodup)
    (hclosed : ∀ c ∈ cs, LiteralsClosed c) (hvars : ∀ v ∈ names, LiteralsClosed v) :
    InOrder I.value us vs ls := by
  induction h generalizing us with
  | nil => exact .nil
  | @cons v lo limit rel vs ls lower upper inner ih =>
    have hsettled := I.settled us (v :: vs) hnames
    have hv : LiteralsClosed v := hvars v (by simp [← hnames])
    have hlimits : ∀ {c : Text} {b : Bound}, c ∈ cs → BoundsFrom v vs c b →
        (∀ t ∈ b.lower, referencesAny t (v :: vs) = false) ∧
          ∀ u ∈ b.upper, referencesAny u.2 (v :: vs) = false := fun hc hb =>
      referencesAny_limits (literalsClosed_partProperty.bound? hv hb.1 (hclosed _ hc)) hb.2
    obtain ⟨c, hc, b, hb, hlo⟩ := lower
    obtain ⟨d, hd, b', hb', hup⟩ := upper
    have hfirst := hsettled lo ((hlimits hc hb).1 lo hlo)
    refine .cons ?_ (upward_bound? hb'.1 hup) ?_ (hsettled limit ((hlimits hd hb').2 _ hup)) ?_
    · intro hmem
      rw [← hnames] at hdistinct
      exact (List.nodup_append.1 hdistinct).2.2 v hmem v List.mem_cons_self rfl
    · intro env env' heq
      rw [Interpretation.value_startText, Interpretation.value_startText]
      exact hfirst env env' heq
    · exact ih (us ++ [v]) (by rw [List.append_assoc]; exact hnames)

theorem BoundedLoops.within {vs : List Text} {ls : List Loop} (h : BoundedLoops type cs vs ls)
    (us : List Text) (hnames : us ++ vs = names) (hread : ReadAsMeant names cs) {env : Env}
    (hrange : ∀ c ∈ cs, I.Holds c env) : ∀ l ∈ ls, l.Within I.value env := by
  induction h generalizing us with
  | nil => simp
  | @cons v lo limit rel vs ls lower upper inner ih =>
    have hv : v ∈ names := by simp [← hnames]
    have hmeets : ∀ {c : Text} {b : Bound}, c ∈ cs → BoundsFrom v vs c b → I.Meets v b env :=
      fun hc hb => (hrange _ hc).meets hv hb.1 (hread us v vs hnames _ hc _ hb)
    obtain ⟨c, hc, b, hb, hlo⟩ := lower
    obtain ⟨d, hd, b', hb', hup⟩ := upper
    refine List.forall_mem_cons.2 ⟨⟨?_, (hmeets hd hb').upper _ hup⟩,
      ih (us ++ [v]) (by rw [List.append_assoc]; exact hnames)⟩
    rw [Interpretation.value_startText]
    exact (hmeets hc hb).lower lo hlo

/-- a comparison that some loop makes holds within the limits of the loops -/
theorem BoundedLoops.compares {vs : List Text} {ls : List Loop} (h : BoundedLoops type cs vs ls)
    (us : List Text) (hnames : us ++ vs = names) {env : Env}
    (hwithin : ∀ l ∈ ls, l.Within I.value env) {k : Comparison}
    (hk : ls.any (Loop.keeps type k) = true) : I.Compares k env := by
  induction h generalizing us with
  | nil => cases hk
  | @cons v lo limit rel vs ls lower upper inner ih =>
    rw [List.forall_mem_cons] at hwithin
    rw [List.any_cons, Bool.or_eq_true] at hk
    rcases hk with hk | hk
    · exact hwithin.1.compares (by simp [← hnames]) hk
    · exact ih (us ++ [v]) (by rw [List.append_assoc]; exact hnames) hwithin.2 hk

end

/-! ### ranges -/

theorem mem_droppedComparisons {names cs : List Text} {type : Text} {q : Quantified}
    {k : Comparison} :
    k ∈ droppedComparisons names type cs q ↔
      (∃ c ∈ cs, c ∉ q.filters ∧ k ∈ comparisonsIn names c) ∧
        q.loops.any (Loop.keeps type k) = false := by
  simp [droppedComparisons, and_assoc]

theorem comparisonsIn_pair {names : List Text} {c : Text} {k k' : Comparison}
    (hk : k ∈ comparisonsIn names c) (hk' : k' ∈ comparisonsIn names c) (hne : k ≠ k') :
    comparisonsIn names c = [k, k'] ∨ comparisonsIn names c = [k', k] := by
  have hshort : (∃ x, comparisonsIn names c = [x]) ∨ comparisonsIn names c = [] ∨
      ∃ x y, comparisonsIn names c = [x, y] := by
    unfold comparisonsIn
    split
    · exact .inr (.inl rfl)
    split
    · exact .inl ⟨_, rfl⟩
    split
    · exact .inr (.inr ⟨_, _, rfl⟩)
    · exact .inl ⟨_, rfl⟩
  rcases hshort with ⟨x, hx⟩ | hx | ⟨x, y, hx⟩
  · rw [hx, List.mem_singleton] at hk hk'
    exact absurd (hk.trans hk'.symm) hne
  · rw [hx] at hk
    cases hk
  · rw [hx] at hk hk' ⊢
    simp only [List.mem_cons, List.not_mem_nil, or_false] at hk hk'
    rcases hk with rfl | rfl
    · rcases hk' with rfl | rfl
      · exact absurd rfl hne
      · exact .inl rfl
    · rcases hk' with rfl | rfl
      · exact .inr rfl
      · exact absurd rfl hne

section
variable {names cs : List Text} {type : Text} {q : Quantified}

/-- a conjunct is a filter, or empty, or a loop makes one of its comparisons -/
theorem exists_keeps_of_not_filter (hread : ReadAsMeant names cs) {r : List Loop × List Conjunct}
    (hloops : countingLoops type names (cs.map fun t => { text := t }) = .ok r) {c : Text}
    (hc : c ∈ cs) (hfilter : c ∉ remainingFilters r.2) (hne : c ≠ []) :
    ∃ k ∈ comparisonsIn names c, r.1.any (Loop.keeps type k) = true := by
  obtain ⟨us, v, ws, b, lo, u, hnames, hb, hl, hside⟩ :=
    limit_of_not_filter hloops hc hne hfilter
  have hv : v ∈ names := by simp [← hnames]
  obtain ⟨k, hk, hkeep⟩ := exists_keeps hv hb.1 (hread us v ws hnames c hc b hb) hside
  exact ⟨k, hk, List.any_eq_true.2 ⟨_, hl, hkeep⟩⟩

variable (hkept : ∀ c ∈ cs, c ∉ q.filters → c ≠ [] →
  ∃ k ∈ comparisonsIn names c, q.loops.any (Loop.keeps type k) = true)
include hkept

/-- a comparison is dropped from a chain of which a loop makes the other one -/
theorem pair_of_dropped {k : Comparison} (hk : k ∈ droppedComparisons names type cs q) :
    ∃ c ∈ cs, ∃ k', q.loops.any (Loop.keeps type k') = true ∧
      (comparisonsIn names c = [k, k'] ∨ comparisonsIn names c = [k', k]) := by
  obtain ⟨⟨c, hc, hfilter, hkc⟩, hdrop⟩ := mem_droppedComparisons.1 hk
  have hnil : c ≠ [] := by
    rintro rfl
    cases hkc
  obtain ⟨k', hk', hkeep⟩ := hkept c hc hfilter hnil
  have hne : k ≠ k' := by
    rintro rfl
    cases hdrop.symm.trans hkeep
  exact ⟨c, hc, k', hkeep, comparisonsIn_pair hkc hk' hne⟩

/-- the conjuncts hold exactly within the limits of the loops, if the filters hold and what was
dropped -/
theorem holds_iff_within (I : Interpretation names type) (hread : ReadAsMeant names cs)
    (hbounded : BoundedLoops type cs names q.loops) (hsub : ∀ g ∈ q.filters, g ∈ cs) (env : Env) :
    (∀ c ∈ cs, I.Holds c env) ↔
      (∀ l ∈ q.loops, l.Within I.value env) ∧ (∀ g ∈ q.filters, I.Holds g env) ∧
        ∀ k ∈ droppedComparisons names type cs q, I.Compares k env := by
  constructor
  · intro hrange
    refine ⟨hbounded.within [] rfl hread hrange, fun g hg => hrange g (hsub g hg), ?_⟩
    intro k hk
    obtain ⟨⟨c, hc, -, hkc⟩, -⟩ := mem_droppedComparisons.1 hk
    exact (hrange c hc).compares k hkc
  · rintro ⟨hwithin, hpassed, hdropped⟩ c hc
    by_cases hfilter : c ∈ q.filters
    · exact hpassed c hfilter
    by_cases hnil : c = []
    · rw [hnil]
      exact Interpretation.holds_nil env
    -- a conjunct that was taken as a bound: a loop makes its comparison, or it is dropped
    obtain ⟨x, hx, -⟩ := hkept c hc hfilter hnil
    refine Interpretation.holds_of_compares (List.ne_nil_of_mem hx) fun k hk => ?_
    cases hkeep : q.loops.any (Loop.keeps type k) with
    | true => exact hbounded.compares [] rfl hwithin hkeep
    | false => exact hdropped k (mem_droppedComparisons.2 ⟨⟨c, hc, hfilter, hk⟩, hkeep⟩)

end

/-- the values in the range of a typed quantifier are those with which its loops come to the body
past the filters, as far as they satisfy the comparisons that were dropped; what is dropped is one
comparison of a chain, of which a loop makes the other -/
theorem Quantified.holds_range_iff {s decl range body type : Text} {p : QuantifierSpan}
    {names : List Text} {q : Quantified} (hspan : firstSpan? s = .ok (some p))
    (hparts : splitTop ";" p.inner = [decl, range, body]) (htyped : Text.cut? ":=" decl = none)
    (hdecl : parseDecl decl = .ok (names, type)) (hq : Quantified.parse p.kind p.inner = .ok q)
    (hdistinct : names.Nodup) (hread : ReadAsMeant names (splitTop "&&" range)) :
    (∀ (I : Interpretation names type) (env : Env) (xs : List Int),
      (xs.length = names.length ∧ ∀ c ∈ splitTop "&&" range, I.Holds c (assign names xs env)) ↔
        (Reaches I.value q.loops env xs ∧ ∀ g ∈ q.filters, I.Holds g (assign names xs env)) ∧
          ∀ k ∈ droppedComparisons names type (splitTop "&&" range) q,
            I.Compares k (assign names xs env)) ∧
      ∀ k ∈ droppedComparisons names type (splitTop "&&" range) q,
        ∃ c ∈ splitTop "&&" range, ∃ k', q.loops.any (Loop.keeps type k') = true ∧
          (comparisonsIn names c = [k, k'] ∨ comparisonsIn names c = [k', k]) := by
  obtain ⟨r, hloops, hr, hfilters⟩ := parse_typed hparts htyped hdecl hq
  have hP := literalsClosed_partProperty
  have hpieces := hP.splitTop (m := ";") (by decide) (firstSpan?_spec hspan).2.2.1
  rw [hparts] at hpieces
  have hconjuncts := hP.splitTop (m := "&&") (by decide) (hpieces range (by simp))
  have hvars := (hP.parseDecl hdecl (hpieces decl (by simp))).1
  have hbounded : BoundedLoops type (splitTop "&&" range) names q.loops :=
    hr ▸ boundedLoops_countingLoops hloops
  have hsub : ∀ g ∈ q.filters, g ∈ splitTop "&&" range :=
    hfilters ▸ remainingFilters_subset hloops
  have hkept : ∀ c ∈ splitTop "&&" range, c ∉ q.filters → c ≠ [] →
      ∃ k ∈ comparisonsIn names c, q.loops.any (Loop.keeps type k) = true := by
    rw [hr, hfilters]
    exact fun c hc => exists_keeps_of_not_filter hread hloops hc
  refine ⟨fun I env xs => ?_, fun k => pair_of_dropped hkept⟩
  have horder := hbounded.inOrder (I := I) [] rfl hdistinct hconjuncts hvars
  rw [horder.reaches_iff env xs, holds_iff_within hkept I hread hbounded hsub, and_assoc, and_assoc]

/-- a range with a chain, a limit that refers to the first variable, and a filter -/
def pairsPredicate : Text :=
  "(\\exists i, j int; 0 <= i < n && i < j && j < n && odd(j); p(i, j))"

def pairsSpan : QuantifierSpan :=
  ⟨.any, [], pairsPredicate, " i, j int; 0 <= i < n && i < j && j < n && odd(j); p(i, j)", []⟩

def pairsQuantified : Quantified :=
  ⟨.any, "int", [.counting "i" "0" .lt "n", .counting "j" "i + 1" .lt "n"], ["odd(j)"], "p(i, j)"⟩

def pairsRange : Text := "0 <= i < n && i < j && j < n && odd(j)"

/-- the sums with three for `n` -/
def pairsSums : Interpretation ["i", "j"] "int" :=
  sums ["i", "j"] (fun w => (List.lookup w [("n", 3)]).getD 0) rfl rfl rfl

theorem holds_range_pairs :
    firstSpan? pairsPredicate = .ok (some pairsSpan) ∧
      Quantified.parse .any pairsSpan.inner = .ok pairsQuantified ∧
      ReadAsMeant ["i", "j"] (splitTop "&&" pairsRange) ∧
      droppedComparisons ["i", "j"] "int" (splitTop "&&" pairsRange) pairsQuantified = [] ∧
      Reaches pairsSums.value pairsQuantified.loops (fun _ => 0) [0, 2] := by
  have hspan : firstSpan? pairsPredicate = .ok (some pairsSpan) := by
    -- the kernel is slow in reading the characters of a literal, so they are put in its place
    unfold pairsSpan pairsPredicate
    repeat rw [String.toList_ofList]
    decide +kernel
  have hread : Quantified.parse .any pairsSpan.inner = .ok pairsQuantified := by
    unfold pairsSpan pairsQuantified
    repeat rw [String.toList_ofList]
    decide +kernel
  have hparts : splitTop ";" pairsSpan.inner
      = [("i, j int" : Text), pairsRange, ("p(i, j)" : Text)] := by
    unfold pairsSpan pairsRange
    repeat rw [String.toList_ofList]
    decide +kernel
  have hmeant : ReadAsMeant ["i", "j"] (splitTop "&&" pairsRange) := by
    have hcheck : ∀ v ∈ [("i" : Text), ("j" : Text)], ∀ c ∈ splitTop "&&" pairsRange,
        bound? v c = none ∨ chainsAround ["i", "j"] v c = true := by decide +kernel
    intro us v vs hnames c hc b hb
    refine (hcheck v (hnames ▸ by simp) c hc).resolve_left fun hnone => ?_
    cases hnone.symm.trans hb.1
  have hrange : ∀ c ∈ splitTop "&&" pairsRange,
      pairsSums.Holds c (assign ["i", "j"] [0, 2] fun _ => 0) := by
    have hcompares : ∀ c ∈ splitTop "&&" pairsRange, ∀ k ∈ comparisonsIn ["i", "j"] c,
        pairsSums.Compares k (assign ["i", "j"] [0, 2] fun _ => 0) := by decide +kernel
    intro c hc
    by_cases hnil : comparisonsIn ["i", "j"] c = []
    · unfold Interpretation.Holds
      rw [hnil]
      trivial
    · exact Interpretation.holds_of_compares hnil (hcompares c hc)
  have hdecl : parseDecl "i, j int" = .ok (["i", "j"], "int") := by decide +kernel
  have hiff := Quantified.holds_range_iff hspan hparts (by decide +kernel) hdecl hread (by decide)
    hmeant
  exact ⟨hspan, hread, hmeant, by decide +kernel,
    ((hiff.1 pairsSums (fun _ => 0) [0, 2]).1 ⟨rfl, hrange⟩).1.1⟩

/-- a chain after a conjunct that is the upper bound already -/
def halfChainPredicate : Text := "(\\forall i int; i < m && 0 <= i < n; p(i))"

def halfChainSpan : QuantifierSpan :=
  ⟨.all, [], halfChainPredicate, " i int; i < m && 0 <= i < n; p(i)", []⟩

def halfChainQuantified : Quantified :=
  ⟨.all, "int", [.counting "i" "0" .lt "m"], [], "p(i)"⟩

/-- the sums with five for `m` and three for `n` -/
def halfChainSums : Interpretation ["i"] "int" :=
  sums ["i"] (fun w => (List.lookup w [("m", 5), ("n", 3)]).getD 0) rfl rfl rfl

/-- the chain gives the first value, and its other side is neither a limit nor a filter: the loop
comes to a value outside of the range -/
theorem reaches_halfChain :
    firstSpan? halfChainPredicate = .ok (some halfChainSpan) ∧
      Quantified.parse .all halfChainSpan.inner = .ok halfChainQuantified ∧
      halfChainQuantified.filters = [] ∧
      Reaches halfChainSums.value halfChainQuantified.loops (fun _ => 0) [4] ∧
      ¬ ∀ c ∈ splitTop "&&" "i < m && 0 <= i < n",
        halfChainSums.Holds c (assign ["i"] [4] fun _ => 0) := by
  refine ⟨?_, ?_, rfl, ?_, ?_⟩
  · unfold halfChainSpan halfChainPredicate
    repeat rw [String.toList_ofList]
    decide +kernel
  · unfold halfChainSpan halfChainQuantified
    repeat rw [String.toList_ofList]
    decide +kernel
  · have horder : InOrder halfChainSums.value [] ["i"] halfChainQuantified.loops :=
      .cons (by simp) rfl (halfChainSums.settled [] ["i"] rfl "0" (by decide +kernel))
        (halfChainSums.settled [] ["i"] rfl "m" (by decide +kernel)) .nil
    refine (horder.reaches_iff _ _).2 ⟨rfl, List.forall_mem_singleton.2 ?_⟩
    show halfChainSums.value "0" (assign ["i"] [4] fun _ => 0) ≤ 4 ∧
      4 < halfChainSums.value "m" (assign ["i"] [4] fun _ => 0)
    decide +kernel
  · intro hrange
    have hchain := (hrange "0 <= i < n" (by decide +kernel)).compares ⟨"i", .lt, "n"⟩
      (by decide +kernel)
    revert hchain
    decide +kernel

end ContractChecks
