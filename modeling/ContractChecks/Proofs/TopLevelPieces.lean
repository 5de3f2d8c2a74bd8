import ContractChecks.Proofs.JoinedScans

/-!
# Pieces between separators

A text is cut at the separators that stand outside brackets and literals, from left to right.  This
holds of every text: brackets may be closed that were never opened, and the last literal may be left
open.

* `SeparatorAt sep st depth a b`: a scan that has read `a` comes to a separator at the start of `b`;
* `SeparatorFree sep n s`: no separator starts in the first `n` characters of `s`;
* `TopPieces sep s ps`: `s` is cut into `ps` at its separators; `topPieces_iff`: this is what
  `cutTop` does, and nothing else is;
* `SeparatorFree.trim`: trimming a piece brings up no separator;
* `splitTop?_eq`, `splitTop?_eq_none_iff`: the scan has an end except where it finds an empty
  separator.
-/

namespace ContractChecks

/-! ### separators -/

/-- A scan that has read `a` stands outside brackets and literals, and `b` starts with a separator.
A separator that starts with a bracket or a quotation mark is never found. -/
structure SeparatorAt (sep : Text) (st : Quoting) (depth : Int) (a b : Text) : Prop where
  closed : st.after a = .code
  level : st.depthFrom depth a = 0
  inert : ∀ c ∈ b.head?, isInert c = true
  starts : sep <+: b

/-- no separator starts in the first `n` characters -/
def SeparatorFree (sep : Text) (n : Nat) (s : Text) : Prop :=
  ∀ a b, s = a ++ b → a.length < n → ¬SeparatorAt sep .code 0 a b

/-- the pieces of a text between the separators outside brackets and literals -/
inductive TopPieces (sep : Text) : Text → List Text → Prop
  | last {p : Text} (free : SeparatorFree sep p.length p) : TopPieces sep p [p]
  | cut {p t : Text} {ps : List Text} (free : SeparatorFree sep p.length (p ++ (sep ++ t)))
      (found : SeparatorAt sep .code 0 p (sep ++ t)) (rest : TopPieces sep t ps) :
      TopPieces sep (p ++ (sep ++ t)) (p :: ps)

theorem separatorAt_cons {sep : Text} {st : Quoting} {depth : Int} {c : Char} {a b : Text} :
    SeparatorAt sep st depth (c :: a) b ↔
      SeparatorAt sep (st.next c) (st.depthAfter depth c) a b :=
  ⟨fun h => ⟨h.closed, h.level, h.inert, h.starts⟩,
    fun h => ⟨h.closed, h.level, h.inert, h.starts⟩⟩

/-- the test that is made at every character -/
theorem separatorAt_nil_iff {sep : Text} {st : Quoting} {depth : Int} {c : Char} {r : Text} :
    SeparatorAt sep st depth [] (c :: r) ↔ separates sep st depth c r = true := by
  rw [separates_iff]
  constructor
  · intro h
    exact ⟨h.closed, h.inert c rfl, h.level, h.starts⟩
  · rintro ⟨hcode, hinert, hdepth, hstarts⟩
    refine ⟨hcode, hdepth, ?_, hstarts⟩
    rintro d ⟨⟩
    exact hinert

/-! ### cutting -/

/-- a text in which no separator starts is one piece, or the beginning of one -/
theorem cutTopFrom_free {sep : Text} {st : Quoting} {depth : Int} {p u : Text}
    (h : ∀ a b, p ++ u = a ++ b → a.length < p.length → ¬SeparatorAt sep st depth a b) :
    cutTopFrom sep st depth 0 (p ++ u)
      = prependPiece p (cutTopFrom sep (st.after p) (st.depthFrom depth p) 0 u) := by
  induction p generalizing st depth with
  | nil => exact (prependPiece_nil (cutTopFrom_ne_nil _ _ _ _ _)).symm
  | cons c p ih =>
    have hhead := h [] (c :: (p ++ u)) rfl (Nat.succ_pos _)
    have htail : ∀ a b, p ++ u = a ++ b → a.length < p.length →
        ¬SeparatorAt sep (st.next c) (st.depthAfter depth c) a b := by
      intro a b hab hlen hsep
      exact h (c :: a) b (congrArg (c :: ·) hab) (Nat.succ_lt_succ hlen) (separatorAt_cons.2 hsep)
    have hpass : separates sep st depth c (p ++ u) = false :=
      Bool.eq_false_iff.2 (mt separatorAt_nil_iff.2 hhead)
    rw [List.cons_append, cutTopFrom_passed hpass, ih htail, consPiece_prependPiece]
    rfl

theorem cutTopFrom_found {sep t : Text} (hne : sep ≠ [])
    (h : SeparatorAt sep .code 0 [] (sep ++ t)) :
    cutTopFrom sep .code 0 0 (sep ++ t) = [] :: cutTop sep t := by
  cases sep with
  | nil => exact absurd rfl hne
  | cons d sep =>
    rw [List.cons_append] at h ⊢
    rw [cutTopFrom_separated hne (separatorAt_nil_iff.1 h), ← List.cons_append, List.drop_left]

theorem TopPieces.cutTop_eq {sep s : Text} {ps : List Text} (hne : sep ≠ [])
    (h : TopPieces sep s ps) : cutTop sep s = ps := by
  induction h with
  | @last p free =>
    have hwhole := cutTopFrom_free (p := p) (u := []) (by rwa [List.append_nil])
    rw [List.append_nil] at hwhole
    rw [cutTop, hwhole]
    exact congrArg (fun q => [q]) (List.append_nil p)
  | @cut p t ps free found rest ih =>
    have hcode : Quoting.code.after p = .code := found.closed
    have hlevel : Quoting.code.depthFrom 0 p = 0 := found.level
    have hnext : SeparatorAt sep .code 0 [] (sep ++ t) := ⟨rfl, rfl, found.inert, found.starts⟩
    rw [cutTop, cutTopFrom_free free, hcode, hlevel, cutTopFrom_found hne hnext, ih]
    exact congrArg (fun q => q :: ps) (List.append_nil p)

/-- no separator starts in the first piece, and one follows it if there is a second piece -/
theorem cutTopFrom_first {sep : Text} (hne : sep ≠ []) {st : Quoting} {depth : Int} {s p : Text}
    {ps : List Text} (h : cutTopFrom sep st depth 0 s = p :: ps) :
    (∀ a b, s = a ++ b → a.length < p.length → ¬SeparatorAt sep st depth a b) ∧
      (ps ≠ [] → ∀ b, s = p ++ b → SeparatorAt sep st depth p b) := by
  have hsome : (!sep.isEmpty) = true := by rw [List.isEmpty_eq_false_iff.2 hne]; rfl
  induction s generalizing st depth p with
  | nil =>
    cases h
    exact ⟨fun a b _ hlen => absurd hlen (Nat.not_lt_zero _), fun hps => absurd rfl hps⟩
  | cons c r ih =>
    rw [cutTopFrom] at h
    split at h
    case isTrue hif =>
      obtain ⟨rfl, -⟩ := List.cons.inj h
      refine ⟨fun a b _ hlen => absurd hlen (Nat.not_lt_zero _), ?_⟩
      rintro - b rfl
      exact separatorAt_nil_iff.2 (Bool.and_eq_true_iff.1 hif).2
    case isFalse hif =>
      cases hcut : cutTopFrom sep (st.next c) (st.depthAfter depth c) 0 r with
      | nil => exact absurd hcut (cutTopFrom_ne_nil _ _ _ _ _)
      | cons q qs =>
        rw [hcut] at h
        cases h
        obtain ⟨hfree, hfound⟩ := ih hcut
        refine ⟨fun a b hab hlen hsep => ?_, fun hps b hb => ?_⟩
        · cases a with
          | nil =>
            rw [List.nil_append] at hab
            rw [← hab] at hsep
            exact hif (Bool.and_eq_true_iff.2 ⟨hsome, separatorAt_nil_iff.1 hsep⟩)
          | cons d a =>
            obtain ⟨rfl, htail⟩ := List.cons.inj hab
            exact hfree a b htail (Nat.lt_of_succ_lt_succ hlen) (separatorAt_cons.1 hsep)
        · exact separatorAt_cons.2 (hfound hps b (List.cons.inj hb).2)

theorem topPieces_cutTop {sep : Text} (hne : sep ≠ []) (s : Text) :
    TopPieces sep s (cutTop sep s) := by
  generalize hcut : cutTop sep s = ps
  induction ps generalizing s with
  | nil => exact absurd hcut (cutTopFrom_ne_nil _ _ _ _ _)
  | cons p ps ih =>
    obtain ⟨hfree, hfound⟩ := cutTopFrom_first hne hcut
    rcases cutTopFrom_cases hcut with ⟨rfl, rfl⟩ | ⟨t, -, rfl, -, rfl⟩
    · exact .last hfree
    · exact .cut hfree (hfound (cutTopFrom_ne_nil _ _ _ _ _) _ rfl) (ih t rfl)

/-- a text has exactly one list of pieces -/
theorem topPieces_iff {sep : Text} (hne : sep ≠ []) {s : Text} {ps : List Text} :
    TopPieces sep s ps ↔ ps = cutTop sep s :=
  ⟨fun h => (h.cutTop_eq hne).symm, fun h => h ▸ topPieces_cutTop hne s⟩

/-! ### pieces of pieces -/

/-- the beginning of a text -/
theorem SeparatorFree.of_append {sep p u : Text} (hne : sep ≠ [])
    (h : SeparatorFree sep p.length (p ++ u)) : SeparatorFree sep p.length p := by
  rintro a b rfl hlen hsep
  obtain ⟨t, rfl⟩ := hsep.starts
  refine h a (sep ++ t ++ u) (by rw [List.append_assoc]) hlen ⟨hsep.closed, hsep.level, ?_, ?_⟩
  · have hinert := hsep.inert
    obtain ⟨d, sep, rfl⟩ := List.exists_cons_of_ne_nil hne
    exact hinert
  · rw [List.append_assoc]
    exact List.prefix_append _ _

theorem SeparatorFree.trim {sep p : Text} (hne : sep ≠ []) (h : SeparatorFree sep p.length p) :
    SeparatorFree sep p.trim.length p.trim := by
  obtain ⟨u, v, hp, hblank⟩ := trim_eq_append p
  rw [List.forall_mem_append] at hblank
  have hu : ∀ c ∈ u, isInert c = true := fun c hc => isInert_of_isBlank (hblank.1 c hc)
  have hpad : SeparatorFree sep p.trim.length (p.trim ++ v) := by
    -- a scan that has read the blanks in front stands where it stood before
    intro a b hab hlen hsep
    obtain ⟨hcode, hlevel⟩ := after_inert hu 0 a
    refine h (u ++ a) b ?_ ?_ ⟨hcode.trans hsep.closed, hlevel.trans hsep.level, hsep.inert,
      hsep.starts⟩
    · rw [List.append_assoc, ← hab, ← hp]
    · have hlength := congrArg List.length hp
      rw [List.length_append, List.length_append] at hlength
      rw [List.length_append]
      omega
  exact hpad.of_append hne

theorem TopPieces.free {sep s : Text} {ps : List Text} (hne : sep ≠ []) (h : TopPieces sep s ps) :
    ∀ p ∈ ps, SeparatorFree sep p.length p := by
  induction h with
  | last free => exact List.forall_mem_singleton.2 free
  | cut free _ _ ih => exact List.forall_mem_cons.2 ⟨free.of_append hne, ih⟩

theorem SeparatorFree.splitTop {sep p : Text} (hne : sep ≠ []) (h : SeparatorFree sep p.length p) :
    splitTop sep p = [p.trim] := by
  rw [ContractChecks.splitTop, (TopPieces.last h).cutTop_eq hne]
  rfl

/-! ### the scan -/

/-- The scan comes to a character outside brackets and literals.  An empty separator is found there,
and the scan stands still. -/
def stallsFrom (st : Quoting) (depth : Int) : Text → Bool
  | [] => false
  | c :: r => separates [] st depth c r || stallsFrom (st.next c) (st.depthAfter depth c) r

/-- at an empty separator the scan comes back to where it was -/
theorem SplitState.run_stalled {x : SplitState} (h : stallsFrom x.quoting x.depth x.rest = true)
    (n : Nat) : x.run [] n = none := by
  induction n generalizing x with
  | zero => rfl
  | succ n ih =>
    obtain ⟨st, depth, parts, piece, rest⟩ := x
    cases rest with
    | nil => cases h
    | cons c r =>
      by_cases hsep : separates [] st depth c r = true
      · obtain ⟨rfl, -, rfl, -⟩ := separates_iff.1 hsep
        rw [run_separated hsep]
        exact ih h
      · rw [stallsFrom, Bool.or_eq_true] at h
        rw [run_passed hsep]
        exact ih (h.resolve_left hsep)

/-- every other scan finds the pieces; a round takes at least one character -/
theorem SplitState.run_ended {sep : Text} {x : SplitState}
    (h : sep = [] → stallsFrom x.quoting x.depth x.rest = false) {n : Nat} (hn : x.rest.length < n) :
    x.run sep n = some (x.parts
      ++ (prependPiece x.piece (cutTopFrom sep x.quoting x.depth 0 x.rest)).map Text.trim) := by
  induction n generalizing x with
  | zero => exact absurd hn (Nat.not_lt_zero _)
  | succ n ih =>
    obtain ⟨st, depth, parts, piece, rest⟩ := x
    cases rest with
    | nil =>
      show some _ = some (parts ++ [(piece ++ []).trim])
      rw [List.append_nil]
    | cons c r =>
      have hlen : r.length < n := Nat.lt_of_succ_lt_succ hn
      by_cases hsep : separates sep st depth c r = true
      · have hne : sep ≠ [] := by
          rintro rfl
          have hfree := h rfl
          rw [stallsFrom, hsep] at hfree
          cases hfree
        have hless : ((c :: r).drop sep.length).length < n := by
          have hpos := List.length_pos_iff.2 hne
          rw [List.length_drop, List.length_cons]
          omega
        rw [run_separated hsep, cutTopFrom_separated hne hsep]
        refine (ih (fun hnil => absurd hnil hne) hless).trans ?_
        rw [prependPiece_nil (cutTopFrom_ne_nil _ _ _ _ _), prependPiece, List.append_nil,
          List.append_assoc]
        rfl
      · have hrest : sep = [] → stallsFrom (st.next c) (st.depthAfter depth c) r = false :=
          fun hnil => (Bool.or_eq_false_iff.1 (h hnil)).2
        rw [run_passed hsep, cutTopFrom_passed (Bool.eq_false_iff.2 hsep)]
        refine (ih hrest hlen).trans ?_
        cases cutTopFrom sep (st.next c) (st.depthAfter depth c) 0 r with
        | nil => rfl
        | cons p ps =>
          rw [consPiece, prependPiece, prependPiece, List.append_assoc, List.singleton_append]

/-- the scan comes to an end unless it looks for the empty separator and finds it -/
theorem splitTop?_eq (sep s : Text) :
    splitTop? sep s
      = if sep.isEmpty && stallsFrom .code 0 s then none else some (splitTop sep s) := by
  split
  case isTrue hstall =>
    obtain ⟨hempty, hstall⟩ := Bool.and_eq_true_iff.1 hstall
    rw [List.isEmpty_iff.1 hempty]
    exact SplitState.run_stalled hstall (s.length + 1)
  case isFalse hended =>
    have hfree : sep = [] → stallsFrom .code 0 s = false := by
      rintro rfl
      exact Bool.eq_false_iff.2 hended
    refine (SplitState.run_ended (x := { rest := s }) hfree (Nat.lt_succ_self _)).trans ?_
    rw [prependPiece_nil (cutTopFrom_ne_nil _ _ _ _ _)]
    rfl

/-- a scan that has no end after as many rounds has none at all -/
theorem splitTop?_eq_none_iff {sep s : Text} :
    splitTop? sep s = none ↔ ∀ n, SplitState.run sep n { rest := s } = none := by
  refine ⟨fun h => ?_, fun h => h _⟩
  rw [splitTop?_eq] at h
  split at h
  case isFalse => cases h
  case isTrue hstall =>
    obtain ⟨hempty, hstall⟩ := Bool.and_eq_true_iff.1 hstall
    rw [List.isEmpty_iff.1 hempty]
    exact SplitState.run_stalled hstall

theorem stallsFrom_append (st : Quoting) (depth : Int) (s t : Text) :
    stallsFrom st depth (s ++ t)
      = (stallsFrom st depth s || stallsFrom (st.after s) (st.depthFrom depth s) t) := by
  induction s generalizing st depth with
  | nil => rfl
  | cons c s ih =>
    rw [List.cons_append, stallsFrom, ih, ← Bool.or_assoc]
    rfl

theorem stallsFrom_inLiterals {st : Quoting} {s : Text} (hs : st.InLiterals s) (depth : Int) :
    stallsFrom st depth s = false := by
  induction s generalizing st depth with
  | nil => rfl
  | cons c s ih => rw [stallsFrom, separates_inLiteral hs.1, Bool.false_or, ih hs.2]

/-! ### exactness -/

/-- There is at least one part; the parts are the trimmed pieces between the separators outside
brackets and literals, which are uniquely determined and give back the text; no part can be cut
again; and the scan that finds them comes to an end. -/
theorem splitTop_exact {sep : Text} (hne : sep ≠ []) (s : Text) :
    splitTop sep s ≠ [] ∧
      (∃ raw, raw.map Text.trim = splitTop sep s ∧ Text.join sep raw = s ∧
        ∀ ps, TopPieces sep s ps ↔ ps = raw) ∧
      (∀ part ∈ splitTop sep s, splitTop sep part = [part]) ∧
      splitTop? sep s = some (splitTop sep s) := by
  refine ⟨?_, ⟨cutTop sep s, rfl, join_cutTopFrom sep .code 0 s, fun _ => topPieces_iff hne⟩, ?_, ?_⟩
  · intro hnil
    exact cutTopFrom_ne_nil _ _ _ _ _ (List.map_eq_nil_iff.1 hnil)
  · intro part hpart
    obtain ⟨p, hp, rfl⟩ := List.mem_map.1 hpart
    have hfree := (topPieces_cutTop hne s).free hne p hp
    rw [(hfree.trim hne).splitTop hne, trim_trim]
  · rw [splitTop?_eq, List.isEmpty_eq_false_iff.2 hne]
    rfl

/-- separators in brackets, in a literal and after a bracket that was never opened -/
def unbalancedList : Text := "f(a, b) , ', ' , x], c, \"d"

theorem splitTop_exact_unbalancedList :
    (",".toList : Text) ≠ [] ∧
      splitTop "," unbalancedList = ["f(a, b)", "', '", "x], c, \"d"] ∧
      ∀ part ∈ splitTop "," unbalancedList, splitTop "," part = [part] :=
  ⟨by decide, by decide +kernel, (splitTop_exact (by decide) unbalancedList).2.2.1⟩

end ContractChecks
