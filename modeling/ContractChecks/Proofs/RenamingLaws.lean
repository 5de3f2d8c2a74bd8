import ContractChecks.Proofs.QuantifierOffsets
import ContractChecks.Proofs.SplicedNames

/-!
# Laws of renaming

A renaming that takes names to names acts on the names and keywords of a text one by one.  Selectors
stay selectors, and what stands between names stays as it is, down to the last byte.  The other laws
follow, since a text is determined by its words and the gaps between them.

* `gaps s`: the texts before, between and behind the names and keywords of `s`, by byte offsets;
* `eq_of_gaps`: texts with the same gaps and the same words are equal;
* `Renaming.onIdentifier`, `identifiers_rename`, `gaps_rename`: what a renaming does to a text;
* `Renaming.after`, `Renaming.inverse`: one renaming after another, and back again;
* `rename_laws`: renaming is a homomorphism, it respects composition and can be undone.
-/

namespace ContractChecks

/-! ### what stands between names -/

/-- the texts before, between and behind occurrences, cut out of the text `s` that starts at byte
`pos` -/
def gapsFrom (pos : Nat) (s : Text) : List Occurrence → List Text
  | [] => [s]
  | o :: os => takeBytes (o.start - pos) s :: gapsFrom o.stop (seekFrom pos o.stop s).2 os

/-- the texts before, between and behind the names and keywords of a text -/
def gaps (s : Text) : List Text := gapsFrom 0 s (occurrences s)

/-- the texts before, between and behind the names and keywords among lexemes; `run` is what was read
since the last of them -/
def gapsOf (run : Text) : List Lexeme → List Text
  | [] => [run]
  | l :: ls =>
    match l.word? with
    | some _ => run :: gapsOf [] ls
    | none => gapsOf (run ++ l.text) ls

/-- gaps with words in between, a gap first -/
def weave : List Text → List Text → Text
  | [], _ => []
  | g :: _, [] => g
  | g :: gs, w :: ws => g ++ (w ++ weave gs ws)

theorem unlex_cons (l : Lexeme) (ls : List Lexeme) : unlex (l :: ls) = l.text ++ unlex ls := rfl

/-- a word is cut out at the offsets that are recorded for it -/
theorem gapsFrom_word (pos : Nat) (run raw rest : Text) (selector : Bool) (os : List Occurrence) :
    gapsFrom pos (run ++ (raw ++ rest))
        (⟨raw, pos + Text.bytes run, pos + Text.bytes run + Text.bytes raw, selector⟩ :: os)
      = run :: gapsFrom (pos + Text.bytes run + Text.bytes raw) rest os := by
  have hseek := seekFrom_append pos (run ++ raw) rest
  rw [Text.bytes_append, ← Nat.add_assoc, List.append_assoc] at hseek
  rw [gapsFrom, Nat.add_sub_cancel_left, takeBytes_append, hseek]

theorem gapsFrom_occurrencesFrom (pos : Nat) (run : Text) (last : Option Char) (ls : List Lexeme) :
    gapsFrom pos (run ++ unlex ls) (occurrencesFrom (pos + Text.bytes run) last ls)
      = gapsOf run ls := by
  induction ls generalizing pos run last with
  | nil =>
    show [run ++ []] = [run]
    rw [List.append_nil]
  | cons l ls ih =>
    -- a lexeme that is no word goes to the run before the next word
    have hother : gapsFrom pos (run ++ (l.text ++ unlex ls))
        (occurrencesFrom (pos + Text.bytes run + Text.bytes l.text) (l.lastMark last) ls)
          = gapsOf (run ++ l.text) ls := by
      rw [← ih pos (run ++ l.text) (l.lastMark last), Text.bytes_append, Nat.add_assoc,
        List.append_assoc]
    have hword : ∀ (raw : Text) (selector : Bool), l.text = raw →
        gapsFrom pos (run ++ (l.text ++ unlex ls))
          (⟨raw, pos + Text.bytes run, pos + Text.bytes run + Text.bytes l.text, selector⟩
            :: occurrencesFrom (pos + Text.bytes run + Text.bytes l.text) (l.lastMark last) ls)
          = run :: gapsOf [] ls := by
      rintro raw selector rfl
      rw [gapsFrom_word, ← ih _ [] (l.lastMark last)]
      rfl
    rw [unlex_cons]
    cases l with
    | keyword raw => exact hword raw false rfl
    | name raw => exact hword raw _ rfl
    | literal raw => exact hother
    | number raw => exact hother
    | other c => exact hother

theorem gaps_eq (s : Text) : gaps s = gapsOf [] (lexemes s) := by
  have hgaps := gapsFrom_occurrencesFrom 0 [] none (lexemes s)
  rw [concat_lexemes] at hgaps
  exact hgaps

theorem weave_gapsOf (run : Text) (ls : List Lexeme) :
    weave (gapsOf run ls) (ls.filterMap Lexeme.word?) = run ++ unlex ls := by
  induction ls generalizing run with
  | nil => exact (List.append_nil run).symm
  | cons l ls ih =>
    have hother : weave (gapsOf (run ++ l.text) ls) (ls.filterMap Lexeme.word?)
        = run ++ unlex (l :: ls) := by
      rw [ih, unlex_cons, List.append_assoc]
    have hword : run ++ (l.text ++ weave (gapsOf [] ls) (ls.filterMap Lexeme.word?))
        = run ++ unlex (l :: ls) := by
      rw [ih, unlex_cons, List.nil_append]
    cases l with
    | keyword raw => exact hword
    | name raw => exact hword
    | literal raw => exact hother
    | number raw => exact hother
    | other c => exact hother

/-- a text is made of its gaps and its words -/
theorem weave_gaps (s : Text) : weave (gaps s) (words s) = s := by
  rw [gaps_eq, words, weave_gapsOf, concat_lexemes, List.nil_append]

theorem words_eq_map (s : Text) : words s = (identifiers s).map Prod.fst := by
  rw [identifiers, List.map_map, words, ← texts_occurrencesFrom 0 none]
  rfl

theorem eq_of_gaps {s t : Text} (hgaps : gaps s = gaps t) (hids : identifiers s = identifiers t) :
    s = t := by
  rw [← weave_gaps s, ← weave_gaps t, hgaps, words_eq_map, words_eq_map, hids]

/-! ### a renamed text -/

/-- a name that is no selector becomes its image -/
def Renaming.onIdentifier (f : Renaming) (p : Text × Bool) : Text × Bool :=
  if p.2 then p else (f.image p.1, p.2)

theorem identifiersFrom_renamedLexemes {f : Renaming} (hf : f.Named) {ls : List Lexeme}
    (hkey : ∀ raw, .keyword raw ∈ ls → f.get? raw = none) {last last' : Option Char}
    (hlast : last = some '.' ↔ last' = some '.') :
    identifiersFrom last' (renamedLexemes f last ls)
      = (identifiersFrom last ls).map f.onIdentifier := by
  induction ls generalizing last last' with
  | nil => rfl
  | cons l ls ih =>
    have hrest := ih (fun raw hraw => hkey raw (List.mem_cons_of_mem l hraw))
      (lastMark_mapName hf hlast l)
    rw [renamedLexemes, identifiersFrom_cons, identifiersFrom_cons, List.map_append, hrest]
    congr 1
    cases l with
    | name raw =>
      have hbeq : (last' == some '.') = (last == some '.') := by
        rw [Bool.eq_iff_iff, beq_iff_eq, beq_iff_eq]
        exact hlast.symm
      show ((Lexeme.mapName f last (.name raw)).identifier? last').toList
        = [f.onIdentifier (raw, last == some '.')]
      rw [Lexeme.mapName, Renaming.onIdentifier]
      split
      · rw [Lexeme.identifier?, hbeq]
        rfl
      · rw [Lexeme.identifier?, hbeq]
        rfl
    | keyword raw =>
      show [(raw, false)] = [(f.image raw, false)]
      rw [Renaming.image_of_none (hkey raw List.mem_cons_self)]
    | literal raw => rfl
    | number raw => rfl
    | other c => rfl

theorem identifiers_rename {f : Renaming} (hf : f.Named) (s : Text) :
    identifiers (rename f s) = (identifiers s).map f.onIdentifier := by
  rw [identifiers_eq, identifiers_eq, lexemes_rename hf]
  refine identifiersFrom_renamedLexemes hf ?_ Iff.rfl
  intro raw hraw
  obtain ⟨w, rfl⟩ := keyword_of_mem_lexemes hraw
  exact hf.keyword w

theorem gapsOf_renamedLexemes (f : Renaming) (run : Text) (last : Option Char) (ls : List Lexeme) :
    gapsOf run (renamedLexemes f last ls) = gapsOf run ls := by
  induction ls generalizing run last with
  | nil => rfl
  | cons l ls ih =>
    rw [renamedLexemes]
    cases l with
    | name raw =>
      have hword : ∃ w, (Lexeme.name raw).mapName f last = .name w := by
        rw [Lexeme.mapName]
        split
        · exact ⟨raw, rfl⟩
        · exact ⟨f.image raw, rfl⟩
      obtain ⟨w, hw⟩ := hword
      rw [hw]
      exact congrArg (run :: ·) (ih [] _)
    | keyword raw => exact congrArg (run :: ·) (ih [] _)
    | literal raw => exact ih _ _
    | number raw => exact ih _ _
    | other c => exact ih _ _

theorem gaps_rename {f : Renaming} (hf : f.Named) (s : Text) : gaps (rename f s) = gaps s := by
  rw [gaps_eq, gaps_eq, lexemes_rename hf, gapsOf_renamedLexemes]

/-! ### one renaming after another -/

namespace Renaming

theorem mem_of_get? {f : Renaming} {a x : Text} (h : f.get? a = some x) : (a, x) ∈ f := by
  obtain ⟨l, l', rfl, -⟩ := List.lookup_eq_some_iff.1 h
  exact List.mem_append_right l List.mem_cons_self

theorem named_of_all {f : Renaming} (h : (f.all fun p => isName p.1 && isName p.2) = true) :
    f.Named := by
  intro a x hget
  have hentry := List.all_eq_true.1 h (a, x) (mem_of_get? hget)
  rw [Bool.and_eq_true] at hentry
  exact hentry

/-- the renaming `f`, then the renaming `g` -/
def after (g f : Renaming) : Renaming := (f.map fun p => (p.1, g.image p.2)) ++ g

theorem get?_mapTargets (f : Renaming) (h : Text → Text) (a : Text) :
    Renaming.get? (f.map fun p => (p.1, h p.2)) a = (f.get? a).map h := by
  induction f with
  | nil => rfl
  | cons p f ih =>
    unfold Renaming.get? at *
    rw [List.map_cons, List.lookup_cons, List.lookup_cons, ih]
    split <;> rfl

theorem get?_after (g f : Renaming) (a : Text) :
    (g.after f).get? a = ((f.get? a).map g.image).or (g.get? a) := by
  rw [← get?_mapTargets]
  exact List.lookup_append

theorem image_after (g f : Renaming) (a : Text) : (g.after f).image a = g.image (f.image a) := by
  unfold image
  rw [get?_after]
  cases f.get? a <;> rfl

theorem Named.after {g f : Renaming} (hg : g.Named) (hf : f.Named) : (g.after f).Named := by
  intro a x hget
  rw [get?_after, Option.or_eq_some_iff, Option.map_eq_some_iff] at hget
  rcases hget with ⟨y, hy, rfl⟩ | ⟨-, hx⟩
  · exact ⟨(hf a y hy).1, hg.image (hf a y hy).2⟩
  · exact hg a x hx

theorem onIdentifier_after (g f : Renaming) (p : Text × Bool) :
    (g.after f).onIdentifier p = g.onIdentifier (f.onIdentifier p) := by
  obtain ⟨a, selector⟩ := p
  cases selector with
  | true => rfl
  | false => exact congrArg (·, false) (image_after g f a)

/-! ### and back again -/

/-- different names have different new names -/
def Injective (f : Renaming) : Prop := ∀ a b x, f.get? a = some x → f.get? b = some x → a = b

theorem injective_of_nodup {f : Renaming} (h : (f.map Prod.snd).Nodup) : f.Injective := by
  intro a b x ha hb
  have heq := List.inj_on_of_nodup_map h (mem_of_get? ha) (mem_of_get? hb) rfl
  exact congrArg Prod.fst heq

/-- every new name to the name that it took the place of -/
def inverse (f : Renaming) : Renaming :=
  (f.filter fun p => f.get? p.1 == some p.2).map Prod.swap

theorem mem_inverse {f : Renaming} {x a : Text} : (x, a) ∈ f.inverse ↔ f.get? a = some x := by
  constructor
  · intro h
    obtain ⟨⟨b, y⟩, hmem, heq⟩ := List.mem_map.1 h
    cases heq
    exact beq_iff_eq.1 (List.mem_filter.1 hmem).2
  · intro h
    have hkept : (f.get? a == some x) = true := beq_iff_eq.2 h
    exact List.mem_map.2 ⟨(a, x), List.mem_filter.2 ⟨mem_of_get? h, hkept⟩, rfl⟩

theorem Injective.get?_inverse {f : Renaming} (hf : f.Injective) {x a : Text} :
    f.inverse.get? x = some a ↔ f.get? a = some x := by
  have hsound : ∀ {b}, f.inverse.get? x = some b → f.get? b = some x := fun hb =>
    mem_inverse.1 (mem_of_get? hb)
  refine ⟨hsound, fun ha => ?_⟩
  cases hget : f.inverse.get? x with
  | some b => rw [hf a b x ha (hsound hget)]
  | none =>
    have hno := List.lookup_eq_none_iff.1 hget (x, a) (mem_inverse.2 ha)
    exact absurd rfl (bne_iff_ne.1 hno)

theorem Injective.named_inverse {f : Renaming} (hf : f.Injective) (hnamed : f.Named) :
    f.inverse.Named := by
  intro x a hget
  exact (hnamed a x (hf.get?_inverse.1 hget)).symm

/-- a name that is no new name is found again -/
theorem Injective.image_inverse {f : Renaming} (hf : f.Injective) {a : Text}
    (ha : ∀ b, f.get? b ≠ some a) : f.inverse.image (f.image a) = a := by
  cases hget : f.get? a with
  | some x => rw [image_of_some hget, image_of_some (hf.get?_inverse.2 hget)]
  | none =>
    rw [image_of_none hget]
    refine image_of_none ?_
    cases hback : f.inverse.get? a with
    | none => rfl
    | some b => exact absurd (hf.get?_inverse.1 hback) (ha b)

end Renaming

theorem mem_namesIn_of_identifiers {s a : Text} (h : (a, false) ∈ identifiers s) :
    a ∈ namesIn s := by
  obtain ⟨o, ho, heq⟩ := List.mem_map.1 h
  rw [Prod.mk.injEq] at heq
  refine List.mem_map.2 ⟨o, List.mem_filter.2 ⟨ho, ?_⟩, heq.1⟩
  rw [heq.2]
  rfl

theorem rename_rename {f g : Renaming} (hf : f.Named) (hg : g.Named) (s : Text) :
    rename g (rename f s) = rename (g.after f) s := by
  have hafter := hg.after hf
  refine eq_of_gaps ?_ ?_
  · rw [gaps_rename hg, gaps_rename hf, gaps_rename hafter]
  · rw [identifiers_rename hg, identifiers_rename hf, identifiers_rename hafter, List.map_map]
    exact List.map_congr_left fun p _ => (Renaming.onIdentifier_after g f p).symm

theorem rename_inverse {f : Renaming} (hnamed : f.Named) (hf : f.Injective) {s : Text}
    (hs : ∀ a x, f.get? a = some x → x ∉ namesIn s) : rename f.inverse (rename f s) = s := by
  have hback := hf.named_inverse hnamed
  refine eq_of_gaps ?_ ?_
  · rw [gaps_rename hback, gaps_rename hnamed]
  · rw [identifiers_rename hback, identifiers_rename hnamed, List.map_map]
    refine (List.map_congr_left ?_).trans (List.map_id _)
    rintro ⟨a, selector⟩ ha
    cases selector with
    | true => rfl
    | false =>
      -- a name of the text is no new name, so the way back does not touch it by mistake
      have hfree : ∀ b, f.get? b ≠ some a := fun b hb => hs b a hb (mem_namesIn_of_identifiers ha)
      exact congrArg (·, false) (hf.image_inverse hfree)

/-- **Renaming is a homomorphism.**  Under a renaming of names to names, every identifier of a text
that is no selector becomes its image, selectors stay selectors, and the gaps between identifiers
stay as they are.  Hence two renamings, one after the other, are the renaming by the composed map, and
a renaming to different names that the text does not have is undone by the inverse map. -/
theorem rename_laws {f : Renaming} (hf : f.Named) (s : Text) :
    (identifiers (rename f s) = (identifiers s).map f.onIdentifier ∧ gaps (rename f s) = gaps s) ∧
      (∀ g : Renaming, g.Named → (∀ a, (g.after f).image a = g.image (f.image a)) ∧
        rename g (rename f s) = rename (g.after f) s) ∧
      (f.Injective → (∀ a x, f.get? a = some x → x ∉ namesIn s) →
        (∀ a x, f.inverse.get? x = some a ↔ f.get? a = some x) ∧
          rename f.inverse (rename f s) = s) := by
  refine ⟨⟨identifiers_rename hf s, gaps_rename hf s⟩, ?_, ?_⟩
  · intro g hg
    exact ⟨g.image_after f, rename_rename hf hg s⟩
  · intro hinj hs
    exact ⟨fun a x => hinj.get?_inverse, rename_inverse hf hinj hs⟩

/-! ### a predicate with a name in all its roles -/

/-- the name `x` as a receiver, a selector and a keyword, in a number and in two literals, of which
one is left open -/
def manyRoles : Text := "x. x(\\x, 0x1) > n.x && \"x\" != 'x"

def itemRenaming : Renaming := [("x", "item"), ("n", "n_1")]

theorem rename_laws_manyRoles :
    itemRenaming.Named ∧ itemRenaming.Injective ∧
      rename itemRenaming manyRoles = ("item. x(\\x, 0x1) > n_1.x && \"x\" != 'x" : Text) ∧
      gaps (rename itemRenaming manyRoles) = gaps manyRoles ∧
      rename itemRenaming.inverse (rename itemRenaming manyRoles) = manyRoles := by
  have hnamed : itemRenaming.Named := Renaming.named_of_all (by decide)
  have hinj : itemRenaming.Injective := Renaming.injective_of_nodup (by decide)
  obtain ⟨⟨-, hgaps⟩, -, hback⟩ := rename_laws hnamed manyRoles
  refine ⟨hnamed, hinj, by decide +kernel, hgaps, (hback hinj ?_).2⟩
  intro a x hget
  have hnew : ∀ p ∈ itemRenaming, p.2 ∉ namesIn manyRoles := by decide +kernel
  exact hnew (a, x) (Renaming.mem_of_get? hget)

end ContractChecks
