import ContractChecks.Directive.Comment
import ContractChecks.Proofs.TrimmedNames

/-!
# Directives written into comments

A comment can often be taken apart like a directive in several ways: its word can end earlier, and
the mark at its end can belong to the text.  The way that counts has the longest word and then the
shortest text.

* `DirectiveParts`, `DirectiveParts.Fit`: a comment in parts, and which parts make up a directive;
* `MatchesDirective comment`: it can be taken apart in some way;
* `DirectiveParts.Reads`: the way that counts;
* `cutDirective?_eq_some_iff`, `cutDirective?_eq_none_iff`: this is how a comment is cut;
* `CommentForm.write`: a directive written into a line comment or a block comment;
* `Carries ds cs`: the comments `cs` hold the directives `ds` in this order, and others that are no
  directives;
* `readDirectives_decodes`: what is read from such comments, and from those with an unknown word.
-/

namespace ContractChecks

/-! ### comments in parts -/

structure DirectiveParts where
  /-- the mark that opens the comment -/
  mark : Text
  blanks : Text
  word : Text
  payload : Text
  /-- the mark that closes the comment, or nothing -/
  stop : Text

namespace DirectiveParts

def comment (p : DirectiveParts) : Text :=
  p.mark ++ (p.blanks ++ ("rac:" ++ (p.word ++ (p.payload ++ p.stop))))

structure Fit (p : DirectiveParts) : Prop where
  mark : p.mark = "//" ∨ p.mark = "/*"
  blanks : ∀ c ∈ p.blanks, isCommentBlank c = true
  ne_nil : p.word ≠ []
  word : ∀ c ∈ p.word, isWordChar c = true
  stop : p.stop = [] ∨ p.stop = "*/"

/-- no other way has a longer word, or the same word and a shorter text -/
structure Reads (p : DirectiveParts) (comment : Text) : Prop where
  fit : p.Fit
  comment_eq : p.comment = comment
  longest : ∀ o : DirectiveParts, o.Fit → o.comment = comment → o.word.length ≤ p.word.length
  shortest : ∀ o : DirectiveParts, o.Fit → o.comment = comment → o.word = p.word →
    p.payload.length ≤ o.payload.length

end DirectiveParts

def MatchesDirective (comment : Text) : Prop :=
  ∃ p : DirectiveParts, p.Fit ∧ p.comment = comment

/-! ### up to the word -/

/-- the text from the word on -/
def directiveTail? (comment : Text) : Option Text :=
  (afterMark? comment).bind fun s => afterTag? (s.dropWhile isCommentBlank)

theorem cutDirective?_eq (comment : Text) :
    cutDirective? comment = (directiveTail? comment).bind fun r =>
      if (r.takeWhile isWordChar).isEmpty then none
      else some (r.takeWhile isWordChar, (Text.dropEnd "*/" (r.dropWhile isWordChar)).trim) := by
  unfold cutDirective? directiveTail?
  cases afterMark? comment <;> rfl

theorem startsWith_iff {s start : Text} : s.startsWith start = true ↔ ∃ r, s = start ++ r := by
  rw [Text.startsWith, List.isPrefixOf_iff_prefix]
  exact ⟨fun ⟨r, hr⟩ => ⟨r, hr.symm⟩, fun ⟨r, hr⟩ => ⟨r, hr.symm⟩⟩

theorem afterMark?_eq_some_iff {comment s : Text} :
    afterMark? comment = some s ↔
      ∃ mark : Text, (mark = "//" ∨ mark = "/*") ∧ comment = mark ++ s := by
  unfold afterMark?
  constructor
  · intro h
    split at h
    case isFalse => cases h
    case isTrue hmark =>
      cases h
      rw [Bool.or_eq_true, startsWith_iff, startsWith_iff] at hmark
      rcases hmark with ⟨r, rfl⟩ | ⟨r, rfl⟩
      · exact ⟨_, .inl rfl, rfl⟩
      · exact ⟨_, .inr rfl, rfl⟩
  · rintro ⟨mark, rfl | rfl, rfl⟩ <;> rfl

theorem afterTag?_eq_some_iff {s r : Text} : afterTag? s = some r ↔ s = ("rac:" : Text) ++ r := by
  unfold afterTag?
  constructor
  · intro h
    split at h
    case isFalse => cases h
    case isTrue htag =>
      cases h
      obtain ⟨r, rfl⟩ := startsWith_iff.1 htag
      rfl
  · rintro rfl
    rfl

theorem directiveTail?_eq_some_iff {comment r : Text} :
    directiveTail? comment = some r ↔
      ∃ mark blanks : Text, (mark = "//" ∨ mark = "/*") ∧
        (∀ c ∈ blanks, isCommentBlank c = true) ∧
        comment = mark ++ (blanks ++ ("rac:" ++ r)) := by
  unfold directiveTail?
  rw [Option.bind_eq_some_iff]
  constructor
  · rintro ⟨s, hs, hr⟩
    obtain ⟨mark, hmark, rfl⟩ := afterMark?_eq_some_iff.1 hs
    refine ⟨mark, s.takeWhile isCommentBlank, hmark, List.all_eq_true.1 List.all_takeWhile, ?_⟩
    rw [← afterTag?_eq_some_iff.1 hr, List.takeWhile_append_dropWhile]
  · rintro ⟨mark, blanks, hmark, hblanks, rfl⟩
    refine ⟨_, afterMark?_eq_some_iff.2 ⟨mark, hmark, rfl⟩, afterTag?_eq_some_iff.2 ?_⟩
    -- the tag begins with a letter, so exactly the blanks are passed over
    exact (takeWhile_of_all hblanks (by rintro c ⟨⟩; decide)).2

theorem DirectiveParts.Fit.tail {p : DirectiveParts} (h : p.Fit) :
    directiveTail? p.comment = some (p.word ++ (p.payload ++ p.stop)) :=
  directiveTail?_eq_some_iff.2 ⟨p.mark, p.blanks, h.mark, h.blanks, rfl⟩

/-! ### the word and the text -/

theorem DirectiveParts.Fit.takeWhile_ne_nil {p : DirectiveParts} (h : p.Fit) :
    (p.word ++ (p.payload ++ p.stop)).takeWhile isWordChar ≠ [] := by
  rw [List.takeWhile_append_of_pos h.word]
  exact fun hnil => h.ne_nil (List.append_eq_nil_iff.1 hnil).1

theorem eq_takeWhile_of_longest {p : Char → Bool} {w s : Text} (hw : ∀ c ∈ w, p c = true)
    (hlen : ((w ++ s).takeWhile p).length ≤ w.length) :
    (w ++ s).takeWhile p = w ∧ (w ++ s).dropWhile p = s := by
  rw [List.takeWhile_append_of_pos hw, List.length_append] at hlen
  have hnil : s.takeWhile p = [] := List.length_eq_zero_iff.1 (by omega)
  have hsplit := List.takeWhile_append_dropWhile (p := p) (l := s)
  rw [hnil, List.nil_append] at hsplit
  rw [List.takeWhile_append_of_pos hw, List.dropWhile_append_of_pos hw, hnil, hsplit]
  exact ⟨List.append_nil w, rfl⟩

/-- the first word that can be, and all the rest as text -/
theorem exists_fit {comment r : Text} (h : directiveTail? comment = some r)
    (hne : r.takeWhile isWordChar ≠ []) {payload stop : Text} (hstop : stop = [] ∨ stop = "*/")
    (hrest : r.dropWhile isWordChar = payload ++ stop) :
    ∃ p : DirectiveParts, p.Fit ∧ p.comment = comment ∧ p.word = r.takeWhile isWordChar ∧
      p.payload = payload := by
  obtain ⟨mark, blanks, hmark, hblanks, rfl⟩ := directiveTail?_eq_some_iff.1 h
  refine ⟨⟨mark, blanks, r.takeWhile isWordChar, payload, stop⟩,
    ⟨hmark, hblanks, hne, List.all_eq_true.1 List.all_takeWhile, hstop⟩, ?_, rfl, rfl⟩
  show mark ++ (blanks ++ ("rac:" ++ (r.takeWhile isWordChar ++ (payload ++ stop)))) = _
  rw [← hrest, List.takeWhile_append_dropWhile]

theorem cutDirective?_of_reads {p : DirectiveParts} {comment : Text} (h : p.Reads comment) :
    cutDirective? comment = some (p.word, p.payload.trim) := by
  have htail := h.fit.tail
  rw [h.comment_eq] at htail
  have hne := h.fit.takeWhile_ne_nil
  -- the longest word is compared with the first run of characters of words
  obtain ⟨o, ho, hcomment, hword, -⟩ :=
    exists_fit htail hne (.inl rfl) (List.append_nil _).symm
  have hlongest := h.longest o ho hcomment
  rw [hword] at hlongest
  obtain ⟨htake, hdrop⟩ := eq_takeWhile_of_longest h.fit.word hlongest
  have hpayload : Text.dropEnd "*/" (p.payload ++ p.stop) = p.payload := by
    rcases h.fit.stop with hstop | hstop
    · rw [hstop, List.append_nil]
      refine Text.dropEnd_of_not_suffix ?_
      rintro ⟨shorter, hshorter⟩
      have hrest : (p.word ++ (p.payload ++ p.stop)).dropWhile isWordChar
          = shorter ++ ("*/" : Text) := by
        rw [hdrop, hstop, List.append_nil, ← hshorter]
      obtain ⟨o, ho, hcomment, hword, rfl⟩ := exists_fit htail hne (.inr rfl) hrest
      have hshortest := h.shortest o ho hcomment (hword.trans htake)
      rw [← hshorter, List.length_append] at hshortest
      have hlen : ("*/" : Text).length = 2 := rfl
      omega
    · rw [hstop, Text.dropEnd_append]
  rw [cutDirective?_eq, htail, Option.bind_some, htake, hdrop, hpayload,
    List.isEmpty_eq_false_iff.2 h.fit.ne_nil]
  rfl

theorem MatchesDirective.exists_reads {comment : Text} (h : MatchesDirective comment) :
    ∃ p : DirectiveParts, p.Reads comment := by
  obtain ⟨m, hm, rfl⟩ := h
  have htail := hm.tail
  have hne := hm.takeWhile_ne_nil
  generalize m.word ++ (m.payload ++ m.stop) = r at htail hne
  have hway : ∀ o : DirectiveParts, o.Fit → o.comment = m.comment →
      o.word.length ≤ (r.takeWhile isWordChar).length ∧
        (o.word = r.takeWhile isWordChar → o.payload ++ o.stop = r.dropWhile isWordChar) := by
    intro o ho hcomment
    have hown := ho.tail
    rw [hcomment, htail, Option.some.injEq] at hown
    constructor
    · rw [hown, List.takeWhile_append_of_pos ho.word, List.length_append]
      exact Nat.le_add_right _ _
    · intro hword
      have hsplit := List.takeWhile_append_dropWhile (p := isWordChar) (l := r)
      rw [← hword] at hsplit
      exact List.append_cancel_left (hown.symm.trans hsplit.symm)
  -- the closing mark is split off if there is one
  by_cases hend : ("*/" : Text) <:+ r.dropWhile isWordChar
  · obtain ⟨payload, hpayload⟩ := hend
    obtain ⟨p, hp, hcomment, hword, rfl⟩ := exists_fit htail hne (.inr rfl) hpayload.symm
    refine ⟨p, hp, hcomment, fun o ho ho' => hword ▸ (hway o ho ho').1, fun o ho ho' hsame => ?_⟩
    have hrest := congrArg List.length (((hway o ho ho').2 (hsame.trans hword)).trans hpayload.symm)
    rw [List.length_append, List.length_append] at hrest
    have hlen : o.stop.length ≤ ("*/" : Text).length := by
      rcases ho.stop with hstop | hstop
      · rw [hstop]
        decide
      · rw [hstop]
    omega
  · obtain ⟨p, hp, hcomment, hword, hpayload⟩ :=
      exists_fit htail hne (.inl rfl) (List.append_nil _).symm
    refine ⟨p, hp, hcomment, fun o ho ho' => hword ▸ (hway o ho ho').1, fun o ho ho' hsame => ?_⟩
    have hrest := (hway o ho ho').2 (hsame.trans hword)
    rcases ho.stop with hstop | hstop
    · rw [hpayload, ← hrest, hstop, List.append_nil]
    · exact absurd ⟨o.payload, hstop ▸ hrest⟩ hend

theorem cutDirective?_eq_none_iff {comment : Text} :
    cutDirective? comment = none ↔ ¬MatchesDirective comment := by
  constructor
  · intro h hmatch
    obtain ⟨p, hp⟩ := hmatch.exists_reads
    rw [cutDirective?_of_reads hp] at h
    cases h
  · intro h
    rw [cutDirective?_eq]
    cases htail : directiveTail? comment with
    | none => rfl
    | some r =>
      by_cases hne : r.takeWhile isWordChar = []
      · rw [Option.bind_some, hne]
        rfl
      · obtain ⟨p, hp, hcomment, -⟩ := exists_fit htail hne (.inl rfl) (List.append_nil _).symm
        exact absurd ⟨p, hp, hcomment⟩ h

theorem cutDirective?_eq_some_iff {comment w t : Text} :
    cutDirective? comment = some (w, t) ↔
      ∃ p : DirectiveParts, p.Reads comment ∧ p.word = w ∧ p.payload.trim = t := by
  constructor
  · intro h
    have hmatch : MatchesDirective comment := by
      by_contra hnot
      rw [cutDirective?_eq_none_iff.2 hnot] at h
      cases h
    obtain ⟨p, hp⟩ := hmatch.exists_reads
    rw [cutDirective?_of_reads hp] at h
    cases h
    exact ⟨p, hp, rfl, rfl⟩
  · rintro ⟨p, hp, rfl, rfl⟩
    exact cutDirective?_of_reads hp

/-! ### directives as they are written -/

inductive CommentForm where
  | line
  | block
deriving DecidableEq, Repr

def CommentForm.write (form : CommentForm) (blanks : Text) (d : Directive) : Text :=
  match form with
  | .line => "//" ++ blanks ++ "rac:" ++ d.kind.word ++ " " ++ d.text
  | .block => "/*" ++ blanks ++ "rac:" ++ d.kind.word ++ " " ++ d.text ++ " */"

theorem isWordChar_word (k : DirectiveKind) : ∀ c ∈ k.word, isWordChar c = true :=
  List.all_eq_true.1 (by cases k <;> decide)

theorem cutDirective?_written {mark blanks : Text} (hmark : mark = "//" ∨ mark = "/*")
    (hblanks : ∀ c ∈ blanks, isCommentBlank c = true) (k : DirectiveKind) (s : Text) :
    cutDirective? (mark ++ (blanks ++ ("rac:" ++ (k.word ++ ' ' :: s))))
      = some (k.word, (Text.dropEnd "*/" (' ' :: s)).trim) := by
  have hspace : ∀ c ∈ (' ' :: s).head?, isWordChar c = false := by
    rintro c ⟨⟩
    decide
  obtain ⟨htake, hdrop⟩ := takeWhile_of_all (isWordChar_word k) hspace
  have hne : k.word.isEmpty = false := by cases k <;> rfl
  rw [cutDirective?_eq, directiveTail?_eq_some_iff.2 ⟨mark, blanks, hmark, hblanks, rfl⟩,
    Option.bind_some, htake, hdrop, hne]
  rfl

theorem CommentForm.cut_write (form : CommentForm) {blanks : Text}
    (hblanks : ∀ c ∈ blanks, isCommentBlank c = true) {d : Directive}
    (hd : ¬("*/" : Text) <:+: d.text) :
    cutDirective? (form.write blanks d) = some (d.kind.word, d.text.trim) := by
  have hspace : isBlank ' ' = true := by decide
  cases form with
  | line =>
    have hend : ¬("*/" : Text) <:+ ' ' :: d.text := by
      rw [List.suffix_cons_iff, not_or]
      exact ⟨by simp, fun h => hd h.isInfix⟩
    have hwrite : CommentForm.line.write blanks d
        = ("//" : Text) ++ (blanks ++ ("rac:" ++ (d.kind.word ++ ' ' :: d.text))) := by
      show "//" ++ blanks ++ "rac:" ++ d.kind.word ++ " " ++ d.text = _
      simp only [List.append_assoc]
      rfl
    rw [hwrite, cutDirective?_written (.inl rfl) hblanks, Text.dropEnd_of_not_suffix hend,
      trim_cons_blank hspace]
  | block =>
    have hwrite : CommentForm.block.write blanks d
        = ("/*" : Text) ++ (blanks ++ ("rac:" ++ (d.kind.word ++ ' ' :: (d.text ++ " */")))) := by
      show "/*" ++ blanks ++ "rac:" ++ d.kind.word ++ " " ++ d.text ++ " */" = _
      simp only [List.append_assoc]
      rfl
    have hend : ' ' :: (d.text ++ " */") = (' ' :: (d.text ++ [' '])) ++ ("*/" : Text) := by simp
    rw [hwrite, cutDirective?_written (.inr rfl) hblanks, hend, Text.dropEnd_append,
      trim_cons_blank hspace, trim_append_blank hspace]

/-- comments with directives, in order, and with others that are none anywhere between them -/
inductive Carries : List Directive → List Comment → Prop
  | nil : Carries [] []
  | other {c : Comment} {ds : List Directive} {cs : List Comment}
      (hc : ¬MatchesDirective c.text) (h : Carries ds cs) : Carries ds (c :: cs)
  | directive {d : Directive} {ds : List Directive} {cs : List Comment} (form : CommentForm)
      (blanks : Text) (hblanks : ∀ c ∈ blanks, isCommentBlank c = true)
      (hd : ¬("*/" : Text) <:+: d.text) (h : Carries ds cs) :
      Carries (d :: ds) ({ text := form.write blanks d, pos := d.pos } :: cs)

/-! ### reading comments -/

def Directive.trimmed (d : Directive) : Directive := { d with text := d.text.trim }

theorem readDirectives_cons_none {c : Comment} (h : cutDirective? c.text = none)
    (cs : List Comment) : readDirectives (c :: cs) = readDirectives cs := by
  rw [readDirectives, h]

theorem readDirectives_cons_known {c : Comment} {k : DirectiveKind} {t : Text}
    (h : cutDirective? c.text = some (k.word, t)) (cs : List Comment) :
    readDirectives (c :: cs)
      = (readDirectives cs).map fun ds => { kind := k, text := t, pos := c.pos } :: ds := by
  rw [readDirectives, h]
  simp only [DirectiveKind.parse?_word]
  cases readDirectives cs <;> rfl

theorem readDirectives_cons_unknown {c : Comment} {w t : Text}
    (h : cutDirective? c.text = some (w, t)) (hw : DirectiveKind.parse? w = none)
    (cs : List Comment) : readDirectives (c :: cs) = .error (.unknownDirective w) := by
  rw [readDirectives, h]
  simp only [hw]

theorem Carries.read {ds : List Directive} {cs : List Comment} (h : Carries ds cs) :
    readDirectives cs = .ok (ds.map Directive.trimmed) := by
  induction h with
  | nil => rfl
  | other hc _ ih => rw [readDirectives_cons_none (cutDirective?_eq_none_iff.2 hc), ih]
  | directive form _ hblanks hd _ ih =>
    rw [readDirectives_cons_known (form.cut_write hblanks hd), ih]
    rfl

/-- the comment is a directive with a word that no directive has -/
def NamesUnknown (comment w : Text) : Prop :=
  (∃ p : DirectiveParts, p.Reads comment ∧ p.word = w) ∧ ∀ k : DirectiveKind, k.word ≠ w

theorem DirectiveKind.parse?_eq_none_iff {w : Text} :
    parse? w = none ↔ ∀ k : DirectiveKind, k.word ≠ w := by
  rw [parse?, List.find?_eq_none]
  constructor
  · intro h k hk
    exact h k (mem_all k) (decide_eq_true hk)
  · intro h k _ hk
    exact h k (of_decide_eq_true hk)

theorem namesUnknown_iff {comment w : Text} :
    NamesUnknown comment w ↔
      (∃ t, cutDirective? comment = some (w, t)) ∧ DirectiveKind.parse? w = none := by
  rw [NamesUnknown, DirectiveKind.parse?_eq_none_iff]
  refine and_congr_left fun _ => ?_
  constructor
  · rintro ⟨p, hp, hw⟩
    exact ⟨p.payload.trim, cutDirective?_eq_some_iff.2 ⟨p, hp, hw, rfl⟩⟩
  · rintro ⟨t, ht⟩
    obtain ⟨p, hp, hw, -⟩ := cutDirective?_eq_some_iff.1 ht
    exact ⟨p, hp, hw⟩

/-- `w` is the unknown word of the first comment that has one -/
def FirstUnknown (cs : List Comment) (w : Text) : Prop :=
  ∃ before c after, cs = before ++ c :: after ∧
    (∀ b ∈ before, ∀ v, ¬NamesUnknown b.text v) ∧ NamesUnknown c.text w

theorem FirstUnknown.cons {c : Comment} {cs : List Comment} {w : Text}
    (hc : ∀ v, ¬NamesUnknown c.text v) (h : FirstUnknown cs w) : FirstUnknown (c :: cs) w := by
  obtain ⟨before, d, after, rfl, hbefore, hd⟩ := h
  exact ⟨c :: before, d, after, rfl, List.forall_mem_cons.2 ⟨hc, hbefore⟩, hd⟩

theorem exists_firstUnknown {cs : List Comment} (h : ∃ c ∈ cs, ∃ w, NamesUnknown c.text w) :
    ∃ w, FirstUnknown cs w ∧ readDirectives cs = .error (.unknownDirective w) := by
  induction cs with
  | nil => simp at h
  | cons c cs ih =>
    by_cases hc : ∃ w, NamesUnknown c.text w
    · obtain ⟨w, hw⟩ := hc
      obtain ⟨⟨t, ht⟩, hparse⟩ := namesUnknown_iff.1 hw
      exact ⟨w, ⟨[], c, cs, rfl, by simp, hw⟩, readDirectives_cons_unknown ht hparse cs⟩
    · obtain ⟨w, hfirst, hread⟩ := ih (by simpa [hc] using h)
      refine ⟨w, hfirst.cons fun v hv => hc ⟨v, hv⟩, ?_⟩
      cases hcut : cutDirective? c.text with
      | none => rw [readDirectives_cons_none hcut, hread]
      | some p =>
        obtain ⟨v, t⟩ := p
        cases hparse : DirectiveKind.parse? v with
        | none => exact absurd ⟨v, namesUnknown_iff.2 ⟨⟨t, hcut⟩, hparse⟩⟩ hc
        | some k =>
          have hk := List.find?_some (p := fun k : DirectiveKind => k.word = v) hparse
          obtain rfl : k.word = v := of_decide_eq_true hk
          rw [readDirectives_cons_known hcut, hread]
          rfl

/-- **Comments give back the directives written into them.**  From comments that hold directives,
whatever their grouping and whatever other comments stand between them, exactly these directives are
read, with their texts trimmed.  If a comment is a directive with an unknown word, reading fails and
names the first such word. -/
theorem readDirectives_decodes (groups : List (List Comment)) :
    (∀ ds, Carries ds groups.flatten →
      readDirectives groups.flatten = .ok (ds.map Directive.trimmed)) ∧
    ((∃ c ∈ groups.flatten, ∃ w, NamesUnknown c.text w) →
      ∃ w, FirstUnknown groups.flatten w ∧
        readDirectives groups.flatten = .error (.unknownDirective w) ∧
        (DirectiveFault.unknownDirective w).message = "unknown directive rac:" ++ w) := by
  refine ⟨fun ds => Carries.read, fun h => ?_⟩
  obtain ⟨w, hfirst, hread⟩ := exists_firstUnknown h
  exact ⟨w, hfirst, hread, rfl⟩

def popRequires : Directive := { kind := .requires, text := "n > 0 /* n " }

def popEnsures : Directive := { kind := .ensures, text := "\n\t* a[n] /\n\t* b *" }

/-- two groups with a comment that has no word after the tag -/
def popComments : List (List Comment) :=
  [[{ text := "//\trac:requires n > 0 /* n " }, { text := "// rac: n" }],
    [{ text := "/*rac:ensures \n\t* a[n] /\n\t* b * */" }]]

/-- a known word, and two that are none although they begin with one -/
def misspelled : List (List Comment) :=
  [[{ text := "//rac:also*/" }], [{ text := "/* rac:olds x */" }, { text := "//rac:let_ y" }]]

theorem readDirectives_decodes_pop :
    Carries [popRequires, popEnsures] popComments.flatten ∧
    readDirectives popComments.flatten
      = .ok [{ kind := .requires, text := "n > 0 /* n" },
          { kind := .ensures, text := "* a[n] /\n\t* b *" }] ∧
    FirstUnknown misspelled.flatten "olds" := by
  have hcarries : Carries [popRequires, popEnsures] popComments.flatten := by
    refine .directive .line "\t" (List.all_eq_true.1 (by decide)) (by decide +kernel) ?_
    refine .other (cutDirective?_eq_none_iff.1 (by decide +kernel)) ?_
    exact .directive .block "" (by simp) (by decide +kernel) .nil
  have hunknown : NamesUnknown "/* rac:olds x */" "olds" :=
    namesUnknown_iff.2 ⟨⟨"x", by decide +kernel⟩, by decide +kernel⟩
  obtain ⟨w, hfirst, hread, -⟩ := (readDirectives_decodes misspelled).2
    ⟨{ text := "/* rac:olds x */" }, by decide +kernel, "olds", hunknown⟩
  have hfails : readDirectives misspelled.flatten = .error (.unknownDirective "olds") := by
    decide +kernel
  rw [hfails] at hread
  cases hread
  exact ⟨hcarries, (readDirectives_decodes popComments).1 _ hcarries, hfirst⟩

end ContractChecks
