import ContractChecks.Declaration.Contract
import ContractChecks.Proofs.Lists
import ContractChecks.Proofs.SpecCase

/-!
# Old expressions

Reading an expression of the state after the call puts names in the place of its keywords and of
its old expressions.  The names of old expressions are numbered, one for each spec case and
expression, in the order in which they first occur.  So the text that is read depends on the text
that was written and on the numbers alone.

* `exprParts s`: the lexemes of an expression, where an old expression is one part;
* `Scope.oldExprsIn s`: the old expressions of `s`, in order;
* `Scope.filled temp s`: the expression `s`, where `temp` names the variables of old expressions;
* `tempOf occ key`: the variable of an old expression among the ones that occur;
* `Captures.Holds`: the captures are those of the old expressions that have occurred;
* `Scope.capture_holds`, `Scope.postText_holds`: one old expression, and a whole expression.
-/

namespace ContractChecks

/-! ### parts of an expression -/

/-- a part of an expression of the state after the call -/
inductive ExprPart where
  | lexeme (l : Lexeme)
  /-- an old expression, given its argument -/
  | old (inner : Text)
deriving DecidableEq

def ExprPart.inner? : ExprPart → Option Text
  | .lexeme _ => none
  | .old inner => some inner

/-- the parts from left to right; the keyword of an old expression without argument is a lexeme -/
def exprParts : Text → List ExprPart
  | [] => []
  | c :: r =>
    if (firstLexeme c r).1 = .keyword oldKeyword then
      match _h : oldArgument? (firstLexeme c r).2 with
      | some (inner, rest) => .old inner :: exprParts rest
      | none => .lexeme (firstLexeme c r).1 :: exprParts (firstLexeme c r).2
    else .lexeme (firstLexeme c r).1 :: exprParts (firstLexeme c r).2
termination_by s => s.length
decreasing_by
  · have h1 := length_firstLexeme_le c r
    have h2 := length_oldArgument?_le _h
    simp only [List.length_cons]
    omega
  · have h1 := length_firstLexeme_le c r
    simp only [List.length_cons]
    omega
  · have h1 := length_firstLexeme_le c r
    simp only [List.length_cons]
    omega

def oldArguments (s : Text) : List Text := (exprParts s).filterMap ExprPart.inner?

namespace Scope

/-- the expression that is captured for an old expression, given its argument -/
def oldExpr (sc : Scope) (inner : Text) : Except DirectiveFault Text := do
  let expr ← sc.preText inner
  sc.readable (.unreadableOld expr) expr
  return sc.eval.core expr

def oldExprsIn (sc : Scope) (s : Text) : Except DirectiveFault (List Text) :=
  (oldArguments s).mapM sc.oldExpr

/-- what stands for a part, where `temp` names the variables of old expressions -/
def partText (sc : Scope) (temp : Text → Text) (whole : Text) :
    ExprPart → Except DirectiveFault Text
  | .lexeme (.keyword raw) => sc.postKeyword whole raw
  | .lexeme l => .ok l.text
  | .old inner => do
    let expr ← sc.oldExpr inner
    return temp expr

/-- an expression of the state after the call, where `temp` names the variables of old
expressions -/
def filled (sc : Scope) (temp : Text → Text) (s : Text) : Except DirectiveFault Text := do
  let us ← (exprParts s).mapM (sc.partText temp s)
  return (Text.concat us).trim

end Scope

/-! ### numbered variables -/

/-- the variable with a number -/
def oldName (n : Nat) : Text := oldStem ++ Text.ofNat n

/-- the variable of an old expression with its spec case, where `occ` are those that occur -/
def tempOf (occ : List (Int × Text)) (key : Int × Text) : Text := oldName (occ.eraseDups.idxOf key)

/-- the different old expressions of a spec case -/
def oldsOf (occ : List (Int × Text)) (i : Int) : List Text :=
  (occ.eraseDups.filter fun key => key.1 = i).map Prod.snd

theorem eraseDups_concat_of_mem {occ : List (Int × Text)} {key : Int × Text} (h : key ∈ occ) :
    (occ ++ [key]).eraseDups = occ.eraseDups := by
  rw [eraseDups_concat, if_pos h]

/-- an old expression keeps its variable when more of them occur -/
theorem tempOf_append {occ : List (Int × Text)} {key : Int × Text} (h : key ∈ occ)
    (more : List (Int × Text)) : tempOf (occ ++ more) key = tempOf occ key := by
  unfold tempOf
  rw [List.eraseDups_append, List.idxOf_append_of_mem (List.mem_eraseDups.2 h)]

theorem tempOf_concat {occ : List (Int × Text)} {key : Int × Text} (h : key ∉ occ) :
    tempOf (occ ++ [key]) key = oldName occ.eraseDups.length := by
  have hnot : key ∉ occ.eraseDups := fun hmem => h (List.mem_eraseDups.1 hmem)
  unfold tempOf
  rw [eraseDups_concat, if_neg h, List.idxOf_append_of_notMem hnot, List.idxOf_cons_self]
  rfl

theorem oldsOf_concat_of_mem {occ : List (Int × Text)} {key : Int × Text} (h : key ∈ occ)
    (i : Int) : oldsOf (occ ++ [key]) i = oldsOf occ i := by
  unfold oldsOf
  rw [eraseDups_concat_of_mem h]

theorem oldsOf_concat {occ : List (Int × Text)} {key : Int × Text} (h : key ∉ occ) (i : Int) :
    oldsOf (occ ++ [key]) i = if key.1 = i then oldsOf occ i ++ [key.2] else oldsOf occ i := by
  unfold oldsOf
  rw [eraseDups_concat, if_neg h, List.filter_append, List.map_append]
  by_cases hi : key.1 = i <;> simp [hi]

theorem mem_oldsOf {occ : List (Int × Text)} {i : Int} {n : Text} :
    n ∈ oldsOf occ i ↔ (i, n) ∈ occ := by
  unfold oldsOf
  simp only [List.mem_map, List.mem_filter, List.mem_eraseDups, decide_eq_true_eq]
  constructor
  · rintro ⟨⟨j, m⟩, ⟨hmem, rfl⟩, rfl⟩
    exact hmem
  · exact fun h => ⟨(i, n), ⟨h, rfl⟩, rfl⟩

/-! ### captures -/

/-- a list that is left out when it is empty -/
def listed {α : Type} (l : List α) : Option (List α) := if l.isEmpty then none else some l

theorem getD_listed {α : Type} (l : List α) : (listed l).getD [] = l := by
  cases l <;> rfl

theorem eq_of_listed {α : Type} {l l' : List α} (h : listed l = some l') : l = l' := by
  rw [← getD_listed l, h]
  rfl

theorem listed_concat {α : Type} (l : List α) (a : α) : listed (l ++ [a]) = some (l ++ [a]) := by
  cases l <;> rfl

namespace Scope

def oldDecl (sc : Scope) (temp : Text → Text) (expr : Text) : Except DirectiveFault Text := do
  let type ← sc.typeOf expr
  return "var " ++ temp expr ++ " " ++ type

end Scope

def oldCapture (temp : Text → Text) (expr : Text) : Text := temp expr ++ " = " ++ expr

/-- the captures are those of the old expressions `occ`, which have occurred in this order -/
structure Captures.Holds (sc : Scope) (occ : List (Int × Text)) (c : Captures) : Prop where
  shared : c.shared = occ.eraseDups.map fun key => (key, tempOf occ key)
  next : c.next = occ.eraseDups.length
  decls : ∀ i, ∃ ds, (oldsOf occ i).mapM (sc.oldDecl fun n => tempOf occ (i, n)) = .ok ds ∧
    c.oldExprDecls.get? i = listed ds
  exprs : ∀ i, c.oldExprs.get? i = listed ((oldsOf occ i).map (oldCapture fun n => tempOf occ (i, n)))

/-! ### reading -/

section
variable {α β : Type} {c c' : Captures}

theorem ReadM.bind_eq_ok {x : ReadM α} {k : α → ReadM β} {b : β}
    (h : (x >>= k).run c = .ok b c') : ∃ a d, x.run c = .ok a d ∧ (k a).run d = .ok b c' := by
  rw [EStateM.run_bind] at h
  cases hx : x.run c with
  | ok a d =>
    rw [hx] at h
    exact ⟨a, d, rfl, h⟩
  | error e d =>
    rw [hx] at h
    cases h

theorem ReadM.pure_eq_ok {a b : α} (h : (pure a : ReadM α).run c = .ok b c') : a = b ∧ c = c' := by
  cases h
  exact ⟨rfl, rfl⟩

theorem ReadM.ofExcept_bind_eq_ok {x : Except DirectiveFault α} {k : α → ReadM β} {b : β}
    (h : (ReadM.ofExcept x >>= k).run c = .ok b c') :
    ∃ a, x = .ok a ∧ (k a).run c = .ok b c' := by
  cases x with
  | error e => cases h
  | ok a => exact ⟨a, rfl, h⟩

end

theorem lookup_map_self {κ α : Type} [BEq κ] [LawfulBEq κ] [DecidableEq κ] (f : κ → α) (l : List κ)
    (key : κ) : (l.map fun k => (k, f k)).lookup key = if key ∈ l then some (f key) else none := by
  induction l with
  | nil => rfl
  | cons k l ih =>
    rw [List.map_cons, lookup_cons_eq_ite, ih]
    by_cases hk : key = k
    · rw [if_pos hk, hk, if_pos List.mem_cons_self]
    · simp only [List.mem_cons, hk, false_or, if_false]

namespace Captures.Holds

variable {sc : Scope} {occ : List (Int × Text)} {c : Captures}

theorem lookup_shared (hc : c.Holds sc occ) (key : Int × Text) :
    c.shared.lookup key = if key ∈ occ then some (tempOf occ key) else none := by
  rw [hc.shared, lookup_map_self]
  simp only [List.mem_eraseDups]

theorem again (hc : c.Holds sc occ) {key : Int × Text} (h : key ∈ occ) :
    c.Holds sc (occ ++ [key]) := by
  have htemp : tempOf (occ ++ [key]) = tempOf occ := by
    unfold tempOf
    rw [eraseDups_concat_of_mem h]
  constructor
  · rw [eraseDups_concat_of_mem h, htemp]
    exact hc.shared
  · rw [eraseDups_concat_of_mem h]
    exact hc.next
  · intro i
    rw [oldsOf_concat_of_mem h, htemp]
    exact hc.decls i
  · intro i
    rw [oldsOf_concat_of_mem h, htemp]
    exact hc.exprs i

/-- a new old expression takes the next number -/
theorem addExpr (hc : c.Holds sc occ) {i : Int} {expr type : Text} (h : (i, expr) ∉ occ)
    (htype : sc.typeOf expr = .ok type) :
    (c.addExpr i expr type).Holds sc (occ ++ [(i, expr)]) := by
  have hfresh : c.freshName = tempOf (occ ++ [(i, expr)]) (i, expr) := by
    rw [tempOf_concat h, ← hc.next]
    rfl
  -- the variables that are already there keep their names
  have hkeep : ∀ j, ∀ n ∈ oldsOf occ j, tempOf (occ ++ [(i, expr)]) (j, n) = tempOf occ (j, n) :=
    fun j n hn => tempOf_append (mem_oldsOf.1 hn) _
  constructor
  · show c.shared ++ [((i, expr), c.freshName)] = _
    rw [eraseDups_concat, if_neg h, List.map_append, hc.shared, hfresh]
    congr 1
    refine List.map_congr_left fun key hkey => ?_
    rw [tempOf_append (List.mem_eraseDups.1 hkey)]
  · show c.next + 1 = _
    rw [eraseDups_concat, if_neg h, List.length_append, hc.next]
    rfl
  · intro j
    obtain ⟨ds, hds, hget⟩ := hc.decls j
    have hold : (oldsOf occ j).mapM (sc.oldDecl fun n => tempOf (occ ++ [(i, expr)]) (j, n))
        = .ok ds := by
      rw [← hds]
      refine mapM_congr fun n hn => ?_
      rw [Scope.oldDecl, Scope.oldDecl, hkeep j n hn]
    rw [oldsOf_concat h]
    show ∃ ds, _ ∧ (c.oldExprDecls.append i _).get? j = _
    rw [CaseTable.append, CaseTable.get?_set]
    by_cases hj : i = j
    · subst hj
      refine ⟨ds ++ ["var " ++ c.freshName ++ " " ++ type], ?_, ?_⟩
      · rw [if_pos rfl]
        refine mapM_append_eq_ok hold (mapM_cons_eq_ok ?_ rfl)
        rw [Scope.oldDecl, htype, hfresh]
        rfl
      · rw [if_pos rfl, hget, getD_listed, listed_concat]
    · refine ⟨ds, ?_, ?_⟩
      · rw [if_neg hj]
        exact hold
      · rw [if_neg fun hji => hj hji.symm, hget]
  · intro j
    have hold : (oldsOf occ j).map (oldCapture fun n => tempOf (occ ++ [(i, expr)]) (j, n))
        = (oldsOf occ j).map (oldCapture fun n => tempOf occ (j, n)) := by
      refine List.map_congr_left fun n hn => ?_
      rw [oldCapture, oldCapture, hkeep j n hn]
    rw [oldsOf_concat h]
    show (c.oldExprs.append i _).get? j = _
    rw [CaseTable.append, CaseTable.get?_set, hc.exprs, hc.exprs, getD_listed]
    by_cases hj : i = j
    · subst hj
      rw [if_pos rfl, if_pos rfl, List.map_append, hold, hfresh, List.map_singleton, listed_concat]
      rfl
    · rw [if_neg fun hji => hj hji.symm, if_neg hj, hold]

end Captures.Holds

theorem Captures.holds_empty (sc : Scope) : Captures.Holds sc [] {} where
  shared := rfl
  next := rfl
  decls := fun _ => ⟨[], rfl, rfl⟩
  exprs := fun _ => rfl

namespace Scope

variable {sc : Scope} {occ : List (Int × Text)} {c c' : Captures} {index : Int}

/-- the captures after an old expression has been captured are those with one more that occurs -/
theorem capture_holds {expr name : Text} (hc : c.Holds sc occ)
    (h : (sc.capture index expr).run c = .ok name c') :
    c'.Holds sc (occ ++ [(index, expr)]) ∧ name = tempOf (occ ++ [(index, expr)]) (index, expr) ∧
      c'.oldVars = c.oldVars := by
  unfold capture at h
  obtain ⟨d, d', hget, h⟩ := ReadM.bind_eq_ok h
  cases hget
  rw [hc.lookup_shared] at h
  by_cases hmem : (index, expr) ∈ occ
  · rw [if_pos hmem] at h
    obtain ⟨rfl, rfl⟩ := ReadM.pure_eq_ok h
    exact ⟨hc.again hmem, (tempOf_append hmem _).symm, rfl⟩
  · rw [if_neg hmem] at h
    obtain ⟨type, htype, hset⟩ := ReadM.ofExcept_bind_eq_ok h
    cases hset
    refine ⟨hc.addExpr hmem htype, ?_, rfl⟩
    rw [tempOf_concat hmem, ← hc.next]
    rfl

theorem readOld_eq_ok {inner name : Text} (h : (sc.readOld index inner).run c = .ok name c') :
    ∃ expr, sc.oldExpr inner = .ok expr ∧ (sc.capture index expr).run c = .ok name c' := by
  unfold readOld at h
  obtain ⟨e, he, h⟩ := ReadM.ofExcept_bind_eq_ok h
  obtain ⟨_, hread, h⟩ := ReadM.ofExcept_bind_eq_ok h
  refine ⟨sc.eval.core e, ?_, h⟩
  rw [oldExpr, he]
  show (sc.readable (.unreadableOld e) e >>= fun _ => .ok (sc.eval.core e)) = _
  rw [hread]
  rfl

section
variable {whole : Text} {x : Char} {r : Text}

theorem postFrom_old {inner rest : Text} (hold : (firstLexeme x r).1 = .keyword oldKeyword)
    (harg : oldArgument? (firstLexeme x r).2 = some (inner, rest)) :
    sc.postFrom index whole (x :: r) = (do
      let name ← sc.readOld index inner
      let more ← sc.postFrom index whole rest
      return name ++ more) := by
  rw [postFrom]
  split
  case h_1 raw hraw =>
    rw [hold] at hraw
    cases hraw
    rw [if_pos rfl]
    split
    case h_1 hnone =>
      rw [harg] at hnone
      cases hnone
    case h_2 inner' rest' hsome =>
      rw [harg] at hsome
      cases hsome
      rfl
  case h_2 hno => exact absurd hold (hno _)

theorem postFrom_noArgument (hold : (firstLexeme x r).1 = .keyword oldKeyword)
    (harg : oldArgument? (firstLexeme x r).2 = none) :
    sc.postFrom index whole (x :: r) = throw (.oldArgument whole) := by
  rw [postFrom]
  split
  case h_1 raw hraw =>
    rw [hold] at hraw
    cases hraw
    rw [if_pos rfl]
    split
    case h_1 => rfl
    case h_2 inner rest hsome =>
      rw [harg] at hsome
      cases hsome
  case h_2 hno => exact absurd hold (hno _)

theorem postFrom_lexeme (temp : Text → Text) (hno : (firstLexeme x r).1 ≠ .keyword oldKeyword) :
    sc.postFrom index whole (x :: r) = (do
      let name ← ReadM.ofExcept (sc.partText temp whole (.lexeme (firstLexeme x r).1))
      let more ← sc.postFrom index whole (firstLexeme x r).2
      return name ++ more) := by
  rw [postFrom]
  split
  case h_1 raw hraw =>
    have hne : raw ≠ oldKeyword := fun he => hno (hraw.trans (congrArg _ he))
    rw [if_neg hne, hraw, partText]
  case h_2 hkey =>
    have hpart : sc.partText temp whole (.lexeme (firstLexeme x r).1)
        = .ok (firstLexeme x r).1.text := by
      cases hl : (firstLexeme x r).1 with
      | keyword raw => exact absurd hl (hkey raw)
      | literal raw => rfl
      | name raw => rfl
      | number raw => rfl
      | other d => rfl
    rw [hpart]
    rfl

end

/-- reading a part of an expression: its old expressions are captured, and its text is filled with
their variables, whatever occurs later -/
theorem postFrom_holds {whole s t : Text} (hc : c.Holds sc occ)
    (h : (sc.postFrom index whole s).run c = .ok t c') :
    ∃ ns, sc.oldExprsIn s = .ok ns ∧ c'.Holds sc (occ ++ ns.map (index, ·)) ∧
      c'.oldVars = c.oldVars ∧
      ∀ more, ∃ us, (exprParts s).mapM (sc.partText
        (fun n => tempOf (occ ++ ns.map (index, ·) ++ more) (index, n)) whole) = .ok us ∧
          t = Text.concat us := by
  unfold oldExprsIn oldArguments
  -- the old expressions that occur grow along the text, and later ones do not change a number
  fun_induction exprParts s generalizing occ c t with
  | case1 =>
    rw [postFrom] at h
    obtain ⟨rfl, rfl⟩ := ReadM.pure_eq_ok h
    refine ⟨[], rfl, ?_, rfl, fun more => ⟨[], rfl, rfl⟩⟩
    rw [List.map_nil, List.append_nil]
    exact hc
  | case2 x r hold inner rest harg ih =>
    rw [postFrom_old hold harg] at h
    obtain ⟨name, d, hread, h⟩ := ReadM.bind_eq_ok h
    obtain ⟨tail, d', hrest, hpure⟩ := ReadM.bind_eq_ok h
    cases hpure
    obtain ⟨expr, hexpr, hcapture⟩ := readOld_eq_ok hread
    obtain ⟨hd, hname, hvars⟩ := capture_holds hc hcapture
    obtain ⟨ns, hns, hholds, hvars', hfill⟩ := ih hd hrest
    have hocc : occ ++ (expr :: ns).map (index, ·) = occ ++ [(index, expr)] ++ ns.map (index, ·) := by
      rw [List.map_cons, List.append_assoc]
      rfl
    refine ⟨expr :: ns, mapM_cons_eq_ok hexpr hns, hocc ▸ hholds, hvars'.trans hvars, fun more => ?_⟩
    obtain ⟨us, hus, ht⟩ := hfill more
    rw [hocc]
    refine ⟨name :: us, mapM_cons_eq_ok ?_ hus, by rw [ht]; rfl⟩
    have hmem : (index, expr) ∈ occ ++ [(index, expr)] := by simp
    rw [partText, hexpr, hname, List.append_assoc, ← tempOf_append hmem]
    rfl
  | case3 x r hold harg ih =>
    rw [postFrom_noArgument hold harg] at h
    cases h
  | case4 x r hno ih =>
    rw [postFrom_lexeme id hno] at h
    obtain ⟨name, hname, h⟩ := ReadM.ofExcept_bind_eq_ok h
    obtain ⟨tail, d', hrest, hpure⟩ := ReadM.bind_eq_ok h
    cases hpure
    obtain ⟨ns, hns, hholds, hvars, hfill⟩ := ih hc hrest
    refine ⟨ns, hns, hholds, hvars, fun more => ?_⟩
    obtain ⟨us, hus, ht⟩ := hfill more
    refine ⟨name :: us, mapM_cons_eq_ok ?_ hus, by rw [ht]; rfl⟩
    rw [← hname]
    cases (firstLexeme x r).1 <;> rfl

theorem postText_holds {s t : Text} (hc : c.Holds sc occ)
    (h : (sc.postText index s).run c = .ok t c') :
    ∃ ns, sc.oldExprsIn s = .ok ns ∧ c'.Holds sc (occ ++ ns.map (index, ·)) ∧
      c'.oldVars = c.oldVars ∧
      ∀ more, sc.filled (fun n => tempOf (occ ++ ns.map (index, ·) ++ more) (index, n)) s
        = .ok t := by
  unfold postText at h
  obtain ⟨raw, d, hfrom, hpure⟩ := ReadM.bind_eq_ok h
  cases hpure
  obtain ⟨ns, hns, hholds, hvars, hfill⟩ := postFrom_holds hc hfrom
  refine ⟨ns, hns, hholds, hvars, fun more => ?_⟩
  obtain ⟨us, hus, hraw⟩ := hfill more
  rw [filled, hus, hraw]
  rfl

end Scope

end ContractChecks
