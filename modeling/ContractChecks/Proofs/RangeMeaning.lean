import ContractChecks.Proofs.BoundOrigins
import ContractChecks.Proofs.LoopNests

/-!
# The meaning of a range

A conjunct of a range is a comparison, a chain of two comparisons around a variable, or anything
else that is true or false.  The bounds that are read from a conjunct say what its comparisons say.

* `comparisonsIn names c`: the comparisons of a conjunct; `bound?_cases`: how bounds are read from
  them;
* `Interpretation names type`: integers for operands and truth values for other conjuncts;
* `Interpretation.Holds c`: the meaning of a conjunct;
* `Interpretation.Says b P`: the bound `b` says what `P` says, or nothing at all;
* `says_simpleBound?`: so it is with a comparison and its bound; `Holds.meets`: conjuncts;
* `sums`: operands read as sums of names and ones.
-/

namespace ContractChecks

/-! ### conjuncts -/

/-- the comparisons of a conjunct, two if it is a chain around a variable -/
def comparisonsIn (names : List Text) (c : Text) : List Comparison :=
  match comparison? c with
  | none => []
  | some x =>
    match comparison? x.rhs with
    | none => [x]
    | some y => if names.contains y.lhs then [⟨x.lhs, x.rel, y.lhs⟩, y] else [x]

/-- whether a conjunct with a second comparison of a variable is a chain around `v` that has no
third comparison of `v` -/
def chainsAround (names : List Text) (v c : Text) : Bool :=
  match comparison? c with
  | none => true
  | some x =>
    match comparison? x.rhs with
    | none => true
    | some y =>
      !names.contains y.lhs || (y.lhs == v && (comparison? y.rhs).all fun z => z.lhs != v)

theorem chainBound?_of_all {v lhs rhs : Text} (rel : Relation)
    (h : ((comparison? rhs).all fun z => z.lhs != v) = true) :
    chainBound? v lhs rel rhs = simpleBound? v lhs rel rhs := by
  cases hx : comparison? rhs with
  | none => exact chainBound?_of_none hx v lhs rel
  | some x =>
    rw [hx] at h
    rw [chainBound?_of_some hx, if_neg (by simpa using h)]

/-- how a conjunct that bounds `v` is read, if it is read as it is meant: as one comparison, or as a
chain around `v` -/
theorem bound?_cases {names : List Text} {v c : Text} {b : Bound} (hv : v ∈ names)
    (hb : bound? v c = some b) (hchain : chainsAround names v c = true) :
    (∃ k, comparisonsIn names c = [k] ∧ simpleBound? v k.lhs k.rel k.rhs = some b) ∨
      ∃ k k' a a', comparisonsIn names c = [k, k'] ∧ simpleBound? v k.lhs k.rel k.rhs = some a ∧
        simpleBound? v k'.lhs k'.rel k'.rhs = some a' ∧ b = ⟨a.lower, a'.upper⟩ := by
  rw [bound?_eq_chainBound?] at hb
  split at hb
  case h_2 => cases hb
  case h_1 x hx =>
    unfold chainsAround at hchain
    unfold comparisonsIn
    rw [chainBound?] at hb
    simp only [hx] at hchain ⊢
    split at hb
    case h_2 hnone =>
      simp only [hnone]
      exact .inl ⟨x, rfl, hb⟩
    case h_1 y hy =>
      simp only [hy] at hchain ⊢
      split at hb
      · rename_i hyv
        have hmem : names.contains y.lhs = true := by
          rw [hyv]
          simpa using hv
        have hlast : ((comparison? y.rhs).all fun z => z.lhs != v) = true := by
          rw [hmem, hyv, beq_self_eq_true] at hchain
          exact hchain
        rw [hmem]
        split at hb
        case h_2 => cases hb
        case h_1 a a' ha ha' =>
          cases hb
          rw [chainBound?_of_all y.rel hlast] at ha'
          refine .inr ⟨_, y, a, a', rfl, ?_, ?_, rfl⟩
          · rw [hyv]
            exact ha
          · rw [hyv]
            exact ha'
      · rename_i hyv
        have hmem : names.contains y.lhs = false := by
          simpa [hyv] using hchain
        rw [hmem]
        exact .inl ⟨x, rfl, hb⟩

/-! ### interpretations -/

/-- integers for operands and truth values for other conjuncts, given values of the variables -/
structure Interpretation (names : List Text) (type : Text) where
  value : Text → Env → Int
  truth : Text → Env → Prop
  value_name : ∀ v ∈ names, ∀ env, value v env = env v
  /-- an operand that does not refer to the last variables depends on the first ones only -/
  settled : ∀ us vs, us ++ vs = names → ∀ t, referencesAny t vs = false → SettledBy value us t
  value_succ : ∀ t, (isName t || isNumeral t) = true →
    ∀ env, value (t ++ " + 1") env = value t env + 1
  value_paren_succ : ∀ t env, value ("(" ++ t ++ ") + 1") env = value t env + 1
  value_convert : ∀ t env, value (type ++ "(" ++ t ++ ")") env = value t env
  truth_nil : ∀ env, truth [] env

namespace Interpretation

variable {names : List Text} {type : Text} (I : Interpretation names type)

def Compares (k : Comparison) (env : Env) : Prop :=
  k.rel.Holds (I.value k.lhs env) (I.value k.rhs env)

instance (k : Comparison) (env : Env) : Decidable (I.Compares k env) :=
  inferInstanceAs (Decidable (k.rel.Holds (I.value k.lhs env) (I.value k.rhs env)))

def Holds (c : Text) (env : Env) : Prop :=
  match comparisonsIn names c with
  | [] => I.truth c env
  | ks => ∀ k ∈ ks, I.Compares k env

variable {I}

theorem Holds.compares {c : Text} {env : Env} (h : I.Holds c env) :
    ∀ k ∈ comparisonsIn names c, I.Compares k env := by
  unfold Holds at h
  split at h
  · rename_i hnil
    rw [hnil]
    simp
  · exact h

theorem holds_of_compares {c : Text} {env : Env} (hne : comparisonsIn names c ≠ [])
    (h : ∀ k ∈ comparisonsIn names c, I.Compares k env) : I.Holds c env := by
  unfold Holds
  split
  · rename_i hnil
    exact absurd hnil hne
  · exact h

theorem holds_nil (env : Env) : I.Holds [] env := I.truth_nil env

/-! ### bounds -/

variable (I)

/-- the variable satisfies the limits of a bound -/
structure Meets (v : Text) (b : Bound) (env : Env) : Prop where
  lower : ∀ lo ∈ b.lower, I.value lo env ≤ env v
  upper : ∀ u ∈ b.upper, u.1.Holds (env v) (I.value u.2 env)

/-- the bound says what `P` says, or nothing at all -/
structure Says (v : Text) (b : Bound) (env : Env) (P : Prop) : Prop where
  meets : P → I.Meets v b env
  holds : b ≠ {} → I.Meets v b env → P

variable {I}

theorem meets_empty (v : Text) (env : Env) : I.Meets v {} env := ⟨by simp, by simp⟩

theorem value_firstValue (limit : Text) (strict : Bool) (env : Env) :
    I.value (firstValue limit strict) env = I.value limit env + if strict then 1 else 0 := by
  unfold firstValue
  cases strict with
  | false => exact (Int.add_zero _).symm
  | true =>
    show I.value (if (isName limit || isNumeral limit) = true then limit ++ " + 1"
      else "(" ++ limit ++ ") + 1") env = I.value limit env + 1
    split
    · rename_i hword
      exact I.value_succ limit hword env
    · exact I.value_paren_succ limit env

theorem value_startText (lo : Text) (env : Env) :
    I.value (startText type lo) env = I.value lo env := by
  unfold startText
  split
  · rfl
  · exact I.value_convert lo env

theorem says_upperBound (v : Text) (rel : Relation) (limit : Text) (env : Env) :
    I.Says v (upperBound rel limit) env (rel.Holds (env v) (I.value limit env)) := by
  unfold upperBound
  split
  · exact ⟨fun _ => meets_empty v env, fun hne => absurd rfl hne⟩
  · refine ⟨fun h => ⟨by simp, ?_⟩, fun _ h => h.upper _ rfl⟩
    rintro u ⟨⟩
    exact h

theorem says_lowerBound (v limit : Text) (strict : Bool) (env : Env) :
    I.Says v (lowerBound limit strict) env
      (I.value limit env + (if strict then 1 else 0) ≤ env v) := by
  rw [← value_firstValue]
  show I.Says v (if firstValue limit strict = [] then {} else { lower := some _ }) env _
  split
  · exact ⟨fun _ => meets_empty v env, fun hne => absurd rfl hne⟩
  · refine ⟨fun h => ⟨?_, by simp⟩, fun _ h => h.lower _ rfl⟩
    rintro lo ⟨⟩
    exact h

theorem Says.congr {v : Text} {b : Bound} {env : Env} {P Q : Prop} (h : I.Says v b env P)
    (hpq : P ↔ Q) : I.Says v b env Q :=
  ⟨fun hq => h.meets (hpq.2 hq), fun hne hb => hpq.1 (h.holds hne hb)⟩

theorem says_simpleBound? {v lhs rhs : Text} {rel : Relation} {b : Bound} (hv : v ∈ names)
    (h : simpleBound? v lhs rel rhs = some b) (env : Env) :
    I.Says v b env (I.Compares ⟨lhs, rel, rhs⟩ env) := by
  have hname := I.value_name v hv env
  unfold Compares
  unfold simpleBound? at h
  split at h
  · rename_i heq
    cases h
    subst heq
    rw [hname]
    cases rel with
    | lt => exact says_upperBound lhs .lt rhs env
    | le => exact says_upperBound lhs .le rhs env
    | gt => exact (says_lowerBound lhs rhs true env).congr Iff.rfl
    | ge =>
      refine (says_lowerBound lhs rhs false env).congr ?_
      show I.value rhs env + 0 ≤ env lhs ↔ env lhs ≥ I.value rhs env
      rw [Int.add_zero, ge_iff_le]
  split at h
  · rename_i heq
    cases h
    subst heq
    rw [hname]
    cases rel with
    | lt => exact (says_lowerBound rhs lhs true env).congr Iff.rfl
    | le =>
      refine (says_lowerBound rhs lhs false env).congr ?_
      show I.value lhs env + 0 ≤ env rhs ↔ I.value lhs env ≤ env rhs
      rw [Int.add_zero]
    | gt => exact says_upperBound rhs .lt lhs env
    | ge => exact says_upperBound rhs .le lhs env
  · cases h

/-- a conjunct that holds, and is read as it is meant, makes the variable satisfy its bound -/
theorem Holds.meets {v c : Text} {b : Bound} {env : Env} (hv : v ∈ names)
    (hb : bound? v c = some b) (hchain : chainsAround names v c = true) (h : I.Holds c env) :
    I.Meets v b env := by
  have hcompares := h.compares
  rcases bound?_cases hv hb hchain with ⟨k, hks, hk⟩ | ⟨k, k', a, a', hks, hk, hk', rfl⟩
  · rw [hks] at hcompares
    exact (says_simpleBound? hv hk env).meets (hcompares k List.mem_cons_self)
  · rw [hks] at hcompares
    have hfirst := (says_simpleBound? hv hk env).meets (hcompares k List.mem_cons_self)
    have hsecond := (says_simpleBound? hv hk' env).meets (hcompares k' (by simp))
    exact ⟨hfirst.lower, hsecond.upper⟩

end Interpretation

/-! ### sums -/

/-- the sum of the values of names, given by `constant` for names other than variables -/
def wordSum (names : List Text) (constant : Text → Int) (ws : List Text) (env : Env) : Int :=
  ws.foldr (fun w n => (if names.contains w then env w else constant w) + n) 0

/-- the sum of the names in a text, and of as many ones as the text has plus signs -/
def sumValue (names : List Text) (constant : Text → Int) (t : Text) (env : Env) : Int :=
  (if Quoting.code.after t = .code then wordSum names constant (words t) env else 0) + t.count '+'

section
variable {names : List Text} {constant : Text → Int}

theorem wordSum_cons (w : Text) (ws : List Text) (env : Env) :
    wordSum names constant (w :: ws) env
      = (if names.contains w then env w else constant w) + wordSum names constant ws env := rfl

theorem wordSum_append (ws ws' : List Text) (env : Env) :
    wordSum names constant (ws ++ ws') env
      = wordSum names constant ws env + wordSum names constant ws' env := by
  induction ws with
  | nil => exact (Int.zero_add _).symm
  | cons w ws ih => rw [List.cons_append, wordSum_cons, wordSum_cons, ih, Int.add_assoc]

theorem wordSum_congr {ws : List Text} {env env' : Env}
    (h : ∀ w ∈ ws, w ∈ names → env w = env' w) :
    wordSum names constant ws env = wordSum names constant ws env' := by
  induction ws with
  | nil => rfl
  | cons w ws ih =>
    rw [List.forall_mem_cons] at h
    rw [wordSum_cons, wordSum_cons, ih h.2]
    split
    · rename_i hmem
      rw [h.1 (by simpa using hmem)]
    · rfl

theorem sumValue_of_closed {t : Text} (h : LiteralsClosed t) (env : Env) :
    sumValue names constant t env = wordSum names constant (words t) env + t.count '+' := by
  have hcode : Quoting.code.after t = .code := h
  rw [sumValue, if_pos hcode]

theorem sumValue_of_not_closed {t : Text} (h : ¬ LiteralsClosed t) (env : Env) :
    sumValue names constant t env = t.count '+' := by
  have hcode : ¬ Quoting.code.after t = .code := h
  rw [sumValue, if_neg hcode, Int.zero_add]

theorem sumValue_name (h : ∀ v ∈ names, isName v = true) :
    ∀ v ∈ names, ∀ env, sumValue names constant v env = env v := by
  intro v hv env
  have hname := h v hv
  have hwords : words v = [v] := by
    have hends : EndsName [] := by simp [EndsName]
    have hlex := lexemes_name hname hends
    rw [List.append_nil, lexemes.eq_1] at hlex
    rw [words, hlex]
    rfl
  have hplus : v.count '+' = 0 := by
    refine List.count_eq_zero.2 fun hmem => ?_
    have hpart := isNamePart_of_isName hname _ hmem
    revert hpart
    decide
  have hmem : names.contains v = true := by simpa using hv
  rw [sumValue_of_closed (literalsClosed_of_isName hname), hwords, hplus, wordSum, List.foldr_cons,
    hmem]
  simp

theorem settled_sumValue (us vs : List Text) (hnames : us ++ vs = names) (t : Text)
    (h : referencesAny t vs = false) : SettledBy (sumValue names constant) us t := by
  intro env env' heq
  rw [referencesAny_iff] at h
  unfold sumValue
  rw [wordSum_congr]
  intro w hw hmem
  rw [← hnames] at hmem
  rcases List.mem_append.1 hmem with hmem | hmem
  · exact heq w hmem
  · exact absurd hw (h w hmem)

/-- marks and numbers behind a text -/
theorem sumValue_append {u : Text} (hfresh : StartsFresh u) (hquote : u.any isQuoteMark = false)
    (hwords : words u = []) (t : Text) (env : Env) :
    sumValue names constant (t ++ u) env = sumValue names constant t env + u.count '+' := by
  by_cases hclosed : LiteralsClosed t
  · have hboth := hclosed.append (literalsClosed_of_noQuote (noQuote_of_any hquote))
    rw [sumValue_of_closed hclosed, sumValue_of_closed hboth, words_append hclosed hfresh, hwords,
      List.append_nil, List.count_append, Int.natCast_add, Int.add_assoc]
  · have hboth : ¬ LiteralsClosed (t ++ u) := fun h =>
      hclosed (h.of_append_right (noQuote_of_any hquote))
    rw [sumValue_of_not_closed hclosed, sumValue_of_not_closed hboth, List.count_append,
      Int.natCast_add]

/-- a text between one whose names do not count and marks and numbers -/
theorem sumValue_between {a u : Text} (ha : Block a)
    (hzero : ∀ env, wordSum names constant (words a) env = 0) (hfresh : StartsFresh u)
    (hquote : u.any isQuoteMark = false) (hwords : words u = []) (t : Text) (env : Env) :
    sumValue names constant (a ++ t ++ u) env
      = sumValue names constant t env + (a ++ u).count '+' := by
  have hsame : words (a ++ t) = words a ++ words t := by
    rw [words, ha.lexemes_append, List.filterMap_append]
    rfl
  have hclosed : Quoting.code.after (a ++ t) = Quoting.code.after t := by
    rw [Quoting.after_append, ha.closed]
  rw [sumValue_append hfresh hquote hwords, sumValue, hclosed, hsame, wordSum_append, hzero,
    Int.zero_add, List.count_append, List.count_append, sumValue]
  omega

theorem sumValue_succ (t : Text) (env : Env) :
    sumValue names constant (t ++ " + 1") env = sumValue names constant t env + 1 :=
  sumValue_append (u := " + 1") (startsFresh_cons (by decide) _) (by decide) (by decide +kernel) t
    env

theorem sumValue_paren_succ (t : Text) (env : Env) :
    sumValue names constant ("(" ++ t ++ ") + 1") env = sumValue names constant t env + 1 := by
  have hparen : Block "(" := LiteralsClosed.block (a := []) rfl (by decide)
  have hnone : words "(" = [] := by decide +kernel
  exact sumValue_between (u := ") + 1") hparen (fun env => by rw [hnone]; rfl)
    (startsFresh_cons (by decide) _) (by decide) (by decide +kernel) t env

theorem sumValue_convert (hvar : names.contains "int" = false) (hconst : constant "int" = 0)
    (t : Text) (env : Env) :
    sumValue names constant ("int" ++ "(" ++ t ++ ")") env = sumValue names constant t env := by
  have hparen : Block ("int" ++ "(") := LiteralsClosed.block rfl (by decide)
  have hwords : words ("int" ++ "(") = [("int" : Text)] := by decide +kernel
  have hzero : ∀ env, wordSum names constant (words ("int" ++ "(")) env = 0 := by
    intro env
    rw [hwords, wordSum_cons, hvar, hconst]
    rfl
  have hsum := sumValue_between (u := ")") hparen hzero (startsFresh_cons (by decide) _)
    (by decide) (by decide +kernel) t env
  exact hsum.trans (Int.add_zero _)

end

/-- operands are sums of names and ones, and all other conjuncts are true -/
def sums (names : List Text) (constant : Text → Int) (hnames : names.all isName = true)
    (hvar : names.contains "int" = false) (hconst : constant "int" = 0) :
    Interpretation names "int" where
  value := sumValue names constant
  truth := fun _ _ => True
  value_name := sumValue_name (List.all_eq_true.1 hnames)
  settled := settled_sumValue
  value_succ := fun t _ => sumValue_succ t
  value_paren_succ := sumValue_paren_succ
  value_convert := sumValue_convert hvar hconst
  truth_nil := fun _ => trivial

end ContractChecks
