/-!
# Computations that may fail

What follows for the steps of a computation when the whole of it succeeds, and which step is to blame
when it fails.
-/

namespace ContractChecks

variable {ε ε' α β σ : Type}

theorem except_bind_eq_ok {x : Except ε α} {k : α → Except ε β} {b : β}
    (h : x >>= k = .ok b) : ∃ a, x = .ok a ∧ k a = .ok b := by
  cases x with
  | error e => cases h
  | ok a => exact ⟨a, rfl, h⟩

theorem except_bind_eq_error {x : Except ε α} {k : α → Except ε β} {e : ε}
    (h : x >>= k = .error e) : x = .error e ∨ ∃ a, x = .ok a ∧ k a = .error e := by
  cases x with
  | error e' =>
    cases h
    exact .inl rfl
  | ok a => exact .inr ⟨a, rfl, h⟩

theorem except_seq_eq_ok {x : Except ε Unit} {y : Except ε β} {b : β} :
    (x >>= fun _ => y) = .ok b ↔ x = .ok () ∧ y = .ok b := by
  constructor
  · intro h
    obtain ⟨_, hx, hy⟩ := except_bind_eq_ok h
    exact ⟨hx, hy⟩
  · rintro ⟨rfl, rfl⟩
    rfl

theorem mapError_eq_ok {g : ε → ε'} {x : Except ε α} {a : α}
    (h : x.mapError g = .ok a) : x = .ok a := by
  cases x with
  | error e => cases h
  | ok b => cases h; rfl

theorem except_map_eq_ok {g : α → β} {x : Except ε α} {b : β} (h : x.map g = .ok b) :
    ∃ a, x = .ok a ∧ g a = b := by
  cases x with
  | error e => cases h
  | ok a => exact ⟨a, rfl, Except.ok.inj h⟩

theorem exists_eq_ok {x : Except ε α} {p : α → Bool} (h : x.toOption.any p = true) :
    ∃ a, x = .ok a ∧ p a = true := by
  cases x with
  | error e => cases h
  | ok a => exact ⟨a, rfl, h⟩

/-- a check of every element of a list -/
theorem forM_eq_ok {f : α → Except ε Unit} {l : List α} (h : l.forM f = .ok ()) :
    ∀ a ∈ l, f a = .ok () := by
  induction l with
  | nil => intro a ha; cases ha
  | cons b l ih =>
    obtain ⟨hb, hl⟩ := except_seq_eq_ok.1 h
    intro a ha
    rcases List.mem_cons.1 ha with rfl | ha
    · exact hb
    · exact ih hl a ha

theorem forM_eq_ok_of_forall {f : α → Except ε Unit} {l : List α} (h : ∀ a ∈ l, f a = .ok ()) :
    l.forM f = .ok () := by
  induction l with
  | nil => rfl
  | cons a l ih =>
    rw [List.forall_mem_cons] at h
    exact except_seq_eq_ok.2 ⟨h.1, ih h.2⟩

/-! ### faults of a traversal -/

/-- a fold fails with what one of its steps fails with -/
theorem foldlM_eq_error {P : ε → Prop} {step : σ → α → Except ε σ}
    (hstep : ∀ s a e, step s a = .error e → P e) {l : List α} {s : σ} {e : ε}
    (h : l.foldlM step s = .error e) : P e := by
  induction l generalizing s with
  | nil => cases h
  | cons a l ih =>
    rcases except_bind_eq_error h with h | ⟨s', -, h⟩
    · exact hstep s a e h
    · exact ih h

/-- fails with a complaint, if there is one -/
def refuse : Option ε → Except ε Unit
  | some e => .error e
  | none => .ok ()

/-- a traversal stops at the first element with a complaint -/
theorem forM_refuse (complaint : α → Option ε) (l : List α) :
    (l.forM fun a => refuse (complaint a)) = refuse (l.findSome? complaint) := by
  induction l with
  | nil => rfl
  | cons a l ih =>
    show (refuse (complaint a) >>= fun _ => l.forM fun b => refuse (complaint b)) = _
    rw [List.findSome?_cons, ih]
    cases complaint a with
    | some e => rfl
    | none => rfl

/-! ### lists of computations -/

section
variable {f : α → Except ε β} {l : List α} {l' : List β}

theorem mapM_cons_eq_ok {a : α} {b : β} (ha : f a = .ok b) (hl : l.mapM f = .ok l') :
    (a :: l).mapM f = .ok (b :: l') := by
  rw [List.mapM_cons, ha, hl]
  rfl

theorem exists_of_mapM_cons {a : α} (h : (a :: l).mapM f = .ok l') :
    ∃ b bs, f a = .ok b ∧ l.mapM f = .ok bs ∧ l' = b :: bs := by
  rw [List.mapM_cons] at h
  obtain ⟨b, hb, h⟩ := except_bind_eq_ok h
  obtain ⟨bs, hbs, h⟩ := except_bind_eq_ok h
  cases h
  exact ⟨b, bs, hb, hbs, rfl⟩

theorem mapM_append_eq_ok {k : List α} {k' : List β} (hk : k.mapM f = .ok k')
    (hl : l.mapM f = .ok l') : (k ++ l).mapM f = .ok (k' ++ l') := by
  rw [List.mapM_append, hk, hl]
  rfl

theorem mapM_congr {g : α → Except ε β} (h : ∀ a ∈ l, f a = g a) : l.mapM f = l.mapM g := by
  induction l with
  | nil => rfl
  | cons a l ih =>
    rw [List.mapM_cons, List.mapM_cons, h a List.mem_cons_self,
      ih fun b hb => h b (List.mem_cons_of_mem a hb)]

theorem mapM_eq_ok_map {g : α → β} (h : ∀ a ∈ l, f a = .ok (g a)) : l.mapM f = .ok (l.map g) := by
  induction l with
  | nil => rfl
  | cons a l ih =>
    exact mapM_cons_eq_ok (h a List.mem_cons_self) (ih fun b hb => h b (List.mem_cons_of_mem a hb))

theorem length_of_mapM_eq_ok (h : l.mapM f = .ok l') : l'.length = l.length := by
  induction l generalizing l' with
  | nil =>
    cases h
    rfl
  | cons a l ih =>
    obtain ⟨b, bs, -, hbs, rfl⟩ := exists_of_mapM_cons h
    rw [List.length_cons, List.length_cons, ih hbs]

/-- the results stand at the places of the elements they come from -/
theorem mapM_getElem? (h : l.mapM f = .ok l') {i : Nat} {a : α} (hi : l[i]? = some a) :
    ∃ b, l'[i]? = some b ∧ f a = .ok b := by
  induction l generalizing l' i with
  | nil => cases hi
  | cons x l ih =>
    obtain ⟨y, ys, hy, hys, rfl⟩ := exists_of_mapM_cons h
    cases i with
    | zero =>
      cases hi
      exact ⟨y, rfl, hy⟩
    | succ i => exact ih hys hi

theorem mapM_getElem?_inv (h : l.mapM f = .ok l') {i : Nat} {b : β} (hi : l'[i]? = some b) :
    ∃ a, l[i]? = some a ∧ f a = .ok b := by
  have hlt : i < l.length := by
    rw [← length_of_mapM_eq_ok h]
    exact (List.getElem?_eq_some_iff.1 hi).1
  obtain ⟨b', hb', hf⟩ := mapM_getElem? h (List.getElem?_eq_getElem hlt)
  cases hb'.symm.trans hi
  exact ⟨_, List.getElem?_eq_getElem hlt, hf⟩

theorem mem_of_mapM (h : l.mapM f = .ok l') {a : α} (ha : a ∈ l) : ∃ b ∈ l', f a = .ok b := by
  obtain ⟨i, hi⟩ := List.mem_iff_getElem?.1 ha
  obtain ⟨b, hb, hf⟩ := mapM_getElem? h hi
  exact ⟨b, List.mem_of_getElem? hb, hf⟩

theorem exists_mem_of_mapM (h : l.mapM f = .ok l') {b : β} (hb : b ∈ l') : ∃ a ∈ l, f a = .ok b := by
  obtain ⟨i, hi⟩ := List.mem_iff_getElem?.1 hb
  obtain ⟨a, ha, hf⟩ := mapM_getElem?_inv h hi
  exact ⟨a, List.mem_of_getElem? ha, hf⟩

theorem mapM_dropLast (h : l.mapM f = .ok l') : l.dropLast.mapM f = .ok l'.dropLast := by
  induction l generalizing l' with
  | nil =>
    cases h
    rfl
  | cons a l ih =>
    obtain ⟨b, bs, hb, hbs, rfl⟩ := exists_of_mapM_cons h
    cases l with
    | nil =>
      cases hbs
      rfl
    | cons a' l =>
      obtain ⟨b', bs', hb', hbs', rfl⟩ := exists_of_mapM_cons hbs
      rw [List.dropLast_cons_cons, List.dropLast_cons_cons]
      exact mapM_cons_eq_ok hb (ih hbs)

end

end ContractChecks
