/-!
# Source text

Contracts, directives and generated code are handled as source text: a list of characters.
A string literal stands for its characters wherever a text is expected.

* `Text.bytes s`: the length of the UTF-8 form of `s`, the unit of every offset;
* `Text.join sep parts`: the parts with `sep` between neighbours;
* `Text.cut? sep s`: what stands before and after the first `sep` of `s`;
* `Text.lines s`: the pieces of `s` between line ends;
* `Text.ofNat`, `Text.ofInt`: decimal numerals.
-/

namespace ContractChecks

abbrev Text := List Char

instance : Coe String Text := ⟨String.toList⟩

namespace Text

/-- length of the UTF-8 form -/
def bytes : Text → Nat
  | [] => 0
  | c :: s => c.utf8Size + bytes s

theorem bytes_nil : bytes [] = 0 := rfl

theorem bytes_cons (c : Char) (s : Text) : bytes (c :: s) = c.utf8Size + bytes s := rfl

theorem bytes_append (s t : Text) : bytes (s ++ t) = bytes s + bytes t := by
  induction s with
  | nil => rw [List.nil_append, bytes_nil, Nat.zero_add]
  | cons c s ih => rw [List.cons_append, bytes_cons, bytes_cons, ih, Nat.add_assoc]

def join (sep : Text) (parts : List Text) : Text := sep.intercalate parts

theorem join_singleton (sep p : Text) : join sep [p] = p := List.intercalate_singleton

theorem join_cons_cons (sep p q : Text) (ps : List Text) :
    join sep (p :: q :: ps) = p ++ (sep ++ join sep (q :: ps)) := by
  unfold join List.intercalate
  rw [List.intersperse_cons_cons, List.flatten_cons, List.flatten_cons]

/-- the characters of a list of texts, one text after the other -/
def concat (parts : List Text) : Text := parts.flatten

def startsWith (s start : Text) : Bool := start.isPrefixOf s

def endsWith (s stop : Text) : Bool := stop.isSuffixOf s

/-- `s` without a leading `start`, if it has one -/
def dropStart (start s : Text) : Text :=
  if s.startsWith start then s.drop start.length else s

/-- `s` without a trailing `stop`, if it has one -/
def dropEnd (stop s : Text) : Text :=
  if s.endsWith stop then s.take (s.length - stop.length) else s

theorem dropEnd_append (stop s : Text) : dropEnd stop (s ++ stop) = s := by
  have hend : endsWith (s ++ stop) stop = true :=
    List.isSuffixOf_iff_suffix.2 (List.suffix_append s stop)
  rw [dropEnd, if_pos hend, List.length_append, Nat.add_sub_cancel, List.take_left]

theorem dropEnd_of_not_suffix {stop s : Text} (h : ¬stop <:+ s) : dropEnd stop s = s :=
  if_neg fun hend => h (List.isSuffixOf_iff_suffix.1 hend)

/-- what stands before and after the first occurrence of `sep` -/
def cut? (sep : Text) : Text → Option (Text × Text)
  | [] => if sep.isEmpty then some ([], []) else none
  | c :: r =>
    if sep.isPrefixOf (c :: r) then some ([], (c :: r).drop sep.length)
    else (cut? sep r).map fun p => (c :: p.1, p.2)

/-- what stands before and after the last occurrence of `sep` -/
def cutLast? (sep : Text) : Text → Option (Text × Text)
  | [] => if sep.isEmpty then some ([], []) else none
  | c :: r =>
    match cutLast? sep r with
    | some p => some (c :: p.1, p.2)
    | none => if sep.isPrefixOf (c :: r) then some ([], (c :: r).drop sep.length) else none

def contains (sep s : Text) : Bool := (cut? sep s).isSome

/-- the pieces of a text between occurrences of the character `d` -/
def splitAtChar (d : Char) : Text → List Text
  | [] => [[]]
  | c :: r =>
    if c = d then [] :: splitAtChar d r
    else
      match splitAtChar d r with
      | [] => [[c]]
      | p :: ps => (c :: p) :: ps

def lines (s : Text) : List Text := splitAtChar '\n' s

def ofNat (n : Nat) : Text := Nat.toDigits 10 n

def ofInt : Int → Text
  | .ofNat n => ofNat n
  | .negSucc n => '-' :: ofNat (n + 1)

/-- the order of code points, which is also the order of the UTF-8 bytes -/
def le : Text → Text → Bool
  | [], _ => true
  | _ :: _, [] => false
  | c :: r, d :: s => if c = d then le r s else c.toNat < d.toNat

def lt (s t : Text) : Bool := !le t s

/-- sorted by `le`, equal texts in the order given -/
def sort (ts : List Text) : List Text := ts.mergeSort le

end Text

end ContractChecks
