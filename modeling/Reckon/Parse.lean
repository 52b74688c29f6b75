import Reckon.Text
import Reckon.Tree

namespace Reckon

inductive ParseError where
  | noDigit
  | invalidLiteral (text : List Char)
  deriving DecidableEq

namespace ParseError

def message : ParseError → List Char
  | noDigit => "expression must contain at least one digit".toList
  | invalidLiteral text => "invalid syntax, cannot parse '".toList ++ text ++ "' as a number".toList

def precedes : ParseError → ParseError → Bool
  | noDigit,_ => true
  | invalidLiteral _,noDigit => false
  | invalidLiteral s,invalidLiteral t => ¬t < s

def dropRepeats : List ParseError → List ParseError
  | [] => []
  | [e] => [e]
  | e :: f :: rest => if e = f then dropRepeats (f :: rest) else e :: dropRepeats (f :: rest)

def sorted (errors : List ParseError) : List ParseError :=
  dropRepeats (errors.mergeSort precedes)

end ParseError

-- Places are counted in the text that the step is taken on.
inductive Dissection where
  | empty
  | digitless
  | leaf (text : List Char)
  | stripped (pair : Pair) (inner : Dissection)
  | split (cut : Cut) (left right : Dissection)
  deriving DecidableEq

-- Taking brackets away takes no digit away, so asking for a digit at every step asks nothing
-- new of a text that has just lost a pair.
def dissect (s : List Char) : Dissection :=
  if s = [] then .empty
  else if Text.containsDigit s = false then .digitless
  else match found : outermost? s with
    | some cut => .split cut (dissect (s.take cut.point)) (dissect (s.drop (cut.point + 1)))
    | none => match _enclosed : outerPair? s with
      | some pair => .stripped pair (dissect (strip s pair))
      | none => .leaf s
termination_by s.length
decreasing_by
  · have bound := outermost_lt found
    simp only [List.length_take]; omega
  · have bound := outermost_lt found
    simp only [List.length_drop]; omega
  · exact strip_shorter _enclosed

theorem nonempty_digit {s : List Char} (digit : Text.containsDigit s = true) : s ≠ [] := by
  rintro rfl
  cases digit

theorem dissect_nil : dissect [] = .empty := by
  rw [dissect,if_pos rfl]

theorem dissect_digitless {s : List Char} (nonempty : s ≠ []) (none : Text.containsDigit s = false) :
    dissect s = .digitless := by
  rw [dissect,if_neg nonempty,if_pos none]

theorem dissect_split {s : List Char} {cut : Cut} (digit : Text.containsDigit s = true)
    (found : outermost? s = some cut) :
    dissect s = .split cut (dissect (s.take cut.point)) (dissect (s.drop (cut.point + 1))) := by
  rw [dissect,if_neg (nonempty_digit digit),if_neg (by simp [digit])]
  split
  · rename_i other same
    rw [found] at same
    cases same
    rfl
  · rename_i missing
    rw [found] at missing
    cases missing

theorem dissect_stripped {s : List Char} {pair : Pair} (digit : Text.containsDigit s = true)
    (uncut : outermost? s = none) (found : outerPair? s = some pair) :
    dissect s = .stripped pair (dissect (strip s pair)) := by
  rw [dissect,if_neg (nonempty_digit digit),if_neg (by simp [digit])]
  split
  · rename_i cut cutAt
    rw [uncut] at cutAt
    cases cutAt
  · split
    · rename_i other same
      rw [found] at same
      cases same
      rfl
    · rename_i missing
      rw [found] at missing
      cases missing

theorem dissect_leaf {s : List Char} (digit : Text.containsDigit s = true)
    (uncut : outermost? s = none) (bare : outerPair? s = none) : dissect s = .leaf s := by
  rw [dissect,if_neg (nonempty_digit digit),if_neg (by simp [digit])]
  split
  · rename_i cut cutAt
    rw [uncut] at cutAt
    cases cutAt
  · split
    · rename_i pair pairAt
      rw [bare] at pairAt
      cases pairAt
    · rfl

@[elab_as_elim]
theorem dissect_induction {motive : List Char → Prop} (nil : motive [])
    (digitless : ∀ s, s ≠ [] → Text.containsDigit s = false → motive s)
    (split : ∀ s cut, Text.containsDigit s = true → outermost? s = some cut →
      motive (s.take cut.point) → motive (s.drop (cut.point + 1)) → motive s)
    (stripped : ∀ s pair, Text.containsDigit s = true → outermost? s = none → outerPair? s = some pair →
      motive (strip s pair) → motive s)
    (leaf : ∀ s, Text.containsDigit s = true → outermost? s = none → outerPair? s = none → motive s)
    (s : List Char) : motive s := by
  induction s using dissect.induct with
  | case1 => exact nil
  | case2 s nonempty none => exact digitless s nonempty none
  | case3 s nonempty digit cut found left right =>
    exact split s cut (Bool.of_not_eq_false digit) found left right
  | case4 s nonempty digit uncut pair found inner =>
    exact stripped s pair (Bool.of_not_eq_false digit) uncut found inner
  | case5 s nonempty digit uncut bare => exact leaf s (Bool.of_not_eq_false digit) uncut bare

def readLeaf (α : Type) [Constant α] (s : List Char) : Except ParseError (Tree α) :=
  match Numeral.ofChars? s with
  | some numeral => .ok (.const (Constant.ofNumeral numeral))
  | none => .error (.invalidLiteral s)

def Dissection.tree (α : Type) [Constant α] : Dissection → Except ParseError (Tree α)
  | empty => .ok (.const Constant.zero)
  | digitless => .error .noDigit
  | leaf s => readLeaf α s
  | stripped _ inner => inner.tree α
  | split cut left right =>
    match left.tree α with
    | .error fault => .error fault
    | .ok first => match right.tree α with
      | .error fault => .error fault
      | .ok second => .ok (.binary cut.op first second)

def parse (α : Type) [Constant α] (s : List Char) : Except ParseError (Tree α) :=
  (dissect (Text.removeBlanks s)).tree α

def evaluate (s : List Char) : Except ParseError Float := (parse Float s).map Tree.eval

end Reckon
