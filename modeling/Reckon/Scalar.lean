import Reckon.Glyph
import Reckon.Numeral

namespace Reckon

-- Only one value is not a number, and all words beyond that of infinity stand for it. So a
-- word is given back as it was only if its value is a number.
class Scalar (α : Type) where
  format : BinaryFormat
  word : α → Nat
  ofWord : Nat → α
  apply : Operator → α → α → α
  standard : format = .double ∨ format = .single
  word_lt (x : α) : word x < 2 * format.signWeight
  ofWord_word (x : α) : ofWord (word x) = x
  word_ofWord (w : Nat) : w < 2 * format.signWeight → w % format.signWeight ≤ format.infinity →
    word (ofWord w) = w

instance : Scalar Float where
  format := .double
  word x := x.toBits.toNat
  ofWord w := Float.ofBits (UInt64.ofNat w)
  apply
    | .add,x,y => x + y
    | .sub,x,y => x - y
    | .mul,x,y => x * y
    | .div,x,y => x / y
    | .pow,x,y => Float.pow x y
  standard := .inl rfl
  word_lt x := x.toBits.toNat_lt
  ofWord_word x := by rw [UInt64.ofNat_toNat,Packing.double_word]
  word_ofWord w bound number := by
    have same : (UInt64.ofNat w).toNat = w := UInt64.toNat_ofNat_of_lt' bound
    rw [Packing.double_number _ (by rw [same]; exact number),same]

instance : Scalar Float32 where
  format := .single
  word x := x.toBits.toNat
  ofWord w := Float32.ofBits (UInt32.ofNat w)
  apply
    | .add,x,y => x + y
    | .sub,x,y => x - y
    | .mul,x,y => x * y
    | .div,x,y => x / y
    | .pow,x,y => Float32.pow x y
  standard := .inr rfl
  word_lt x := x.toBits.toNat_lt
  ofWord_word x := by rw [UInt32.ofNat_toNat,Packing.single_word]
  word_ofWord w bound number := by
    have same : (UInt32.ofNat w).toNat = w := UInt32.toNat_ofNat_of_lt' bound
    rw [Packing.single_number _ (by rw [same]; exact number),same]

namespace Scalar
variable {α : Type} [Scalar α]

def magnitude (x : α) : Nat := word x % (format α).signWeight

def isNegative (x : α) : Bool := (format α).signWeight ≤ word x

def isNaN (x : α) : Bool := (format α).infinity < magnitude x

def isInfinite (x : α) : Bool := magnitude x = (format α).infinity

def equal (x y : α) : Bool :=
  !isNaN x && !isNaN y && (word x = word y || (magnitude x = 0 && magnitude y = 0))

def ofNumeral (n : Numeral) : α :=
  let magnitude := (format α).round n.numerator n.denominator
  ofWord (if n.negative then (format α).signWeight + magnitude else magnitude)

instance : Constant α := ⟨ofWord 0,ofNumeral⟩

def signText (x : α) : List Char := if isNegative x then ['-'] else []

def text (x : α) : List Char :=
  if isNaN x then "NaN".toList
  else if isInfinite x then signText x ++ "inf".toList
  else signText x ++ ((format α).shortest (magnitude x)).decimal.text

-- An infinite constant is written as a numeral out of range, which is read as infinite again.
def constantText (x : α) : List Char :=
  if isInfinite x then signText x ++ "1e999".toList else text x

def placesText (places : Nat) (x : α) : List Char :=
  if isNaN x then "NaN".toList
  else if isInfinite x then signText x ++ "inf".toList
  else signText x ++ ((format α).rounded places (magnitude x)).text

end Scalar
end Reckon
