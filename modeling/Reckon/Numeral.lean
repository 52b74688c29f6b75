import Reckon.Decimal

namespace Reckon

-- There is no sign: a minus in this place would be an operator.
structure Exponent where
  capital : Bool
  digits : List Digit
  nonempty : digits ≠ []
  deriving DecidableEq

-- The spelling is kept: `2.` and `2.0` are different numerals of one value.
structure Numeral where
  negative : Bool
  whole : List Digit
  fraction : Option (List Digit)
  exponent : Option Exponent
  nonempty : whole ≠ [] ∨ fraction.getD [] ≠ []
  deriving DecidableEq

namespace Numeral
attribute [local instance(2000)] instPowNat

def takeDigits : List Char → List Digit × List Char
  | [] => ([],[])
  | c :: rest =>
    match Digit.ofChar? c with
    | some d => let (ds,after) := takeDigits rest; (d :: ds,after)
    | none => ([],c :: rest)

def takeSign : List Char → Bool × List Char
  | '-' :: rest => (true,rest)
  | s => (false,s)

def takeFraction : List Char → Option (List Digit) × List Char
  | '.' :: rest => let (ds,after) := takeDigits rest; (some ds,after)
  | s => (none,s)

def takeExponent : List Char → Option Exponent × List Char
  | [] => (none,[])
  | mark :: rest =>
    if mark = 'e' ∨ mark = 'E' then
      match takeDigits rest with
      | ([],_) => (none,mark :: rest)
      | (d :: ds,after) => (some ⟨mark = 'E',d :: ds,List.cons_ne_nil d ds⟩,after)
    else (none,mark :: rest)

def ofChars? (s : List Char) : Option Numeral :=
  let (negative,s) := takeSign s
  let (whole,s) := takeDigits s
  let (fraction,s) := takeFraction s
  let (exponent,s) := takeExponent s
  if shape : s = [] ∧ (whole ≠ [] ∨ fraction.getD [] ≠ []) then
    some ⟨negative,whole,fraction,exponent,shape.2⟩
  else none

def signText (negative : Bool) : List Char := if negative then ['-'] else []

def fractionText : Option (List Digit) → List Char
  | none => []
  | some ds => '.' :: ds.map Digit.char

def exponentText : Option Exponent → List Char
  | none => []
  | some e => (if e.capital then 'E' else 'e') :: e.digits.map Digit.char

def text (n : Numeral) : List Char :=
  signText n.negative ++ (n.whole.map Digit.char ++ (fractionText n.fraction ++ exponentText n.exponent))

-- The exponent stops growing at five or six digits. The value is then out of every range,
-- whatever else the numeral says.
def scaleBy : Option Exponent → Nat
  | none => 0
  | some e => e.digits.foldl (fun n d => if n < 65536 then 10 * n + d.val else n) 0

def numerator (n : Numeral) : Nat :=
  ofDigits (n.whole ++ n.fraction.getD []) * 10 ^ scaleBy n.exponent

def denominator (n : Numeral) : Nat := 10 ^ (n.fraction.getD []).length

theorem takeDigits_text (s : List Char) : (takeDigits s).1.map Digit.char ++ (takeDigits s).2 = s := by
  induction s with
  | nil => rfl
  | cons c rest ih =>
    unfold takeDigits
    split
    · rename_i d found
      simp [ih,Digit.char_ofChar found]
    · rfl

theorem takeSign_text (s : List Char) : signText (takeSign s).1 ++ (takeSign s).2 = s := by
  unfold takeSign
  split <;> rfl

theorem takeFraction_text (s : List Char) : fractionText (takeFraction s).1 ++ (takeFraction s).2 = s := by
  unfold takeFraction
  split
  · simp [fractionText,takeDigits_text]
  · rfl

theorem takeExponent_text (s : List Char) : exponentText (takeExponent s).1 ++ (takeExponent s).2 = s := by
  unfold takeExponent
  split
  · rfl
  · rename_i mark rest
    split
    · rename_i marked
      have back := takeDigits_text rest
      split
      · rfl
      · rename_i d ds after taken
        rw [taken] at back
        rcases marked with rfl | rfl <;> simpa [exponentText] using back
    · rfl

theorem text_ofChars {s : List Char} {n : Numeral} (found : ofChars? s = some n) : n.text = s := by
  unfold ofChars? at found
  dsimp only at found
  split at found
  · rename_i shape
    cases found
    have sign := takeSign_text s
    have whole := takeDigits_text (takeSign s).2
    have fraction := takeFraction_text (takeDigits (takeSign s).2).2
    have exponent := takeExponent_text (takeFraction (takeDigits (takeSign s).2).2).2
    rw [shape.1,List.append_nil] at exponent
    simp only [text]
    rw [exponent,fraction,whole,sign]
  · cases found

def Ends (s : List Char) : Prop := ∀ c rest, s = c :: rest → Digit.ofChar? c = none

theorem takeDigits_append (ds : List Digit) {rest : List Char} (ends : Ends rest) :
    takeDigits (ds.map Digit.char ++ rest) = (ds,rest) := by
  induction ds with
  | nil =>
    cases rest with
    | nil => rfl
    | cons c rest => simp [takeDigits,ends c rest rfl]
  | cons d ds ih => simp [takeDigits,Digit.ofChar_char,ih]

theorem ends_exponent (e : Option Exponent) : Ends (exponentText e) := by
  intro c rest equal
  cases e with
  | none => cases equal
  | some e =>
    obtain ⟨capital,ds,nonempty⟩ := e
    rw [← (List.cons.inj equal).1]
    cases capital <;> rfl

theorem ends_fraction (f : Option (List Digit)) (e : Option Exponent) :
    Ends (fractionText f ++ exponentText e) := by
  cases f with
  | none => exact ends_exponent e
  | some ds =>
    intro c rest equal
    cases equal
    decide

theorem takeExponent_written (e : Option Exponent) : takeExponent (exponentText e) = (e,[]) := by
  cases e with
  | none => rfl
  | some e =>
    obtain ⟨capital,ds,nonempty⟩ := e
    have ended : Ends [] := fun _ _ equal => nomatch equal
    have taken := takeDigits_append ds ended
    rw [List.append_nil] at taken
    cases ds with
    | nil => exact absurd rfl nonempty
    | cons d ds =>
      rw [List.map_cons] at taken
      cases capital <;> simp [exponentText,takeExponent,taken]

theorem takeFraction_written (f : Option (List Digit)) (e : Option Exponent) :
    takeFraction (fractionText f ++ exponentText e) = (f,exponentText e) := by
  cases f with
  | none =>
    cases e with
    | none => rfl
    | some e =>
      obtain ⟨capital,ds,nonempty⟩ := e
      cases capital <;> rfl
  | some ds => simp [fractionText,takeFraction,takeDigits_append ds (ends_exponent e)]

theorem takeSign_written (negative : Bool) {s : List Char} (unsigned : ∀ rest, s ≠ '-' :: rest) :
    takeSign (signText negative ++ s) = (negative,s) := by
  cases negative with
  | true => rfl
  | false =>
    unfold takeSign
    split
    · rename_i rest equal
      exact absurd equal (unsigned rest)
    · rfl

theorem unsigned_text (n : Numeral) (rest : List Char) :
    n.whole.map Digit.char ++ (fractionText n.fraction ++ exponentText n.exponent) ≠ '-' :: rest := by
  intro equal
  obtain ⟨negative,whole,fraction,exponent,nonempty⟩ := n
  cases whole with
  | cons d ds =>
    have same : d.char = '-' := (List.cons.inj equal).1
    have digit := Digit.ofChar_char d
    rw [same] at digit
    cases digit
  | nil =>
    cases fraction with
    | none => exact nonempty.elim (fun h => h rfl) (fun h => h rfl)
    | some ds => exact absurd (List.cons.inj equal).1 (by decide)

theorem ofChars_text (n : Numeral) : ofChars? n.text = some n := by
  have sign := takeSign_written n.negative (unsigned_text n)
  have whole := takeDigits_append n.whole (ends_fraction n.fraction n.exponent)
  have fraction := takeFraction_written n.fraction n.exponent
  have exponent := takeExponent_written n.exponent
  simp [ofChars?,text,sign,whole,fraction,exponent,n.nonempty]

theorem ofChars_exact (s : List Char) (n : Numeral) : ofChars? s = some n ↔ s = n.text :=
  ⟨fun found => (text_ofChars found).symm,fun same => same ▸ ofChars_text n⟩

end Numeral

-- Every numeral has a value; a large one may be infinite.
class Constant (α : Type) where
  zero : α
  ofNumeral : Numeral → α

inductive Operand where
  | missing
  | written (numeral : Numeral)
  deriving DecidableEq

instance : Constant Operand := ⟨.missing,.written⟩

def Operand.value {α : Type} [Constant α] : Operand → α
  | .missing => Constant.zero
  | .written numeral => Constant.ofNumeral numeral

end Reckon
