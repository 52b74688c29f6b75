import Reckon.Tree
import Reckon.Proofs.Literal

namespace Reckon
attribute [local instance(2000)] instPowNat

def Decimal.literal (d : Decimal) : Literal where
  negative := false
  whole := digits (d.units / 10 ^ d.places)
  fraction := if d.places = 0 then none else some (digitsPadded d.places (d.units % 10 ^ d.places))
  exponent := none
  nonempty := .inl (digits_nonempty _)
  unsigned := rfl

namespace Decimal

theorem literal_text (d : Decimal) : d.literal.text = d.text := by
  by_cases bare : d.places = 0
  · simp [Numeral.text,Numeral.signText,Numeral.fractionText,Numeral.exponentText,literal,text,bare]
  · simp [Numeral.text,Numeral.signText,Numeral.fractionText,Numeral.exponentText,literal,text,bare]

theorem literal_fraction (d : Decimal) : (d.literal.fraction.getD []).length = d.places ∧
    ofDigits (d.literal.fraction.getD []) = d.units % 10 ^ d.places := by
  obtain ⟨units,places⟩ := d
  cases places with
  | zero => simp [literal,ofDigits,Nat.mod_one]
  | succ places =>
    have small : units % 10 ^ (places + 1) < 10 ^ (places + 1) := Nat.mod_lt _ (Nat.pow_pos (by decide))
    simp [literal,digitsPadded_length small,ofDigits_padded]

theorem literal_numerator (d : Decimal) : d.literal.numerator = d.units := by
  obtain ⟨places,value⟩ := d.literal_fraction
  have whole : ofDigits d.literal.whole = d.units / 10 ^ d.places := ofDigits_digits _
  have scale : Numeral.scaleBy d.literal.exponent = 0 := rfl
  rw [Numeral.numerator,ofDigits_append,places,value,whole,scale,Nat.pow_zero,Nat.mul_one]
  exact Nat.div_add_mod' _ _

theorem literal_denominator (d : Decimal) : d.literal.denominator = 10 ^ d.places := by
  rw [Numeral.denominator,d.literal_fraction.1]

end Decimal

namespace Scalar
variable {α : Type} [Scalar α]

-- Infinity is among these numbers, a sign is not.
structure Unsigned (x : α) : Prop where
  number : isNaN x = false
  positive : isNegative x = false

theorem infinity_lt : (format α).infinity < (format α).signWeight := by
  rcases standard (α := α) with double | single
  · rw [double]; decide
  · rw [single]; decide

theorem unsigned_word {x : α} : Unsigned x ↔ word x ≤ (format α).infinity := by
  have order := infinity_lt (α := α)
  apply Iff.intro
  · intro given
    have positive : ¬(format α).signWeight ≤ word x := of_decide_eq_false given.positive
    have number : ¬(format α).infinity < word x % (format α).signWeight := of_decide_eq_false given.number
    rw [Nat.mod_eq_of_lt (by omega)] at number
    omega
  · intro bound
    have same : magnitude x = word x := Nat.mod_eq_of_lt (by omega)
    exact ⟨by simp [isNaN,same,bound],by simp only [isNegative,decide_eq_false_iff_not]; omega⟩

theorem Unsigned.magnitude {x : α} (unsigned : Unsigned x) : magnitude x = word x :=
  Nat.mod_eq_of_lt ((unsigned_word.mp unsigned).trans_lt infinity_lt)

theorem word_ofWord_le {w : Nat} (bound : w ≤ (format α).infinity) : word (ofWord w : α) = w := by
  have order := infinity_lt (α := α)
  exact word_ofWord w (by omega) (by rw [Nat.mod_eq_of_lt (by omega)]; exact bound)

theorem word_zero : word (Constant.zero : α) = 0 := word_ofWord_le (Nat.zero_le _)

theorem unsigned_zero : Unsigned (Constant.zero : α) := by
  rw [unsigned_word,word_zero]
  exact Nat.zero_le _

theorem ofLiteral (n : Literal) :
    (Constant.ofNumeral n.toNumeral : α) = ofWord ((format α).round n.numerator n.denominator) := by
  change ofNumeral n.toNumeral = _
  simp [ofNumeral,n.unsigned]

theorem word_literal (n : Literal) :
    word (Constant.ofNumeral n.toNumeral : α) = (format α).round n.numerator n.denominator := by
  rw [ofLiteral]
  exact word_ofWord_le (Nat.min_le_left _ _)

theorem unsigned_literal (n : Literal) : Unsigned (Constant.ofNumeral n.toNumeral : α) := by
  rw [unsigned_word,word_literal]
  exact Nat.min_le_left _ _

theorem infinite_literal : ∃ n : Literal, n.text = "1e999".toList ∧
    (format α).round n.numerator n.denominator = (format α).infinity := by
  refine ⟨⟨⟨false,[1],none,some ⟨false,[9,9,9],by decide⟩,.inl (by decide)⟩,rfl⟩,rfl,?_⟩
  rcases standard (α := α) with double | single
  · rw [double]; decide +kernel
  · rw [single]; decide +kernel

theorem signText_blankless (x : α) : ∀ c ∈ signText x, Text.isBlank c = false := by
  unfold signText
  split
  · exact List.forall_mem_singleton.mpr (by decide)
  · exact List.forall_mem_nil _

theorem Unsigned.literal {x : α} (unsigned : Unsigned x) :
    ∃ n : Literal, n.text = constantText x ∧ Constant.ofNumeral n.toNumeral = x := by
  have sign : signText x = [] := by simp [signText,unsigned.positive]
  by_cases infinite : isInfinite x = true
  · obtain ⟨n,written,round⟩ := infinite_literal (α := α)
    have same : word x = (format α).infinity := unsigned.magnitude ▸ of_decide_eq_true infinite
    refine ⟨n,?_,by rw [ofLiteral,round,← same,ofWord_word]⟩
    simpa [constantText,infinite,sign] using written
  · let d := ((format α).shortest (Scalar.magnitude x)).decimal
    have finite : Scalar.magnitude x < (format α).infinity := by
      have bound := unsigned_word.mp unsigned
      have other : Scalar.magnitude x ≠ (format α).infinity := fun same => infinite (decide_eq_true same)
      rw [← unsigned.magnitude] at bound
      omega
    have back : (format α).round d.units (10 ^ d.places) = Scalar.magnitude x :=
      of_decide_eq_true (BinaryFormat.shortest_readsBack finite)
    refine ⟨d.literal,?_,?_⟩
    · rw [d.literal_text]
      simp [constantText,text,infinite,unsigned.number,sign,d]
    · rw [ofLiteral,d.literal_numerator,d.literal_denominator,back,unsigned.magnitude,ofWord_word]

def absolute (x : α) : α := ofWord (magnitude x)

theorem word_absolute {x : α} (number : isNaN x = false) : word (absolute x) = magnitude x :=
  word_ofWord_le (Nat.le_of_not_lt (of_decide_eq_false number))

theorem unsigned_absolute {x : α} (number : isNaN x = false) : Unsigned (absolute x) := by
  rw [unsigned_word,word_absolute number]
  exact Nat.le_of_not_lt (of_decide_eq_false number)

theorem constantText_sign {x : α} (number : isNaN x = false) :
    constantText x = signText x ++ constantText (absolute x) := by
  have unsigned := unsigned_absolute number
  have size : magnitude (absolute x) = magnitude x := unsigned.magnitude.trans (word_absolute number)
  have bare : signText (absolute x) = [] := by simp [signText,unsigned.positive]
  unfold constantText text isInfinite
  rw [size,bare,number,unsigned.number]
  split <;> simp

theorem Unsigned.equal {x y : α} (left : Unsigned x) (right : Unsigned y) : equal x y = true ↔ x = y := by
  have determined : word x = word y ↔ x = y := by
    apply Iff.intro
    · intro same
      rw [← ofWord_word x,same,ofWord_word]
    · rintro rfl
      rfl
  simp only [Scalar.equal,left.number,right.number,left.magnitude,right.magnitude,← determined]
  simp only [Bool.not_false,Bool.true_and,Bool.or_eq_true,Bool.and_eq_true,decide_eq_true_eq]
  omega

end Scalar
end Reckon
