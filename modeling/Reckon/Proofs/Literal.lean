import Mathlib.Computability.RegularExpressions
import Reckon.Numeral
import Reckon.Proofs.Marks

namespace Reckon

structure Literal extends Numeral where
  unsigned : negative = false
  deriving DecidableEq

def Literal.ofDigit (d : Digit) : Literal := ⟨⟨false,[d],none,none,.inl (List.cons_ne_nil d [])⟩,rfl⟩
def Operand.ofDigit (d : Digit) : Operand := .written (Literal.ofDigit d).toNumeral

namespace Literal
open RegularExpression

def anyOf (cs : List Char) : RegularExpression Char := cs.foldr (fun c rest => char c + rest) 0
def optional (e : RegularExpression Char) : RegularExpression Char := 1 + e

def digit : RegularExpression Char := anyOf ['0','1','2','3','4','5','6','7','8','9']
def manyDigits : RegularExpression Char := digit.star
def someDigits : RegularExpression Char := digit * manyDigits
def point : RegularExpression Char := char '.'
def exponentMark : RegularExpression Char := anyOf ['e','E']

def pattern : RegularExpression Char :=
  (someDigits * optional (point * manyDigits) + point * someDigits) * optional (exponentMark * someDigits)

theorem mem_anyOf {cs : List Char} {s : List Char} : s ∈ (anyOf cs).matches' ↔ ∃ c ∈ cs, s = [c] := by
  induction cs with
  | nil => simp [anyOf]
  | cons c rest ih =>
    have step : (anyOf (c :: rest)).matches' = {[c]} + (anyOf rest).matches' := rfl
    have here : s ∈ ({[c]} : Language Char) ↔ s = [c] := Iff.rfl
    rw [step,Language.mem_add,here,ih]
    simp

theorem mem_optional {e : RegularExpression Char} {s : List Char} :
    s ∈ (optional e).matches' ↔ s = [] ∨ s ∈ e.matches' := by
  simp [optional,Language.mem_add,Language.mem_one]

theorem mem_sequence {e f : RegularExpression Char} {s : List Char} :
    s ∈ (e * f).matches' ↔ ∃ front ∈ e.matches', ∃ back ∈ f.matches', front ++ back = s := by
  rw [matches'_mul,Language.mem_mul]

theorem mem_digit {s : List Char} : s ∈ digit.matches' ↔ ∃ d : Digit, s = [d.char] := by
  unfold digit
  rw [mem_anyOf]
  apply Iff.intro
  · intro given
    obtain ⟨c,member,rfl⟩ := given
    have read : ['0','1','2','3','4','5','6','7','8','9'].all (fun c => (Digit.ofChar? c).isSome) = true := by decide
    obtain ⟨d,found⟩ := Option.isSome_iff_exists.mp (List.all_eq_true.mp read c member)
    exact ⟨d,congrArg (fun c => [c]) (Digit.char_ofChar found).symm⟩
  · intro given
    obtain ⟨d,rfl⟩ := given
    have listed : ∀ d : Digit, d.char ∈ ['0','1','2','3','4','5','6','7','8','9'] := by decide
    exact ⟨d.char,listed d,rfl⟩

theorem mem_manyDigits {s : List Char} : s ∈ manyDigits.matches' ↔ ∃ ds : List Digit, s = ds.map Digit.char := by
  unfold manyDigits
  rw [matches'_star,Language.mem_kstar]
  apply Iff.intro
  · intro given
    obtain ⟨words,rfl,each⟩ := given
    induction words with
    | nil => exact ⟨[],rfl⟩
    | cons word rest ih =>
      obtain ⟨d,rfl⟩ := mem_digit.mp (each word List.mem_cons_self)
      obtain ⟨ds,later⟩ := ih fun other member => each other (List.mem_cons_of_mem _ member)
      exact ⟨d :: ds,by simp [later]⟩
  · intro given
    obtain ⟨ds,rfl⟩ := given
    refine ⟨ds.map fun d => [d.char],by induction ds <;> simp_all,?_⟩
    intro word member
    obtain ⟨d,_,rfl⟩ := List.mem_map.mp member
    exact mem_digit.mpr ⟨d,rfl⟩

theorem mem_someDigits {s : List Char} :
    s ∈ someDigits.matches' ↔ ∃ ds : List Digit, ds ≠ [] ∧ s = ds.map Digit.char := by
  unfold someDigits
  rw [mem_sequence]
  apply Iff.intro
  · intro given
    obtain ⟨front,one,back,more,rfl⟩ := given
    obtain ⟨d,rfl⟩ := mem_digit.mp one
    obtain ⟨ds,rfl⟩ := mem_manyDigits.mp more
    exact ⟨d :: ds,List.cons_ne_nil d ds,rfl⟩
  · intro given
    obtain ⟨ds,nonempty,rfl⟩ := given
    cases ds with
    | nil => exact absurd rfl nonempty
    | cons d ds => exact ⟨[d.char],mem_digit.mpr ⟨d,rfl⟩,_,mem_manyDigits.mpr ⟨ds,rfl⟩,rfl⟩

theorem mem_point {e : RegularExpression Char} {s : List Char} :
    s ∈ (point * e).matches' ↔ ∃ rest ∈ e.matches', s = '.' :: rest := by
  unfold point
  rw [mem_sequence,matches'_char]
  apply Iff.intro
  · intro given
    obtain ⟨front,rfl,back,member,rfl⟩ := given
    exact ⟨back,member,rfl⟩
  · intro given
    obtain ⟨rest,member,rfl⟩ := given
    exact ⟨['.'],rfl,rest,member,rfl⟩

theorem mem_exponent {s : List Char} :
    s ∈ (optional (exponentMark * someDigits)).matches' ↔ ∃ e, s = Numeral.exponentText e := by
  rw [mem_optional,mem_sequence]
  apply Iff.intro
  · intro given
    rcases given with rfl | ⟨front,marked,back,digits,rfl⟩
    · exact ⟨none,rfl⟩
    · obtain ⟨c,either,rfl⟩ := mem_anyOf.mp marked
      obtain ⟨ds,nonempty,rfl⟩ := mem_someDigits.mp digits
      refine ⟨some ⟨c = 'E',ds,nonempty⟩,?_⟩
      rcases (by simpa using either : c = 'e' ∨ c = 'E') with rfl | rfl <;> rfl
  · intro given
    obtain ⟨e,rfl⟩ := given
    cases e with
    | none => exact .inl rfl
    | some e =>
      obtain ⟨capital,ds,nonempty⟩ := e
      refine .inr ⟨[if capital then 'E' else 'e'],?_,_,mem_someDigits.mpr ⟨ds,nonempty,rfl⟩,rfl⟩
      cases capital <;> exact mem_anyOf.mpr ⟨_,by simp,rfl⟩

theorem mem_size {s : List Char} :
    s ∈ (someDigits * optional (point * manyDigits) + point * someDigits).matches' ↔
      ∃ (whole : List Digit) (fraction : Option (List Digit)), (whole ≠ [] ∨ fraction.getD [] ≠ []) ∧
        s = whole.map Digit.char ++ Numeral.fractionText fraction := by
  rw [matches'_add,Language.mem_add,mem_sequence,mem_point]
  apply Iff.intro
  · intro given
    rcases given with ⟨front,digits,back,optional,rfl⟩ | ⟨rest,digits,rfl⟩
    · obtain ⟨whole,nonempty,rfl⟩ := mem_someDigits.mp digits
      rcases mem_optional.mp optional with rfl | dotted
      · exact ⟨whole,none,.inl nonempty,rfl⟩
      · obtain ⟨rest,digits,rfl⟩ := mem_point.mp dotted
        obtain ⟨ds,rfl⟩ := mem_manyDigits.mp digits
        exact ⟨whole,some ds,.inl nonempty,rfl⟩
    · obtain ⟨ds,nonempty,rfl⟩ := mem_someDigits.mp digits
      exact ⟨[],some ds,.inr nonempty,rfl⟩
  · intro given
    obtain ⟨whole,fraction,nonempty,rfl⟩ := given
    by_cases absent : whole = []
    · subst absent
      cases fraction with
      | none => simp at nonempty
      | some ds => exact .inr ⟨_,mem_someDigits.mpr ⟨ds,by simpa using nonempty,rfl⟩,rfl⟩
    · refine .inl ⟨_,mem_someDigits.mpr ⟨whole,absent,rfl⟩,_,mem_optional.mpr ?_,rfl⟩
      cases fraction with
      | none => exact .inl rfl
      | some ds => exact .inr (mem_point.mpr ⟨_,mem_manyDigits.mpr ⟨ds,rfl⟩,rfl⟩)

theorem mem_pattern {s : List Char} : s ∈ pattern.matches' ↔ ∃ n : Literal, n.text = s := by
  unfold pattern
  rw [mem_sequence]
  apply Iff.intro
  · intro given
    obtain ⟨front,size,back,scale,rfl⟩ := given
    obtain ⟨whole,fraction,nonempty,rfl⟩ := mem_size.mp size
    obtain ⟨exponent,rfl⟩ := mem_exponent.mp scale
    refine ⟨⟨⟨false,whole,fraction,exponent,nonempty⟩,rfl⟩,?_⟩
    simp [Numeral.text,Numeral.signText]
  · intro given
    obtain ⟨⟨⟨negative,whole,fraction,exponent,nonempty⟩,unsigned⟩,rfl⟩ := given
    obtain rfl : negative = false := unsigned
    refine ⟨_,mem_size.mpr ⟨whole,fraction,nonempty,rfl⟩,_,mem_exponent.mpr ⟨exponent,rfl⟩,?_⟩
    simp [Numeral.text,Numeral.signText]

end Literal

theorem Literal.forall_text (p : Char → Prop) (digit : ∀ d : Digit, p d.char) (point : p '.') (small : p 'e')
    (capital : p 'E') (n : Literal) : ∀ c ∈ n.text, p c := by
  obtain ⟨⟨negative,whole,fraction,exponent,nonempty⟩,unsigned⟩ := n
  obtain rfl : negative = false := unsigned
  have digits (ds : List Digit) : ∀ c ∈ ds.map Digit.char, p c := by
    intro c member
    obtain ⟨d,_,rfl⟩ := List.mem_map.mp member
    exact digit d
  have dotted : ∀ c ∈ Numeral.fractionText fraction, p c := by
    cases fraction with
    | none => exact List.forall_mem_nil _
    | some ds => exact List.forall_mem_cons.mpr ⟨point,digits ds⟩
  have marked : ∀ c ∈ Numeral.exponentText exponent, p c := by
    cases exponent with
    | none => exact List.forall_mem_nil _
    | some e => exact List.forall_mem_cons.mpr ⟨by cases e.capital <;> assumption,digits e.digits⟩
  unfold Numeral.text
  rw [show Numeral.signText false = [] from rfl,List.nil_append]
  exact List.forall_mem_append.mpr ⟨digits whole,List.forall_mem_append.mpr ⟨dotted,marked⟩⟩

theorem Literal.plain (n : Literal) : Plain n.text := n.forall_text (fun c => glyph c = .other) (by decide) rfl rfl rfl

theorem Literal.blankless (n : Literal) : ∀ c ∈ n.text, Text.isBlank c = false :=
  n.forall_text (fun c => Text.isBlank c = false) (by decide) rfl rfl rfl

theorem Numeral.unsigned_uncut {n : Numeral} (uncut : cuts n.text = []) : n.negative = false := by
  cases signed : n.negative with
  | false => rfl
  | true =>
    have parts : n.text = [] ++ '-' :: (n.whole.map Digit.char ++
        (fractionText n.fraction ++ exponentText n.exponent)) := by
      simp [text,signText,signed]
    have minus : ⟨0,.sub⟩ ∈ cuts n.text := mem_cuts.mpr ⟨[],'-',_,parts,rfl,rfl,rfl⟩
    rw [uncut] at minus
    cases minus

theorem Literal.containsDigit (n : Literal) : Text.containsDigit n.text = true := by
  obtain ⟨⟨negative,whole,fraction,exponent,nonempty⟩,unsigned⟩ := n
  have numeric : ∀ d : Digit, Text.isNumeric d.char = true := Text.isNumeric_ascii
  have written (ds : List Digit) (some : ds ≠ []) : Text.containsDigit (ds.map Digit.char) = true := by
    cases ds with
    | nil => exact absurd rfl some
    | cons d ds => simp [Text.containsDigit,numeric d]
  unfold Numeral.text
  simp only [Text.containsDigit,List.any_append] at written ⊢
  rcases nonempty with left | right
  · simp [written whole left]
  · cases fraction with
    | none => exact absurd rfl right
    | some ds => simp [Numeral.fractionText,written ds right]

end Reckon
