import Reckon.Binary

namespace Reckon

abbrev Digit := Fin 10

namespace Digit

def char (d : Digit) : Char := Char.ofNat (48 + d.val)

def ofChar? (c : Char) : Option Digit :=
  if h : 48 ≤ c.toNat ∧ c.toNat < 58 then some ⟨c.toNat - 48,by omega⟩ else none

theorem ofChar_char (d : Digit) : ofChar? d.char = some d := by revert d; decide

theorem char_ofChar {c : Char} {d : Digit} (found : ofChar? c = some d) : d.char = c := by
  unfold ofChar? at found
  split at found
  · rename_i bounds
    cases found
    unfold char
    dsimp only
    rw [show 48 + (c.toNat - 48) = c.toNat by omega]
    exact Char.ofNat_toNat c
  · cases found

end Digit

def ofDigits (ds : List Digit) : Nat := ds.foldl (fun n d => 10 * n + d.val) 0

def digitsOnto (n : Nat) (later : List Digit) : List Digit :=
  if small : n < 10 then ⟨n,small⟩ :: later
  else digitsOnto (n / 10) (⟨n % 10,Nat.mod_lt n (by decide)⟩ :: later)

def digits (n : Nat) : List Digit := digitsOnto n []

def digitsPadded (width n : Nat) : List Digit :=
  let written := digits n
  List.replicate (width - written.length) 0 ++ written

section Values
attribute [local instance(2000)] instPowNat

theorem ofDigits_append (ds es : List Digit) : ofDigits (ds ++ es) = ofDigits ds * 10 ^ es.length + ofDigits es := by
  have onto (n : Nat) : es.foldl (fun n d => 10 * n + d.val) n = n * 10 ^ es.length + ofDigits es := by
    unfold ofDigits
    induction es generalizing n with
    | nil => simp
    | cons d es ih =>
      have weight : (10 * n + d.val) * 10 ^ es.length = n * 10 ^ (es.length + 1) + d.val * 10 ^ es.length := by
        rw [Nat.add_mul,Nat.pow_succ,Nat.mul_comm _ 10,Nat.mul_assoc,Nat.mul_left_comm]
      rw [List.foldl_cons,List.foldl_cons,ih,ih (10 * 0 + d.val),List.length_cons,weight,Nat.mul_zero,
        Nat.zero_add,Nat.add_assoc]
  rw [ofDigits,List.foldl_append]
  exact onto _

theorem ofDigits_zeros (width : Nat) : ofDigits (List.replicate width 0) = 0 := by
  induction width with
  | zero => rfl
  | succ width ih => rw [List.replicate_succ',ofDigits_append,ih]; rfl

theorem digits_small {n : Nat} (small : n < 10) : digits n = [⟨n,small⟩] := by
  rw [digits,digitsOnto,dif_pos small]

theorem digitsOnto_append (n : Nat) (later : List Digit) : digitsOnto n later = digits n ++ later := by
  induction n using Nat.strongRecOn generalizing later with
  | ind n ih =>
    by_cases small : n < 10
    · rw [digits_small small,digitsOnto,dif_pos small]
      rfl
    · have less : n / 10 < n := Nat.div_lt_self (by omega) (by decide)
      have whole : digits n = digitsOnto (n / 10) [⟨n % 10,Nat.mod_lt n (by decide)⟩] := by
        rw [digits,digitsOnto,dif_neg small]
      rw [whole,digitsOnto,dif_neg small,ih _ less,ih _ less [_],List.append_assoc]
      rfl

theorem digits_step {n : Nat} (large : 10 ≤ n) :
    digits n = digits (n / 10) ++ [⟨n % 10,Nat.mod_lt n (by decide)⟩] := by
  rw [← digitsOnto_append,digits,digitsOnto,dif_neg (Nat.not_lt.mpr large)]

theorem digits_nonempty (n : Nat) : digits n ≠ [] := by
  by_cases small : n < 10
  · simp [digits_small small]
  · simp [digits_step (Nat.le_of_not_lt small)]

theorem ofDigits_digits (n : Nat) : ofDigits (digits n) = n := by
  induction n using Nat.strongRecOn with
  | ind n ih =>
    by_cases small : n < 10
    · simp [digits_small small,ofDigits]
    · have front := ih (n / 10) (Nat.div_lt_self (by omega) (by decide))
      rw [digits_step (Nat.le_of_not_lt small),ofDigits_append,front]
      simp only [ofDigits,List.length_singleton,List.foldl_cons,List.foldl_nil]
      omega

theorem digits_length {n width : Nat} (small : n < 10 ^ (width + 1)) : (digits n).length ≤ width + 1 := by
  induction width generalizing n with
  | zero => simp [digits_small (by simpa using small)]
  | succ width ih =>
    by_cases single : n < 10
    · simp [digits_small single]
    · have front : n / 10 < 10 ^ (width + 1) := by
        rw [Nat.pow_succ] at small
        exact Nat.div_lt_of_lt_mul (by omega)
      rw [digits_step (Nat.le_of_not_lt single),List.length_append,List.length_singleton]
      have bound := ih front
      omega

theorem ofDigits_padded (width n : Nat) : ofDigits (digitsPadded width n) = n := by
  simp [digitsPadded,ofDigits_append,ofDigits_zeros,ofDigits_digits]

theorem digitsPadded_length {width n : Nat} (small : n < 10 ^ (width + 1)) :
    (digitsPadded (width + 1) n).length = width + 1 := by
  have bound := digits_length small
  simp only [digitsPadded,List.length_append,List.length_replicate]
  omega

end Values

-- The fraction with `units` over ten to the `places`.
structure Decimal where
  units : Nat
  places : Nat
  deriving DecidableEq

namespace Decimal
attribute [local instance(2000)] instPowNat

def text (d : Decimal) : List Char :=
  let whole := (digits (d.units / 10 ^ d.places)).map Digit.char
  if d.places = 0 then whole
  else whole ++ '.' :: (digitsPadded d.places (d.units % 10 ^ d.places)).map Digit.char

end Decimal

attribute [local instance(2000)] instPowNat

structure Scaled where
  coefficient : Nat
  power : Int
  deriving DecidableEq

namespace Scaled

def decimal (d : Scaled) : Decimal := ⟨d.coefficient * 10 ^ d.power.toNat,(-d.power).toNat⟩

def readsBack (F : BinaryFormat) (magnitude : Nat) (d : Scaled) : Bool :=
  F.round d.decimal.units (10 ^ d.decimal.places) = magnitude

end Scaled

namespace BinaryFormat

def leadingPower (F : BinaryFormat) (magnitude : Nat) : Int :=
  let size := F.size magnitude
  if 2 ^ F.scale ≤ size then (digits (size / 2 ^ F.scale)).length
  else 1 - (digits (2 ^ F.scale / size)).length

-- Of the two neighbours on the grid of a power of ten the nearer one that reads back.
def onGrid? (F : BinaryFormat) (magnitude : Nat) (power : Int) : Option Scaled :=
  let above := F.size magnitude * 10 ^ (-power).toNat
  let below := 2 ^ F.scale * 10 ^ power.toNat
  let lower : Scaled := ⟨above / below,power⟩
  let upper : Scaled := ⟨above / below + 1,power⟩
  let doubled := 2 * (above % below)
  match lower.readsBack F magnitude,upper.readsBack F magnitude with
  | true,true =>
    if doubled < below then some lower else some upper
  | true,false => some lower
  | false,true => some upper
  | false,false => none

def search? (F : BinaryFormat) (magnitude : Nat) : Nat → Int → Option Scaled
  | 0,_ => none
  | grids + 1,power =>
    match F.onGrid? magnitude power with
    | some found => some found
    | none => search? F magnitude grids (power - 1)

def exactDecimal (F : BinaryFormat) (magnitude : Nat) : Scaled :=
  ⟨F.size magnitude * 5 ^ F.scale,-F.scale⟩

-- The precision in bits is more than enough grids; the exact value would remain after them.
def shortest (F : BinaryFormat) (magnitude : Nat) : Scaled :=
  if F.size magnitude = 0 then ⟨0,0⟩
  else (F.search? magnitude F.precision (F.leadingPower magnitude)).getD (F.exactDecimal magnitude)

theorem onGrid_readsBack {F : BinaryFormat} {magnitude : Nat} {power : Int} {d : Scaled}
    (found : F.onGrid? magnitude power = some d) : d.readsBack F magnitude = true := by
  unfold onGrid? at found
  dsimp only at found
  grind

theorem search_readsBack {F : BinaryFormat} {magnitude grids : Nat} {power : Int} {d : Scaled}
    (found : F.search? magnitude grids power = some d) : d.readsBack F magnitude = true := by
  induction grids generalizing power with
  | zero => cases found
  | succ grids ih =>
    unfold search? at found
    split at found
    · rename_i here
      cases found
      exact onGrid_readsBack here
    · exact ih found

theorem exactDecimal_readsBack {F : BinaryFormat} {magnitude : Nat} (finite : magnitude < F.infinity) :
    (F.exactDecimal magnitude).readsBack F magnitude = true := by
  have fives : 0 < 5 ^ F.scale := Nat.pow_pos (by decide)
  have tens : 10 ^ F.scale = 2 ^ F.scale * 5 ^ F.scale := by rw [← Nat.mul_pow]
  simp [Scaled.readsBack,Scaled.decimal,exactDecimal,tens,round_scaled F _ _ fives,round_size F finite]

theorem shortest_readsBack {F : BinaryFormat} {magnitude : Nat} (finite : magnitude < F.infinity) :
    (F.shortest magnitude).readsBack F magnitude = true := by
  unfold shortest
  split
  · rename_i zero
    have back := round_size F finite
    rw [zero] at back
    rw [← back]
    simp [Scaled.readsBack,Scaled.decimal,round,nearest]
  · cases found : F.search? magnitude F.precision (F.leadingPower magnitude) with
    | none => exact exactDecimal_readsBack finite
    | some d => exact search_readsBack found

def rounded (F : BinaryFormat) (places magnitude : Nat) : Decimal :=
  ⟨nearest (F.size magnitude * 10 ^ places) (2 ^ F.scale),places⟩

end BinaryFormat
end Reckon
