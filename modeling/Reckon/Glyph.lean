namespace Reckon

inductive Direction where
  | forward
  | backward
  deriving DecidableEq

def Direction.order {β : Type} : Direction → List β → List β
  | .forward,places => places
  | .backward,places => places.reverse

inductive Operator where
  | add
  | sub
  | mul
  | div
  | pow
  deriving DecidableEq

namespace Operator

def symbol : Operator → Char
  | .add => '+'
  | .sub => '-'
  | .mul => '*'
  | .div => '/'
  | .pow => '^'

def ofSymbol? : Char → Option Operator
  | '+' => some .add
  | '-' => some .sub
  | '*' => some .mul
  | '/' => some .div
  | '^' => some .pow
  | _ => none

-- A forward search takes the leftmost place and so groups a chain to the right, a backward
-- one the rightmost place.
def scan : Operator → Direction
  | .add => .forward
  | .sub => .backward
  | .mul => .forward
  | .div => .backward
  | .pow => .backward

-- Weaker operators stand first. The order is part of the meaning: subtraction binds tighter
-- than addition, and division tighter than multiplication.
def table : List Operator := [.add,.sub,.mul,.div,.pow]

def positions (op : Operator) (length : Nat) : List Nat :=
  op.scan.order (List.range length)

theorem ofSymbol_symbol (op : Operator) : ofSymbol? op.symbol = some op := by cases op <;> rfl

theorem ofSymbol_exact (c : Char) (op : Operator) : ofSymbol? c = some op ↔ c = op.symbol := by
  apply Iff.intro
  · intro found
    unfold ofSymbol? at found
    split at found <;> cases found <;> rfl
  · rintro rfl
    exact ofSymbol_symbol op

theorem mem_table (op : Operator) : op ∈ table := by cases op <;> decide

end Operator

inductive Glyph where
  | opening
  | closing
  | operator (op : Operator)
  | other
  deriving DecidableEq

namespace Glyph

def ofChar (c : Char) : Glyph :=
  if c = '(' then .opening
  else if c = ')' then .closing
  else match Operator.ofSymbol? c with
    | some op => .operator op
    | none => .other

def char? : Glyph → Option Char
  | .opening => some '('
  | .closing => some ')'
  | .operator op => some op.symbol
  | .other => none

def step : Glyph → Int
  | .opening => 1
  | .closing => -1
  | _ => 0

end Glyph

-- Characters and the bytes of their encoding: brackets and operators are single bytes, and no
-- byte of a longer encoding looks like one.
class Symbolic (σ : Type) where
  glyph : σ → Glyph

instance : Symbolic Char := ⟨Glyph.ofChar⟩
instance : Symbolic UInt8 := ⟨fun byte => Glyph.ofChar (Char.ofUInt8 byte)⟩

export Symbolic (glyph)

theorem glyph_symbol (op : Operator) : glyph op.symbol = .operator op := by cases op <;> rfl

theorem glyph_char {c : Char} {g : Glyph} (special : g ≠ .other) : glyph c = g ↔ g.char? = some c := by
  apply Iff.intro
  · intro marked
    change Glyph.ofChar c = g at marked
    unfold Glyph.ofChar at marked
    split at marked
    · rename_i written
      rw [← marked,written]
      rfl
    · split at marked
      · rename_i written
        rw [← marked,written]
        rfl
      · split at marked
        · rename_i op found
          rw [← marked,(Operator.ofSymbol_exact c op).mp found]
          rfl
        · exact absurd marked.symm special
  · intro written
    cases g with
    | opening => cases written; rfl
    | closing => cases written; rfl
    | operator op => cases written; exact glyph_symbol op
    | other => cases written

theorem glyph_opening {c : Char} : glyph c = .opening ↔ c = '(' := by
  rw [glyph_char Glyph.noConfusion]
  exact Option.some_inj.trans eq_comm

theorem glyph_closing {c : Char} : glyph c = .closing ↔ c = ')' := by
  rw [glyph_char Glyph.noConfusion]
  exact Option.some_inj.trans eq_comm

theorem glyph_operator {c : Char} {op : Operator} : glyph c = .operator op ↔ c = op.symbol := by
  rw [glyph_char Glyph.noConfusion]
  exact Option.some_inj.trans eq_comm

end Reckon
