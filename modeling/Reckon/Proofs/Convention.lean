import Mathlib.Tactic.Ring
import Reckon.Proofs.Derivation

namespace Reckon

-- Levels of binding as they are usually taught: sums, then products, then powers.
def Operator.level : Operator → Nat
  | .add => 0
  | .sub => 0
  | .mul => 1
  | .div => 1
  | .pow => 2

-- A text of one level is a chain of operands of the next level with operators of its own level
-- between them. Chains are read from left to right, so a chain is given by its last operand and
-- what stands in front of it.
inductive Formula : Nat → Type where
  | literal (n : Literal) : Formula 3
  | bracketed (body : Formula 0) : Formula 3
  | single {level : Nat} (only : Formula (level + 1)) : Formula level
  | chain (op : Operator) (front : Formula op.level) (last : Formula (op.level + 1)) : Formula op.level

section Values

-- Without rounding, and with the whole of the exponent.
def Numeral.exact (n : Numeral) : ℚ :=
  (if n.negative then -1 else 1) * ofDigits (n.whole ++ n.fraction.getD []) *
    10 ^ ofDigits (n.exponent.elim [] Exponent.digits) / 10 ^ (n.fraction.getD []).length

def Operand.exact : Operand → ℚ
  | .missing => 0
  | .written numeral => numeral.exact

-- There is no quotient by zero, and the power is left open.
def Operator.exact (power : ℚ → ℚ → Option ℚ) (op : Operator) (x y : Option ℚ) : Option ℚ :=
  x.bind fun a => y.bind fun b => match op with
    | .add => some (a + b)
    | .sub => some (a - b)
    | .mul => some (a * b)
    | .div => if b = 0 then none else some (a / b)
    | .pow => power a b

variable (power : ℚ → ℚ → Option ℚ)

def Tree.exact (t : Tree Operand) : Option ℚ :=
  (t.map fun x => some x.exact).evalWith (Operator.exact power)

namespace Formula

def text : {level : Nat} → Formula level → List Char
  | _,literal n => n.text
  | _,bracketed body => '(' :: (body.text ++ [')'])
  | _,single only => only.text
  | _,chain op front last => front.text ++ op.symbol :: last.text

def exact : {level : Nat} → Formula level → Option ℚ
  | _,literal n => some n.exact
  | _,bracketed body => body.exact
  | _,single only => only.exact
  | _,chain op front last => op.exact power front.exact last.exact

end Formula
end Values

namespace Operator

def Precedes (op later : Operator) : Prop := op.rank ≤ later.rank ∧ (later.rank = op.rank → op ∈ [.add,.mul])

instance (op later : Operator) : Decidable (op.Precedes later) := inferInstanceAs (Decidable (_ ∧ _))

theorem not_precedes {op later : Operator} (behind : ¬op.Precedes later) :
    later.rank ≤ op.rank ∧ (op.rank = later.rank → later ∈ [.sub,.div,.pow]) := by
  revert behind
  cases op <;> cases later <;> decide

theorem rank_lt {op inner : Operator} (tighter : op.level < inner.level) : op.rank < inner.rank := by
  revert tighter
  cases op <;> cases inner <;> decide

theorem level_mono {op inner : Operator} (order : op.rank ≤ inner.rank) : op.level ≤ inner.level := by
  revert order
  cases op <;> cases inner <;> decide

theorem exact_assoc {power : ℚ → ℚ → Option ℚ} {op later : Operator} (first : op.Precedes later)
    (level : later.level ≤ op.level) (x y z : Option ℚ) :
    op.exact power x (later.exact power y z) = later.exact power (op.exact power x y) z := by
  have pairs : (op = .add ∨ op = .mul) ∧ later.level = op.level := by
    revert first level
    cases op <;> cases later <;> decide
  cases x with
  | none => rfl
  | some a =>
    cases y with
    | none => rfl
    | some b =>
      cases z with
      | none => rcases pairs with ⟨rfl | rfl,_⟩ <;> rfl
      | some c =>
        rcases pairs with ⟨rfl | rfl,same⟩ <;> cases later <;> cases same
        · simp only [exact,Option.bind_some,add_assoc]
        · simp only [exact,Option.bind_some,add_sub_assoc]
        · simp only [exact,Option.bind_some,mul_assoc]
        · by_cases zero : c = 0
          · simp [exact,zero]
          · simp [exact,zero,mul_div_assoc]

end Operator
namespace Derivation

-- The new operator goes below those that the search still takes before it.
def extend (d : Derivation) (op : Operator) (last : Derivation) : Derivation :=
  match d with
  | binary root left right =>
    if root.Precedes op then binary root left (right.extend op last)
    else binary op (binary root left right) last
  | other => binary op other last

section Extension
variable {op : Operator} {last : Derivation}

theorem extend_bare {d : Derivation} (bare : d.root? = none) : d.extend op last = binary op d last := by
  cases d <;> first | rfl | cases bare

@[elab_as_elim]
theorem extend_induction {motive : Derivation → Prop} (op : Operator)
    (bare : ∀ d, d.root? = none → motive d)
    (below : ∀ root left right, root.Precedes op → motive right → motive (binary root left right))
    (above : ∀ root left right, ¬root.Precedes op → motive (binary root left right))
    (d : Derivation) : motive d := by
  induction d with
  | empty => exact bare _ rfl
  | literal n => exact bare _ rfl
  | bracketed body ih => exact bare _ rfl
  | binary root left right ih ih' =>
    by_cases first : root.Precedes op
    · exact below root left right first ih'
    · exact above root left right first

theorem extend_text (d : Derivation) : (d.extend op last).text = d.text ++ op.symbol :: last.text := by
  induction d using extend_induction op with
  | bare d bare => rw [extend_bare bare,text]
  | below root left right first ih => simp [extend,first,text,ih]
  | above root left right behind => simp [extend,behind,text]

theorem extend_hasLiteral (d : Derivation) : (d.extend op last).hasLiteral = (d.hasLiteral || last.hasLiteral) := by
  induction d using extend_induction op with
  | bare d bare => rw [extend_bare bare,hasLiteral]
  | below root left right first ih => simp [extend,first,hasLiteral,ih,Bool.or_assoc]
  | above root left right behind => simp [extend,behind,hasLiteral]

theorem extend_root {d : Derivation} {inner : Operator} (root : inner ∈ (d.extend op last).root?) :
    inner = op ∨ inner ∈ d.root? := by
  cases d with
  | binary other left right =>
    by_cases first : other.Precedes op
    · simp only [extend,first,if_true] at root
      exact .inr root
    · simp only [extend,first,if_false] at root
      exact .inl (Option.some.inj root).symm
  | empty => exact .inl (Option.some.inj root).symm
  | literal n => exact .inl (Option.some.inj root).symm
  | bracketed body => exact .inl (Option.some.inj root).symm

theorem extend_wellFormed {d : Derivation} (valid : d.WellFormed) (validLast : last.WellFormed)
    (literal : last.hasLiteral = true) (tighter : ∀ inner ∈ last.root?, op.rank < inner.rank) :
    (d.extend op last).WellFormed := by
  have behind : ∀ inner ∈ last.root?, op.Precedes inner := by
    intro inner root
    have order := tighter inner root
    exact ⟨Nat.le_of_lt order,fun same => absurd same (Nat.ne_of_gt order)⟩
  induction d using extend_induction op with
  | bare d bare =>
    rw [extend_bare bare]
    exact ⟨by simp [literal],by simp [bare],behind,valid,validLast⟩
  | below root left right first ih =>
    obtain ⟨_,leftRoot,rightRoot,leftValid,rightValid⟩ := valid
    simp only [extend,first,if_true]
    refine ⟨by simp [extend_hasLiteral,literal],leftRoot,?_,leftValid,ih rightValid⟩
    intro inner found
    rcases extend_root found with rfl | old
    · exact first
    · exact rightRoot inner old
  | above root left right later =>
    simp only [extend,later,if_false]
    refine ⟨by simp [literal],?_,behind,valid,validLast⟩
    intro inner same
    obtain rfl := Option.some.inj same
    exact Operator.not_precedes later

theorem extend_exact {power : ℚ → ℚ → Option ℚ} {d : Derivation} (valid : d.WellFormed)
    (level : ∀ inner ∈ d.root?, op.level ≤ inner.level) : ((d.extend op last).tree Operand).exact power =
      op.exact power ((d.tree Operand).exact power) ((last.tree Operand).exact power) := by
  induction d using extend_induction op with
  | bare d bare =>
    rw [extend_bare bare]
    rfl
  | below root left right first ih =>
    obtain ⟨_,_,rightRoot,_,rightValid⟩ := valid
    have here := level root rfl
    have deeper : ∀ inner ∈ right.root?, op.level ≤ inner.level := by
      intro inner found
      exact here.trans (Operator.level_mono (rightRoot inner found).1)
    simp only [extend,first,if_true]
    calc ((binary root left (right.extend op last)).tree Operand).exact power
        = root.exact power ((left.tree Operand).exact power)
            (((right.extend op last).tree Operand).exact power) := rfl
      _ = root.exact power ((left.tree Operand).exact power)
            (op.exact power ((right.tree Operand).exact power) ((last.tree Operand).exact power)) := by
          rw [ih rightValid deeper]
      _ = op.exact power (root.exact power ((left.tree Operand).exact power) ((right.tree Operand).exact power))
            ((last.tree Operand).exact power) := Operator.exact_assoc first here _ _ _
  | above root left right later =>
    simp only [extend,later,if_false]
    rfl

end Extension
end Derivation

namespace Formula

def derivation : {level : Nat} → Formula level → Derivation
  | _,literal n => .literal n
  | _,bracketed body => .bracketed body.derivation
  | _,single only => only.derivation
  | _,chain op front last => front.derivation.extend op last.derivation

variable {level : Nat}

theorem derivation_text (f : Formula level) : f.derivation.text = f.text := by
  induction f with
  | literal n => rfl
  | bracketed body ih => simp [derivation,text,Derivation.text,ih]
  | single only ih => exact ih
  | chain op front last ih ih' => simp [derivation,text,Derivation.extend_text,ih,ih']

theorem derivation_hasLiteral (f : Formula level) : f.derivation.hasLiteral = true := by
  induction f with
  | literal n => rfl
  | bracketed body ih => exact ih
  | single only ih => exact ih
  | chain op front last ih ih' => simp [derivation,Derivation.extend_hasLiteral,ih]

theorem derivation_level (f : Formula level) : ∀ inner ∈ f.derivation.root?, level ≤ inner.level := by
  induction f with
  | literal n => simp [derivation,Derivation.root?]
  | bracketed body ih => simp [derivation,Derivation.root?]
  | single only ih => exact fun inner root => Nat.le_of_succ_le (ih inner root)
  | chain op front last ih ih' =>
    intro inner root
    rcases Derivation.extend_root root with rfl | old
    · exact Nat.le_refl _
    · exact ih inner old

theorem derivation_wellFormed (f : Formula level) : f.derivation.WellFormed := by
  induction f with
  | literal n => trivial
  | bracketed body ih => exact ⟨body.derivation_hasLiteral,ih⟩
  | single only ih => exact ih
  | chain op front last ih ih' =>
    exact Derivation.extend_wellFormed ih ih' last.derivation_hasLiteral
      fun inner root => Operator.rank_lt (last.derivation_level inner root)

theorem derivation_exact (power : ℚ → ℚ → Option ℚ) (f : Formula level) :
    (f.derivation.tree Operand).exact power = f.exact power := by
  induction f with
  | literal n => rfl
  | bracketed body ih => exact ih
  | single only ih => exact ih
  | chain op front last ih ih' =>
    simp only [derivation,exact]
    rw [Derivation.extend_exact front.derivation_wellFormed front.derivation_level,ih,ih']

end Formula

-- Apart from rounding, the tree of a text has the value that it has by the usual rules.
theorem parse_conventional {s : List Char} {f : Formula 0} (written : Text.removeBlanks s = f.text)
    (power : ℚ → ℚ → Option ℚ) : ∃ tree, parse Operand s = .ok tree ∧ tree.exact power = f.exact power ∧
      ∀ (α : Type) [Constant α], parse α s = .ok (tree.map Operand.value) := by
  obtain ⟨d,reading⟩ := f.derivation.reading (α := Operand) f.derivation_wellFormed
  rw [f.derivation_text,← written] at reading
  obtain ⟨same,accepted⟩ := reading_complete reading
  have read : parse Operand s = .ok (f.derivation.tree Operand) := by
    rw [parse,same]
    exact accepted
  refine ⟨_,read,f.derivation_exact power,?_⟩
  intro α _
  rw [parse_operands,read]
  rfl

theorem parse_conventional_mixed : ∃ (f : Formula 0) (tree : Tree Operand),
    Text.removeBlanks ['1',' ','+','8','-','6','*','4','/',' ','2','-','3','^','5'] = f.text ∧
    parse Operand ['1',' ','+','8','-','6','*','4','/',' ','2','-','3','^','5'] = .ok tree ∧
    tree.exact (fun a b => some (a * b)) = f.exact (fun a b => some (a * b)) ∧
    f.exact (fun a b => some (a * b)) = some (-18) := by
  let f : Formula 0 :=
    .chain .sub (.chain .sub (.chain .add (.single (.single (.single (.literal (.ofDigit 1)))))
      (.single (.single (.literal (.ofDigit 8)))))
      (.chain .div (.chain .mul (.single (.single (.literal (.ofDigit 6)))) (.single (.literal (.ofDigit 4))))
        (.single (.literal (.ofDigit 2)))))
      (.single (.chain .pow (.single (.literal (.ofDigit 3))) (.literal (.ofDigit 5))))
  have written : Text.removeBlanks ['1',' ','+','8','-','6','*','4','/',' ','2','-','3','^','5'] = f.text := by
    decide +kernel
  obtain ⟨tree,accepted,value,_⟩ := parse_conventional written fun a b => some (a * b)
  refine ⟨f,tree,written,accepted,value,?_⟩
  norm_num [f,Formula.exact,Operator.exact,Numeral.exact,Literal.ofDigit,ofDigits]

end Reckon
