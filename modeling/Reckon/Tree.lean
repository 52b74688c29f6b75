import Reckon.Scalar

namespace Reckon

inductive Tree (α : Type) where
  | const (value : α)
  | binary (op : Operator) (left right : Tree α)
  deriving DecidableEq

namespace Tree
variable {α β : Type}

def map (f : α → β) : Tree α → Tree β
  | const x => const (f x)
  | binary op left right => binary op (left.map f) (right.map f)

def evalWith (apply : Operator → α → α → α) : Tree α → α
  | const x => x
  | binary op left right => apply op (left.evalWith apply) (right.evalWith apply)

def eval [Scalar α] (t : Tree α) : α := t.evalWith Scalar.apply

def depth : Tree α → Nat
  | const _ => 1
  | binary _ left right => 1 + max left.depth right.depth

def nodeCount : Tree α → Nat
  | const _ => 1
  | binary _ left right => 1 + left.nodeCount + right.nodeCount

def operators : Tree α → List Operator
  | const _ => []
  | binary op left right => left.operators ++ op :: right.operators

def constants : Tree α → List α
  | const x => [x]
  | binary _ left right => left.constants ++ right.constants

theorem constants_length (t : Tree α) : t.constants.length = t.operators.length + 1 := by
  induction t with
  | const x => rfl
  | binary op left right ih ih' =>
    simp only [constants,operators,List.length_append,List.length_cons,ih,ih']
    omega

theorem nodeCount_operators (t : Tree α) : t.nodeCount = 2 * t.operators.length + 1 := by
  induction t with
  | const x => rfl
  | binary op left right ih ih' =>
    simp only [nodeCount,operators,List.length_append,List.length_cons,ih,ih']
    omega

theorem depth_operators (t : Tree α) : t.depth ≤ t.operators.length + 1 := by
  induction t with
  | const x => exact Nat.le_refl 1
  | binary op left right ih ih' =>
    simp only [depth,operators,List.length_append,List.length_cons]
    omega

def equal [Scalar α] : Tree α → Tree α → Bool
  | const x,const y => Scalar.equal x y
  | binary op left right,binary op' left' right' => op = op' && left.equal left' && right.equal right'
  | _,_ => false

-- Every operation has its own brackets, so no rule of precedence is needed to read it.
def textOnto [Scalar α] : Tree α → List Char → List Char
  | const x,after => Scalar.constantText x ++ after
  | binary op left right,after =>
    '(' :: left.textOnto (' ' :: op.symbol :: ' ' :: right.textOnto (')' :: after))

def text [Scalar α] (t : Tree α) : List Char := t.textOnto []

end Tree
end Reckon
