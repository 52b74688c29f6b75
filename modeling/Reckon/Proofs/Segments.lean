import Mathlib.Data.List.Forall2
import Reckon.Proofs.Reading

namespace Reckon

def withoutBrackets (s : List Char) : List Char := s.filter fun c => c ≠ '(' ∧ c ≠ ')'

def isOperator (c : Char) : Bool := (Operator.ofSymbol? c).isSome

def segments (s : List Char) : List (List Char) := (withoutBrackets s).splitOnP isOperator

def operatorsOf (s : List Char) : List Operator := (withoutBrackets s).filterMap Operator.ofSymbol?

inductive Spells (α : Type) [Constant α] : List Char → α → Prop where
  | nothing : Spells α [] Constant.zero
  | literal (n : Literal) : Spells α n.text (Constant.ofNumeral n.toNumeral)

theorem withoutBrackets_pair (before inside after : List Char) :
    withoutBrackets (before ++ '(' :: (inside ++ ')' :: after)) = withoutBrackets (before ++ (inside ++ after)) := by
  simp [withoutBrackets]

theorem withoutBrackets_operator (left right : List Char) (op : Operator) :
    withoutBrackets (left ++ op.symbol :: right) = withoutBrackets left ++ op.symbol :: withoutBrackets right := by
  cases op <;> simp [withoutBrackets,Operator.symbol]

theorem withoutBrackets_plain {s : List Char} (plain : Plain s) : withoutBrackets s = s := by
  apply List.filter_eq_self.mpr
  intro c member
  have other := plain c member
  refine decide_eq_true ⟨?_,?_⟩
  · intro opening
    rw [glyph_opening.mpr opening] at other
    cases other
  · intro closing
    rw [glyph_closing.mpr closing] at other
    cases other

theorem ofSymbol_plain {s : List Char} (plain : Plain s) {c : Char} (member : c ∈ s) : Operator.ofSymbol? c = none := by
  cases found : Operator.ofSymbol? c with
  | none => rfl
  | some op =>
    have marked := glyph_operator.mpr ((Operator.ofSymbol_exact c op).mp found)
    rw [plain c member] at marked
    cases marked

theorem isOperator_symbol (op : Operator) : isOperator op.symbol = true := by
  unfold isOperator
  rw [Operator.ofSymbol_symbol]
  rfl

theorem segments_pair (before inside after : List Char) :
    segments (before ++ '(' :: (inside ++ ')' :: after)) = segments (before ++ (inside ++ after)) := by
  rw [segments,withoutBrackets_pair,segments]

theorem segments_enclosed (inner : List Char) : segments ('(' :: (inner ++ [')'])) = segments inner := by
  simpa using segments_pair [] inner []

theorem segments_operator (left right : List Char) (op : Operator) :
    segments (left ++ op.symbol :: right) = segments left ++ segments right := by
  rw [segments,withoutBrackets_operator,List.splitOnP_append_cons _ _ (isOperator_symbol op),segments,segments]

theorem segments_plain {s : List Char} (plain : Plain s) : segments s = [s] := by
  rw [segments,withoutBrackets_plain plain]
  refine List.splitOnP_eq_singleton ?_
  intro c member
  unfold isOperator
  rw [ofSymbol_plain plain member]
  rfl

theorem operatorsOf_pair (before inside after : List Char) :
    operatorsOf (before ++ '(' :: (inside ++ ')' :: after)) = operatorsOf (before ++ (inside ++ after)) := by
  rw [operatorsOf,withoutBrackets_pair,operatorsOf]

theorem operatorsOf_enclosed (inner : List Char) : operatorsOf ('(' :: (inner ++ [')'])) = operatorsOf inner := by
  simpa using operatorsOf_pair [] inner []

theorem operatorsOf_operator (left right : List Char) (op : Operator) :
    operatorsOf (left ++ op.symbol :: right) = operatorsOf left ++ op :: operatorsOf right := by
  rw [operatorsOf,withoutBrackets_operator,List.filterMap_append,
    List.filterMap_cons_some (Operator.ofSymbol_symbol op),operatorsOf,operatorsOf]

theorem operatorsOf_plain {s : List Char} (plain : Plain s) : operatorsOf s = [] := by
  rw [operatorsOf,withoutBrackets_plain plain]
  exact List.filterMap_eq_nil_iff.mpr fun c member => ofSymbol_plain plain member

section Accepted
variable {α : Type} [Constant α]

theorem Spells.pattern {segment : List Char} {x : α} (spelled : Spells α segment x) :
    segment = [] ∨ segment ∈ Literal.pattern.matches' := by
  cases spelled with
  | nothing => exact .inl rfl
  | literal n => exact .inr (Literal.mem_pattern.mpr ⟨n,rfl⟩)

theorem Reading.segments {s : List Char} {d : Dissection} {t : Tree α} (reading : Reading α s d t) :
    List.Forall₂ (Spells α) (segments s) t.constants ∧ t.operators = operatorsOf s := by
  induction reading with
  | empty => exact ⟨.cons .nothing .nil,rfl⟩
  | literal n =>
    rw [segments_plain n.plain,operatorsOf_plain n.plain]
    exact ⟨.cons (.literal n) .nil,rfl⟩
  | bracketed plainBefore plainAfter inner digit body ih =>
    rw [segments_pair,operatorsOf_pair]
    exact ih
  | split outer digit first second ih ih' =>
    rw [segments_operator,operatorsOf_operator,Tree.operators,ih.2,ih'.2]
    exact ⟨List.rel_append ih.1 ih'.1,rfl⟩

-- Nothing is lost, doubled or put elsewhere.
theorem parse_segments {s : List Char} {tree : Tree α} (accepted : parse α s = .ok tree) :
    (segments (Text.removeBlanks s)).length = (operatorsOf (Text.removeBlanks s)).length + 1 ∧
    (∀ segment ∈ segments (Text.removeBlanks s), segment = [] ∨ segment ∈ Literal.pattern.matches') ∧
    tree.operators = operatorsOf (Text.removeBlanks s) ∧
    tree.constants.length = (operatorsOf (Text.removeBlanks s)).length + 1 ∧
    List.Forall₂ (Spells α) (segments (Text.removeBlanks s)) tree.constants ∧
    tree.nodeCount = 2 * (operatorsOf (Text.removeBlanks s)).length + 1 ∧
    tree.depth ≤ (operatorsOf (Text.removeBlanks s)).length + 1 := by
  obtain ⟨spelled,same⟩ := (parse_reading.mp accepted).segments
  have size := tree.constants_length
  have nodes := tree.nodeCount_operators
  have depth := tree.depth_operators
  rw [same] at size nodes depth
  have each : List.Forall₂ (fun segment x => (segment = [] ∨ segment ∈ Literal.pattern.matches') ∧ Spells α segment x)
      (segments (Text.removeBlanks s)) tree.constants := spelled.imp fun _ _ word => ⟨word.pattern,word⟩
  exact ⟨spelled.length_eq.trans size,((List.forall₂_and_left _ _).mp each).1,same,size,spelled,nodes,depth⟩

theorem parse_segments_missing :
    parse Operand ['1','(','+','-','2',')','3'] = .ok (.binary .add (.const (.ofDigit 1)) (.binary .sub
      (.const .missing) (.const (.written ⟨false,[2,3],none,none,by decide⟩)))) ∧
    segments (Text.removeBlanks ['1','(','+','-','2',')','3']) = [['1'],[],['2','3']] ∧
    List.Forall₂ (Spells Operand) [['1'],[],['2','3']]
      [.ofDigit 1,.missing,.written ⟨false,[2,3],none,none,by decide⟩] := by
  have accepted : parse Operand ['1','(','+','-','2',')','3'] = .ok (.binary .add (.const (.ofDigit 1))
      (.binary .sub (.const .missing) (.const (.written ⟨false,[2,3],none,none,by decide⟩)))) := by cbv
  have cutAt : segments (Text.removeBlanks ['1','(','+','-','2',')','3']) = [['1'],[],['2','3']] := by decide
  exact ⟨accepted,cutAt,cutAt ▸ (parse_segments accepted).2.2.2.2.1⟩

end Accepted
end Reckon
