import Reckon.Proofs.Constants
import Reckon.Proofs.Segments

namespace Reckon

inductive Tree.Related {α β : Type} (same : α → β → Prop) : Tree α → Tree β → Prop where
  | const {x : α} {y : β} (values : same x y) : Related same (.const x) (.const y)
  | binary (op : Operator) {left right : Tree α} {left' right' : Tree β}
      (first : Related same left left') (second : Related same right right') :
      Related same (.binary op left right) (.binary op left' right')

namespace Tree
variable {α β γ : Type}

theorem related_map {same : β → γ → Prop} {f : α → β} {g : α → γ} {t : Tree α}
    (each : ∀ x ∈ t.constants, same (f x) (g x)) : Related same (t.map f) (t.map g) := by
  induction t with
  | const x => exact .const (each x List.mem_cons_self)
  | binary op left right ih ih' =>
    obtain ⟨first,second⟩ := List.forall_mem_append.mp each
    exact .binary op (ih first) (ih' second)

theorem constants_map (f : α → β) (t : Tree α) : (t.map f).constants = t.constants.map f := by
  induction t with
  | const x => rfl
  | binary op left right ih ih' => rw [map,constants,ih,ih',constants,List.map_append]

end Tree

-- Nothing is the zero without a sign, and a literal its exact quotient, rounded to the format.
inductive Denotes {α : Type} [Scalar α] : List Char → α → Prop where
  | nothing {x : α} (zero : Scalar.word x = 0) : Denotes [] x
  | literal (n : Literal) {x : α} (rounded : Scalar.word x = (Scalar.format α).round n.numerator n.denominator) :
      Denotes n.text x

def Operand.text : Operand → List Char
  | .missing => []
  | .written numeral => numeral.text

theorem Spells.operand {segment : List Char} {o : Operand} (spelled : Spells Operand segment o) :
    segment = o.text := by
  cases spelled <;> rfl

theorem Spells.denotes (α : Type) [Scalar α] {segment : List Char} {o : Operand} (spelled : Spells Operand segment o) :
    Denotes o.text (o.value : α) := by
  cases spelled with
  | nothing => exact .nothing Scalar.word_zero
  | literal n => exact .literal n (Scalar.word_literal n)

theorem Reading.written {s : List Char} {d : Dissection} {t : Tree Operand} (reading : Reading Operand s d t) :
    (t.map Operand.text).constants = Reckon.segments s ∧
    ∀ (α : Type) [Scalar α], (t.map Operand.text).Related (@Denotes α _) (t.map Operand.value) := by
  obtain ⟨spelled,_⟩ := reading.segments
  constructor
  · rw [Tree.constants_map,← List.forall₂_eq_eq_eq,List.forall₂_map_left_iff]
    exact spelled.flip.imp fun _ _ word => word.operand.symm
  · intro α _
    have each : List.Forall₂ (fun (o : Operand) segment => Denotes o.text (o.value : α) ∧ Spells Operand segment o)
        t.constants (Reckon.segments s) := spelled.flip.imp fun _ _ word => ⟨word.denotes α,word⟩
    exact Tree.related_map ((List.forall₂_and_left _ _).mp each).1

-- The trees of an accepted text are one tree of operands, each rounded to its format.
theorem parse_formats {α β : Type} [Scalar α] [Scalar β] (s : List Char) :
    (∃ fault, parse α s = .error fault ∧ parse β s = .error fault) ∨
    ∃ (written : Tree (List Char)) (t : Tree α) (u : Tree β), parse α s = .ok t ∧ parse β s = .ok u ∧
      written.constants = segments (Text.removeBlanks s) ∧ written.Related Denotes t ∧ written.Related Denotes u := by
  rw [parse_operands α,parse_operands β]
  cases read : parse Operand s with
  | error fault => exact .inl ⟨fault,rfl,rfl⟩
  | ok t =>
    obtain ⟨texts,related⟩ := (parse_reading.mp read).written
    exact .inr ⟨_,_,_,rfl,rfl,texts,related α,related β⟩

theorem parse_formats_apart : ∃ (written : Tree (List Char)) (t : Tree Float) (u : Tree Float32),
    parse Float ['-','1','6','7','7','7','2','1','7'] = .ok t ∧ parse Float32 ['-','1','6','7','7','7','2','1','7'] = .ok u ∧
    written.constants = [[],['1','6','7','7','7','2','1','7']] ∧ written.Related Denotes t ∧ written.Related Denotes u ∧
    t.constants.map Scalar.word = [0,0x4170000010000000] ∧ u.constants.map Scalar.word = [0,0x4b800000] := by
  let literal : Literal := ⟨⟨false,[1,6,7,7,7,2,1,7],none,none,by decide⟩,rfl⟩
  have read : parse Operand ['-','1','6','7','7','7','2','1','7'] =
      .ok (.binary .sub (.const .missing) (.const (.written literal.toNumeral))) := by cbv
  have rounded : Scalar.word (Constant.ofNumeral literal.toNumeral : Float) = 0x4170000010000000 :=
    (Scalar.word_literal literal).trans (by decide +kernel)
  have rounded' : Scalar.word (Constant.ofNumeral literal.toNumeral : Float32) = 0x4b800000 :=
    (Scalar.word_literal literal).trans (by decide +kernel)
  have double := parse_operands Float ['-','1','6','7','7','7','2','1','7']
  have single := parse_operands Float32 ['-','1','6','7','7','7','2','1','7']
  rw [read] at double single
  rcases parse_formats (α := Float) (β := Float32) ['-','1','6','7','7','7','2','1','7'] with refused | accepted
  · obtain ⟨fault,refused,_⟩ := refused
    cases refused.symm.trans double
  · obtain ⟨written,t,u,first,second,texts,related,related'⟩ := accepted
    obtain rfl := Except.ok.inj (first.symm.trans double)
    obtain rfl := Except.ok.inj (second.symm.trans single)
    refine ⟨written,_,_,first,second,texts.trans (by decide),related,related',?_,?_⟩
    · change [Scalar.word (Constant.zero : Float),Scalar.word (Constant.ofNumeral literal.toNumeral : Float)] = _
      rw [Scalar.word_zero,rounded]
    · change [Scalar.word (Constant.zero : Float32),Scalar.word (Constant.ofNumeral literal.toNumeral : Float32)] = _
      rw [Scalar.word_zero,rounded']

end Reckon
