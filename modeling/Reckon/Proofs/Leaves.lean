import Reckon.Proofs.Canonical

namespace Reckon

-- Missing operands are not among them.
def Dissection.leaves : Dissection → List (List Char)
  | empty => []
  | digitless => []
  | leaf text => [text]
  | stripped _ inner => inner.leaves
  | split _ left right => left.leaves ++ right.leaves

structure Leaf (s text : List Char) : Prop where
  digit : Text.containsDigit text = true
  uncut : outermost? text = none
  bare : outerPair? text = none
  within : text.Sublist s

theorem Leaf.mono {part s text : List Char} (leaf : Leaf part text) (shorter : part.Sublist s) : Leaf s text :=
  ⟨leaf.digit,leaf.uncut,leaf.bare,leaf.within.trans shorter⟩

theorem strip_sublist {σ : Type} (s : List σ) (pair : Pair) : (strip s pair).Sublist s :=
  (List.eraseIdx_sublist _ _).trans (List.eraseIdx_sublist _ _)

theorem leaf_sound (s : List Char) : ∀ text ∈ (dissect s).leaves, Leaf s text := by
  induction s using dissect_induction with
  | nil =>
    rw [dissect_nil]
    exact List.forall_mem_nil _
  | digitless s nonempty none =>
    rw [dissect_digitless nonempty none]
    exact List.forall_mem_nil _
  | split s cut digit found left right =>
    rw [dissect_split digit found]
    refine List.forall_mem_append.mpr ⟨?_,?_⟩
    · intro text member
      exact (left text member).mono (List.take_sublist _ _)
    · intro text member
      exact (right text member).mono (List.drop_sublist _ _)
  | stripped s pair digit uncut found inner =>
    rw [dissect_stripped digit uncut found]
    intro text member
    exact (inner text member).mono (strip_sublist s pair)
  | leaf s digit uncut bare =>
    rw [dissect_leaf digit uncut bare]
    exact List.forall_mem_singleton.mpr ⟨digit,uncut,bare,List.Sublist.refl s⟩

theorem Leaf.literal {s text : List Char} (leaf : Leaf s text) {n : Numeral} (converted : Numeral.ofChars? text = some n) :
    ∃ m : Literal, m.toNumeral = n ∧ m.text = text := by
  obtain rfl := (Numeral.ofChars_exact _ _).mp converted
  exact ⟨⟨n,Numeral.unsigned_uncut (outermost_none.mp leaf.uncut)⟩,rfl,rfl⟩

section Refused
variable {α : Type} [Constant α]

theorem tree_fault {cut : Cut} {left right : Dissection} {fault : ParseError} :
    (Dissection.split cut left right).tree α = .error fault ↔
      left.tree α = .error fault ∨ ∃ t, left.tree α = .ok t ∧ right.tree α = .error fault := by
  rw [Dissection.tree]
  cases left.tree α with
  | error first => simp
  | ok t => cases right.tree α <;> simp

theorem quoted_leaf {d : Dissection} {quoted : List Char} (fault : d.tree α = .error (.invalidLiteral quoted)) :
    quoted ∈ d.leaves := by
  induction d with
  | empty => cases fault
  | digitless => cases fault
  | leaf text =>
    rw [Dissection.tree,readLeaf] at fault
    split at fault <;> cases fault
    exact List.mem_cons_self
  | stripped pair inner ih => exact ih fault
  | split cut left right ih ih' =>
    rcases tree_fault.mp fault with first | ⟨_,_,second⟩
    · exact List.mem_append_left _ (ih first)
    · exact List.mem_append_right _ (ih' second)

end Refused

section Accepted
variable {α : Type} [Constant α]

theorem Reading.converted {s : List Char} {d : Dissection} {t : Tree α} (reading : Reading α s d t) :
    ∀ text ∈ d.leaves, (Numeral.ofChars? text).isSome = true := by
  induction reading with
  | empty => exact List.forall_mem_nil _
  | literal n => exact List.forall_mem_singleton.mpr (by rw [Numeral.ofChars_text]; rfl)
  | bracketed plainBefore plainAfter inner digit body ih => exact ih
  | split outer digit first second ih ih' => exact List.forall_mem_append.mpr ⟨ih,ih'⟩

theorem Reading.origin {s : List Char} {d : Dissection} {t : Tree α} (reading : Reading α s d t) :
    ∀ x ∈ t.constants, x = Constant.zero ∨ ∃ n : Literal, n.text ∈ d.leaves ∧ x = Constant.ofNumeral n.toNumeral := by
  induction reading with
  | empty => exact List.forall_mem_singleton.mpr (.inl rfl)
  | literal n => exact List.forall_mem_singleton.mpr (.inr ⟨n,List.mem_cons_self,rfl⟩)
  | bracketed plainBefore plainAfter inner digit body ih => exact ih
  | split outer digit first second ih ih' =>
    refine List.forall_mem_append.mpr ⟨?_,?_⟩
    · intro x member
      exact (ih x member).imp_right fun ⟨n,leaf,same⟩ => ⟨n,List.mem_append_left _ leaf,same⟩
    · intro x member
      exact (ih' x member).imp_right fun ⟨n,leaf,same⟩ => ⟨n,List.mem_append_right _ leaf,same⟩

end Accepted

-- A minus never becomes the sign of a constant.
theorem parse_constants {α : Type} [Scalar α] (s : List Char) :
    (∀ text ∈ (dissect (Text.removeBlanks s)).leaves,
      ∀ n, Numeral.ofChars? text = some n → n.negative = false ∧ Plain text) ∧
    ∀ tree : Tree α, parse α s = .ok tree →
      (∀ text ∈ (dissect (Text.removeBlanks s)).leaves, (Numeral.ofChars? text).isSome = true) ∧
      (∀ x ∈ tree.constants, x = Constant.zero ∨
        ∃ n : Literal, n.text ∈ (dissect (Text.removeBlanks s)).leaves ∧ x = Constant.ofNumeral n.toNumeral) ∧
      ∀ x ∈ tree.constants, Scalar.isNaN x = false ∧ Scalar.isNegative x = false := by
  constructor
  · intro text member n converted
    obtain ⟨literal,rfl,rfl⟩ := (leaf_sound _ text member).literal converted
    exact ⟨literal.unsigned,literal.plain⟩
  · intro tree accepted
    have reading := parse_reading.mp accepted
    refine ⟨reading.converted,reading.origin,?_⟩
    intro x member
    obtain ⟨number,positive⟩ := reading.unsigned x member
    exact ⟨number,positive⟩

theorem parse_constants_hidden : ∃ tree : Tree Float,
    parse Float ['3','(','-','(','1','e','4','0','0',')',')'] = .ok tree ∧
    (dissect (Text.removeBlanks ['3','(','-','(','1','e','4','0','0',')',')'])).leaves = [['3'],['1','e','4','0','0']] ∧
    Plain ['1','e','4','0','0'] ∧ tree.constants.map Scalar.word = [0x4008000000000000,0x7FF0000000000000] ∧
    ∀ x ∈ tree.constants, Scalar.isNaN x = false ∧ Scalar.isNegative x = false := by
  have operands : parse Operand ['3','(','-','(','1','e','4','0','0',')',')'] = .ok (.binary .sub
      (.const (.ofDigit 3)) (.const (.written ⟨false,[1],none,some ⟨false,[4,0,0],by decide⟩,by decide⟩))) := by cbv
  have leaves : (dissect (Text.removeBlanks ['3','(','-','(','1','e','4','0','0',')',')'])).leaves =
      [['3'],['1','e','4','0','0']] := by cbv
  have read := parse_operands Float ['3','(','-','(','1','e','4','0','0',')',')']
  rw [operands] at read
  obtain ⟨plain,accepted⟩ := parse_constants (α := Float) ['3','(','-','(','1','e','4','0','0',')',')']
  rw [leaves] at plain
  refine ⟨_,read,leaves,(plain _ (List.mem_cons_of_mem _ List.mem_cons_self) _ rfl).2,?_,(accepted _ read).2.2⟩
  decide +kernel

end Reckon
