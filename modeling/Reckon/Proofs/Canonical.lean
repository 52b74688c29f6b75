import Reckon.Proofs.Constants
import Reckon.Proofs.Derivation

namespace Reckon
variable {α : Type} [Scalar α]

namespace Tree

theorem textOnto_append (t : Tree α) (after : List Char) : t.textOnto after = t.text ++ after := by
  unfold text
  induction t generalizing after with
  | const x => simp [textOnto]
  | binary op left right ih ih' =>
    simp only [textOnto]
    rw [ih,ih',ih (_ :: _),ih' [_]]
    simp

theorem text_binary (op : Operator) (left right : Tree α) : (binary op left right).text =
    '(' :: (left.text ++ ' ' :: op.symbol :: ' ' :: (right.text ++ [')'])) := by
  rw [text,textOnto,textOnto_append,textOnto_append]

theorem clear_binary (op : Operator) (left right : Tree α) : Text.removeBlanks (binary op left right).text =
    '(' :: ((Text.removeBlanks left.text ++ op.symbol :: Text.removeBlanks right.text) ++ [')']) := by
  have blank : Text.isBlank ' ' = true := by decide
  have symbol : Text.isBlank op.symbol = false := by cases op <;> decide
  have opening : Text.isBlank '(' = false := by decide
  have closing : Text.isBlank ')' = false := by decide
  rw [text_binary]
  simp [Text.removeBlanks,blank,symbol,opening,closing]

theorem spelled {t : Tree α} (unsigned : ∀ x ∈ t.constants, Scalar.Unsigned x) :
    ∃ d : Derivation, d.WellFormed ∧ d.hasLiteral = true ∧ d.root? = none ∧
      d.text = Text.removeBlanks t.text ∧ d.tree α = t := by
  induction t with
  | const x =>
    obtain ⟨n,written,value⟩ := (unsigned x List.mem_cons_self).literal
    have text : (const x : Tree α).text = n.text := by simp [text,textOnto,written]
    refine ⟨.literal n,trivial,rfl,rfl,?_,congrArg const value⟩
    rw [text,Text.removeBlanks_clear n.blankless]
    rfl
  | binary op left right ih ih' =>
    obtain ⟨first,second⟩ := List.forall_mem_append.mp unsigned
    obtain ⟨d,valid,literal,bare,written,rfl⟩ := ih first
    obtain ⟨e,valid',literal',bare',written',rfl⟩ := ih' second
    refine ⟨.bracketed (.binary op d e),⟨?_,?_,?_,?_,valid,valid'⟩,?_,rfl,?_,rfl⟩
    · simp [Derivation.hasLiteral,literal]
    · simp [literal]
    · simp [bare]
    · simp [bare']
    · simp [Derivation.hasLiteral,literal]
    · rw [clear_binary,← written,← written']
      rfl

theorem parse_text {t : Tree α} (unsigned : ∀ x ∈ t.constants, Scalar.Unsigned x) : parse α t.text = .ok t := by
  obtain ⟨d,valid,_,_,written,rfl⟩ := spelled unsigned
  obtain ⟨e,reading⟩ := d.reading (α := α) valid
  rw [written] at reading
  obtain ⟨same,accepted⟩ := reading_complete reading
  rw [parse,same]
  exact accepted

theorem equal_exact {t u : Tree α} (left : ∀ x ∈ t.constants, Scalar.Unsigned x)
    (right : ∀ x ∈ u.constants, Scalar.Unsigned x) : t.equal u = true ↔ t = u := by
  induction t generalizing u with
  | const x =>
    cases u with
    | const y => simp [equal,(left x List.mem_cons_self).equal (right y List.mem_cons_self)]
    | binary op first second => simp [equal]
  | binary op first second ih ih' =>
    cases u with
    | const y => simp [equal]
    | binary op' first' second' =>
      obtain ⟨leftFirst,leftSecond⟩ := List.forall_mem_append.mp left
      obtain ⟨rightFirst,rightSecond⟩ := List.forall_mem_append.mp right
      simp [equal,ih leftFirst rightFirst,ih' leftSecond rightSecond,and_assoc]

end Tree

theorem Reading.unsigned {s : List Char} {d : Dissection} {t : Tree α} (reading : Reading α s d t) :
    ∀ x ∈ t.constants, Scalar.Unsigned x := by
  induction reading with
  | empty => simpa [Tree.constants] using Scalar.unsigned_zero
  | literal n => simpa [Tree.constants] using Scalar.unsigned_literal n
  | bracketed plainBefore plainAfter inner digit body ih => exact ih
  | split outer digit first second ih ih' => exact List.forall_mem_append.mpr ⟨ih,ih'⟩

-- The canonical text of a read tree is read as that tree again.
theorem parse_canonical {s : List Char} {tree : Tree α} (accepted : parse α s = .ok tree) :
    parse α tree.text = .ok tree ∧ ∀ (other : List Char) (u : Tree α), parse α other = .ok u →
      (tree.equal u = true ↔ tree.text = u.text) := by
  have unsigned := (parse_reading.mp accepted).unsigned
  refine ⟨Tree.parse_text unsigned,?_⟩
  intro other u accepted'
  have unsigned' := (parse_reading.mp accepted').unsigned
  rw [Tree.equal_exact unsigned unsigned']
  apply Iff.intro
  · rintro rfl
    rfl
  · intro same
    have read := Tree.parse_text unsigned
    rw [same,Tree.parse_text unsigned'] at read
    exact (Except.ok.inj read).symm

theorem parse_canonical_overflow : ∃ tree other : Tree Float,
    parse Float ['2','/','-','1','e','4','0','0'] = .ok tree ∧
    parse Float ['(','2','.','/','0',')','-','9','E','9','9','9'] = .ok other ∧
    parse Float tree.text = .ok tree ∧ (tree.equal other = true ↔ tree.text = other.text) := by
  have valued {s : List Char} {t : Tree Operand} (read : parse Operand s = .ok t) :
      parse Float s = .ok (t.map Operand.value) := by
    rw [parse_operands,read]
    rfl
  have operands : parse Operand ['2','/','-','1','e','4','0','0'] = .ok (.binary .sub
      (.binary .div (.const (.ofDigit 2)) (.const .missing))
      (.const (.written ⟨false,[1],none,some ⟨false,[4,0,0],by decide⟩,by decide⟩))) := by cbv
  have operands' : parse Operand ['(','2','.','/','0',')','-','9','E','9','9','9'] = .ok (.binary .sub
      (.binary .div (.const (.written ⟨false,[2],some [],none,by decide⟩)) (.const (.ofDigit 0)))
      (.const (.written ⟨false,[9],none,some ⟨true,[9,9,9],by decide⟩,by decide⟩))) := by cbv
  obtain ⟨back,equal⟩ := parse_canonical (valued operands)
  exact ⟨_,_,valued operands,valued operands',back,equal _ _ (valued operands')⟩

end Reckon
