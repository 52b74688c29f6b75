import Reckon.Expression
import Reckon.Proofs.Canonical

namespace Reckon

-- A text and a tree that were never read together are no handle.
abbrev Handle (α : Type) [Constant α] := {e : Expression α // ∃ s, Expression.read α s = .ok e}

namespace Expression

section Stored
variable {α : Type} [Constant α]

theorem read_exact {s : List Char} {e : Expression α} : read α s = .ok e ↔ e.text = s ∧ parse α s = .ok e.root := by
  unfold read
  cases parse α s with
  | error fault => simp [Except.map]
  | ok root =>
    obtain ⟨text,_⟩ := e
    simp [Except.map,eq_comm]

theorem read_text {s : List Char} {e : Expression α} (made : read α s = .ok e) : read α e.text = .ok e := by
  rw [(read_exact.mp made).1]
  exact made

theorem load_exact {stored : Stored} {e : Expression α} :
    load α stored = .ok e ↔ stored = e.store ∧ read α e.text = .ok e := by
  cases stored with
  | text s =>
    have same : load α (.text s) = .ok e ↔ read α s = .ok e := by
      rw [load]
      cases read α s <;> simp [Except.mapError]
    rw [same]
    apply Iff.intro
    · intro made
      exact ⟨congrArg Stored.text (read_exact.mp made).1.symm,read_text made⟩
    · intro given
      obtain ⟨kept,made⟩ := given
      rw [Stored.text.inj kept]
      exact made
  | null | boolean _ | integer _ | floating _ | sequence | mapping => simp [load,store]

theorem read_operands (α : Type) [Constant α] (s : List Char) :
    read α s = (parse Operand s).map fun t => ⟨s,t.map Operand.value⟩ := by
  rw [read,parse_operands]
  cases parse Operand s <;> rfl

theorem load_refused {s : List Char} {fault : ParseError} (refused : read α s = .error fault) :
    load α (.text s) = .error (.unreadable fault) := by
  rw [load,refused]
  rfl

end Stored

section Equality
variable {α : Type} [Scalar α]

theorem root_equal (e f : Handle α) : e.val.root.equal f.val.root = true ↔ e.val.root = f.val.root := by
  obtain ⟨e,s,made⟩ := e
  obtain ⟨f,t,made'⟩ := f
  have read := parse_reading.mp (read_exact.mp made).2
  have read' := parse_reading.mp (read_exact.mp made').2
  exact Tree.equal_exact read.unsigned read'.unsigned

theorem equal_text (e f : Handle α) : e.val.equal f.val = true ↔ e.val.text = f.val.text := by
  have roots := root_equal e f
  obtain ⟨e,s,made⟩ := e
  obtain ⟨f,t,made'⟩ := f
  simp only [equal,Bool.and_eq_true,decide_eq_true_eq]
  apply Iff.intro
  · intro given
    exact given.1
  · intro same
    have again := read_text made
    rw [same,read_text made'] at again
    obtain rfl := Except.ok.inj again
    exact ⟨rfl,roots.mpr rfl⟩

theorem equal_equivalence : Equivalence fun e f : Handle α => e.val.equal f.val = true where
  refl e := (equal_text e e).mpr rfl
  symm {e f} same := (equal_text f e).mpr ((equal_text e f).mp same).symm
  trans {e f g} left right := (equal_text e g).mpr (((equal_text e f).mp left).trans ((equal_text f g).mp right))

end Equality

-- Equality compares trees by value, and read trees that are equal by value are the same.
theorem read_stored (α : Type) [Scalar α] :
    (∀ s : List Char,
      ((∃ e, read α s = .ok e) ↔ (∃ e : Expression α, ofText s = .ok e) ∧ ∃ e, load α (.text s) = .ok e) ∧
      ∀ fault, read α s = .error fault → ∃ failure, load α (.text s) = .error failure ∧
        ∀ refusal, failure.message refusal = "Parse error - ".toList ++ fault.message) ∧
    (∀ (s : List Char) (e : Expression α), read α s = .ok e →
      e.text = s ∧ load α e.store = .ok e ∧ ofText e.text = .ok e ∧ e.equal e = true) ∧
    (Equivalence fun e f : Handle α => e.val.equal f.val = true) ∧
    ∀ e f : Handle α, (e.val.equal f.val = true ↔ e.val.text = f.val.text) ∧
      (e.val.root.equal f.val.root = true → e.val.root = f.val.root ∧ e.val.eval = f.val.eval) := by
  refine ⟨?_,?_,equal_equivalence,?_⟩
  · intro s
    refine ⟨?_,fun fault refused => ⟨_,load_refused refused,fun _ => rfl⟩⟩
    apply Iff.intro
    · intro given
      obtain ⟨e,made⟩ := given
      have kept : Stored.text s = e.store := congrArg Stored.text (read_exact.mp made).1.symm
      exact ⟨⟨e,made⟩,e,load_exact.mpr ⟨kept,read_text made⟩⟩
    · intro given
      exact given.1
  · intro s e made
    have back := read_text made
    exact ⟨(read_exact.mp made).1,load_exact.mpr ⟨rfl,back⟩,back,equal_equivalence.refl ⟨e,s,made⟩⟩
  · intro e f
    refine ⟨equal_text e f,?_⟩
    intro same
    have roots := (root_equal e f).mp same
    exact ⟨roots,congrArg Tree.eval roots⟩

theorem read_stored_overflow : ∃ e f : Expression Float,
    (read Float ['-','1','e','4','0','0'] = .ok e ∧ load Float e.store = .ok e ∧ e.equal e = true) ∧
    read Float ['-',' ','9','E','9','9','9'] = .ok f ∧ e.equal f = false ∧ e.root.equal f.root = true ∧ e.eval = f.eval ∧
    ∃ failure, load Float (.text ['2','a']) = .error failure ∧ ∀ refusal, failure.message refusal =
      "Parse error - ".toList ++ "invalid syntax, cannot parse '2a' as a number".toList := by
  obtain ⟨readable,handled,_,compared⟩ := read_stored Float
  have operands : parse Operand ['-','1','e','4','0','0'] = .ok (.binary .sub (.const .missing)
      (.const (.written ⟨false,[1],none,some ⟨false,[4,0,0],by decide⟩,by decide⟩))) := by cbv
  have operands' : parse Operand ['-',' ','9','E','9','9','9'] = .ok (.binary .sub (.const .missing)
      (.const (.written ⟨false,[9],none,some ⟨true,[9,9,9],by decide⟩,by decide⟩))) := by cbv
  have refused : parse Operand ['2','a'] = .error (.invalidLiteral ['2','a']) := by cbv
  have made := read_operands Float ['-','1','e','4','0','0']
  have made' := read_operands Float ['-',' ','9','E','9','9','9']
  have fault := read_operands Float ['2','a']
  rw [operands] at made
  rw [operands'] at made'
  rw [refused] at fault
  obtain ⟨_,loaded,_,itself⟩ := handled _ _ made
  obtain ⟨texts,roots⟩ := compared ⟨_,_,made⟩ ⟨_,_,made'⟩
  refine ⟨_,_,⟨made,loaded,itself⟩,made',?_,?same,(roots ?same).2,(readable _).2 _ fault⟩
  · have apart : ['-','1','e','4','0','0'] ≠ ['-',' ','9','E','9','9','9'] := by decide
    exact Bool.eq_false_iff.mpr fun equal => apart (texts.mp equal)
  case same => decide +kernel

end Expression
end Reckon
