import Reckon.Proofs.Canonical
import Reckon.Proofs.Segments
import Reckon.Proofs.Words

namespace Reckon
variable {α : Type} [Scalar α]

namespace Tree

theorem clear_number {x : α} (number : Scalar.isNaN x = false) : ∃ n : Literal,
    Text.removeBlanks (const x).text = if Scalar.isNegative x then [] ++ Operator.sub.symbol :: n.text else n.text := by
  obtain ⟨n,written,_⟩ := (Scalar.unsigned_absolute number).literal
  have text : (const x).text = Scalar.signText x ++ n.text := by
    simp [text,textOnto,Scalar.constantText_sign number,written]
  refine ⟨n,?_⟩
  rw [text,Text.removeBlanks_clear (List.forall_mem_append.mpr ⟨Scalar.signText_blankless x,n.blankless⟩),Scalar.signText]
  split <;> rfl

theorem clear_nan {x : α} (nan : Scalar.isNaN x = true) : Text.removeBlanks (const x).text = ['N','a','N'] := by
  have beyond : (Scalar.format α).infinity < Scalar.magnitude x := of_decide_eq_true nan
  have finite : Scalar.isInfinite x = false := decide_eq_false (Nat.ne_of_gt beyond)
  have text : (const x).text = ['N','a','N'] := by
    simp [text,textOnto,Scalar.constantText,Scalar.text,finite,nan]
  rw [text]
  decide

theorem worded (kind : List Char → Prop) (literal : ∀ n : Literal, kind n.text) {t : Tree α}
    (odd : ∀ x ∈ t.constants, Scalar.isNaN x = true → kind ['N','a','N']) :
    ∃ first, Worded kind first false (Text.removeBlanks t.text) := by
  induction t with
  | const x =>
    have word (n : Literal) : Worded kind false false n.text := .word (nonempty_digit n.containsDigit) n.plain (literal n)
    cases nan : Scalar.isNaN x with
    | true =>
      rw [clear_nan nan]
      exact ⟨false,.word (List.cons_ne_nil _ _) (by decide) (odd x List.mem_cons_self nan)⟩
    | false =>
      obtain ⟨n,written⟩ := clear_number nan
      rw [written]
      split
      · exact ⟨true,Worded.missing.operator rfl (word n)⟩
      · exact ⟨false,word n⟩
  | binary op left right ih ih' =>
    obtain ⟨oddLeft,oddRight⟩ := List.forall_mem_append.mp odd
    obtain ⟨_,front⟩ := ih oddLeft
    obtain ⟨_,back⟩ := ih' oddRight
    rw [clear_binary]
    exact ⟨false,.bracketed (by simp) (front.operator rfl back)⟩

theorem operatorsOf_text {t : Tree α} (numbers : ∀ x ∈ t.constants, Scalar.isNaN x = false) :
    (operatorsOf (Text.removeBlanks t.text)).length = t.operators.length + t.constants.countP Scalar.isNegative := by
  induction t with
  | const x =>
    obtain ⟨n,written⟩ := clear_number (numbers x List.mem_cons_self)
    rw [written,constants,List.countP_singleton]
    split
    · rw [operatorsOf_operator,operatorsOf_plain n.plain]
      rfl
    · rw [operatorsOf_plain n.plain]
      rfl
  | binary op left right ih ih' =>
    obtain ⟨first,second⟩ := List.forall_mem_append.mp numbers
    rw [clear_binary,operatorsOf_enclosed,operatorsOf_operator,List.length_append,List.length_cons,ih first,ih' second,
      operators,constants,List.countP_append,List.length_append,List.length_cons]
    omega

theorem segments_nan {t : Tree α} {x : α} (member : x ∈ t.constants) (nan : Scalar.isNaN x = true) :
    ['N','a','N'] ∈ segments (Text.removeBlanks t.text) := by
  induction t with
  | const y =>
    obtain rfl := List.mem_singleton.mp member
    rw [clear_nan nan,segments_plain (by decide)]
    exact List.mem_cons_self
  | binary op left right ih ih' =>
    rw [clear_binary,segments_enclosed,segments_operator]
    rcases List.mem_append.mp member with first | second
    · exact List.mem_append_left _ (ih first)
    · exact List.mem_append_right _ (ih' second)

theorem equal_nodeCount {t u : Tree α} (same : t.equal u = true) : t.nodeCount = u.nodeCount := by
  induction t generalizing u with
  | const x =>
    cases u with
    | const y => rfl
    | binary op left right => cases same
  | binary op left right ih ih' =>
    cases u with
    | const y => cases same
    | binary op' left' right' =>
      simp only [equal,Bool.and_eq_true] at same
      rw [nodeCount,nodeCount,ih same.1.2,ih' same.2]

end Tree

theorem Reading.segments_digit {s : List Char} {d : Dissection} {t : Tree α} (reading : Reading α s d t)
    {segment : List Char} (member : segment ∈ Reckon.segments s) : segment = [] ∨ Text.containsDigit segment = true := by
  obtain ⟨spelled,_⟩ := reading.segments
  obtain ⟨each,_⟩ := (List.forall₂_and_left _ _).mp (spelled.imp fun _ _ word => ⟨word.pattern,word⟩)
  rcases each segment member with rfl | literal
  · exact .inl rfl
  · obtain ⟨n,rfl⟩ := Literal.mem_pattern.mp literal
    exact .inr n.containsDigit

namespace Tree

theorem read_nan {t : Tree α} {x : α} (member : x ∈ t.constants) (nan : Scalar.isNaN x = true) :
    parse α t.text = .error .noDigit := by
  obtain ⟨_,worded⟩ := t.worded (fun word => (∃ n : Literal, n.text = word) ∨ word = ['N','a','N'])
    (fun n => .inl ⟨n,rfl⟩) (fun _ _ _ => .inr rfl)
  have known (word : List Char) (kind : (∃ n : Literal, n.text = word) ∨ word = ['N','a','N']) :
      (∃ n : Literal, n.text = word) ∨ Text.containsDigit word = false := by
    rcases kind with literal | rfl
    · exact .inl literal
    · exact .inr (by decide)
  rcases worded.read α known with ⟨r,accepted⟩ | ⟨fault,_⟩
  · rcases (reading_sound accepted).segments_digit (segments_nan member nan) with wrong | wrong
    · cases wrong
    · exact absurd wrong (by decide)
  · exact fault

theorem read_numbers {t : Tree α} (numbers : ∀ x ∈ t.constants, Scalar.isNaN x = false) :
    ∃ r, parse α t.text = .ok r ∧ r.nodeCount = t.nodeCount + 2 * t.constants.countP Scalar.isNegative := by
  obtain ⟨_,worded⟩ := t.worded (fun word => ∃ n : Literal, n.text = word) (fun n => ⟨n,rfl⟩)
    (fun x member nan => by simp [numbers x member] at nan)
  rcases worded.read α (fun _ literal => .inl literal) with ⟨r,accepted⟩ | ⟨_,_,⟨n,rfl⟩,none⟩
  · refine ⟨r,accepted,?_⟩
    rw [r.nodeCount_operators,t.nodeCount_operators,(reading_sound accepted).segments.2,operatorsOf_text numbers]
    omega
  · cases n.containsDigit.symm.trans none

end Tree

-- A constant with a sign is read as a subtraction from nothing, which may take what stands around
-- it along. So the same tree comes back only if there are no signs.
theorem parse_printed (t : Tree α) :
    ((∃ x ∈ t.constants, Scalar.isNaN x = true) → parse α t.text = .error .noDigit) ∧
    ((∀ x ∈ t.constants, Scalar.isNaN x = false) → ∃ r, parse α t.text = .ok r ∧
      r.nodeCount = t.nodeCount + 2 * t.constants.countP Scalar.isNegative ∧
      (r.equal t = true ↔ t.constants.countP Scalar.isNegative = 0) ∧
      (t.constants.countP Scalar.isNegative = 0 → r = t)) := by
  constructor
  · intro given
    obtain ⟨x,member,nan⟩ := given
    exact Tree.read_nan member nan
  · intro numbers
    obtain ⟨r,accepted,size⟩ := Tree.read_numbers numbers
    have unsigned (none : t.constants.countP Scalar.isNegative = 0) : ∀ x ∈ t.constants, Scalar.Unsigned x := by
      intro x member
      exact ⟨numbers x member,by simpa using List.countP_eq_zero.mp none x member⟩
    have same (none : t.constants.countP Scalar.isNegative = 0) : r = t :=
      Except.ok.inj (accepted.symm.trans (Tree.parse_text (unsigned none)))
    refine ⟨r,accepted,size,⟨?_,?_⟩,same⟩
    · intro equal
      have nodes := Tree.equal_nodeCount equal
      omega
    · intro none
      rw [same none]
      exact (Tree.equal_exact (unsigned none) (unsigned none)).mpr rfl

theorem parse_printed_signs : ∃ signed odd bare : Tree Float,
    signed.constants.map Scalar.word = [0x4000000000000000,0x8000000000000000,0xFFF0000000000000] ∧
    odd.constants.map Scalar.word = [0x4000000000000000,0x7FF8000000000000] ∧
    bare.constants.map Scalar.word = [0x4000000000000000,0x7FF0000000000000] ∧
    (∃ r, parse Float signed.text = .ok r ∧ r.nodeCount = signed.nodeCount + 4 ∧ r.equal signed = false) ∧
    parse Float odd.text = .error .noDigit ∧ parse Float bare.text = .ok bare := by
  have signed := (parse_printed (.binary .mul (.const (Scalar.ofWord 0x4000000000000000)) (.binary .pow
    (.const (Scalar.ofWord 0x8000000000000000)) (.const (Scalar.ofWord 0xFFF0000000000000))) : Tree Float)).2 (by decide)
  have odd := (parse_printed (.binary .sub (.const (Scalar.ofWord 0x4000000000000000))
    (.const (Scalar.ofWord 0x7FF8000000000000)) : Tree Float)).1 (by decide)
  have bare := (parse_printed (.binary .div (.const (Scalar.ofWord 0x4000000000000000))
    (.const (Scalar.ofWord 0x7FF0000000000000)) : Tree Float)).2 (by decide)
  obtain ⟨r,accepted,size,same,_⟩ := signed
  obtain ⟨u,accepted',_,_,back⟩ := bare
  rw [back (by decide)] at accepted'
  refine ⟨_,_,_,by decide,by decide,by decide,⟨r,accepted,size,?_⟩,odd,accepted'⟩
  exact Bool.eq_false_iff.mpr fun equal => absurd (same.mp equal) (by decide)

end Reckon
