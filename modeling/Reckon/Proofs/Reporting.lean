import Reckon.Report
import Reckon.Proofs.Segments

namespace Reckon

namespace Event

def operator? : Event → Option Operator
  | splitting _ _ op => some op
  | stripping .. => none
  | evaluated .. => none

def isStripping : Event → Bool
  | splitting .. => false
  | stripping .. => true
  | evaluated .. => false

theorem steps_length {steps : List Event} (trace : ∀ event ∈ steps, event.level = .trace) :
    steps.length = (steps.filterMap operator?).length + steps.countP isStripping := by
  induction steps with
  | nil => rfl
  | cons event rest ih =>
    obtain ⟨here,later⟩ := List.forall_mem_cons.mp trace
    have known := ih later
    rw [List.length_cons,List.filterMap_cons,List.countP_cons,known]
    cases event with
    | splitting text position op => exact Nat.add_right_comm ..
    | stripping before after => rfl
    | evaluated text value => cases here

end Event

def Tree.preorder {α : Type} : Tree α → List Operator
  | const _ => []
  | binary op left right => op :: (left.preorder ++ right.preorder)

theorem Tree.preorder_length {α : Type} (t : Tree α) : t.preorder.length = t.operators.length := by
  induction t with
  | const x => rfl
  | binary op left right ih ih' =>
    simp only [preorder,operators,List.length_cons,List.length_append,ih,ih']
    omega

theorem openings_count (s : List Char) : openings s = s.count '(' := by
  refine List.countP_congr fun c _ => ?_
  simp [glyph_opening]

section Parts
variable (before inside after left right : List Char) (op : Operator)

theorem openings_bracketed :
    openings (before ++ '(' :: (inside ++ ')' :: after)) = openings (before ++ (inside ++ after)) + 1 := by
  simp only [openings_count,List.count_append,List.count_cons]
  simp
  omega

theorem openings_operator : openings (left ++ op.symbol :: right) = openings left + openings right := by
  have unmarked : glyph op.symbol ≠ .opening := by simp [glyph_symbol]
  simp [openings,unmarked]

theorem countOperators_bracketed : (before ++ '(' :: (inside ++ ')' :: after)).countP isOperator =
    (before ++ (inside ++ after)).countP isOperator := by
  have opening : isOperator '(' = false := rfl
  have closing : isOperator ')' = false := rfl
  simp [opening,closing]

theorem countOperators_operator :
    (left ++ op.symbol :: right).countP isOperator = left.countP isOperator + right.countP isOperator + 1 := by
  simp [isOperator_symbol]
  omega

end Parts

namespace Dissection

theorem events_trace (d : Dissection) (s : List Char) : ∀ event ∈ d.events s, event.level = .trace := by
  induction d generalizing s with
  | empty => exact List.forall_mem_nil _
  | digitless => exact List.forall_mem_nil _
  | leaf text => exact List.forall_mem_nil _
  | stripped pair inner ih => exact List.forall_mem_cons.mpr ⟨rfl,ih _⟩
  | split cut left right ih ih' =>
    refine List.forall_mem_cons.mpr ⟨rfl,List.forall_mem_append.mpr ⟨ih _,?_⟩⟩
    split
    · exact ih' _
    · exact List.forall_mem_nil _

theorem succeeds_read {α : Type} [Constant α] {d : Dissection} {t : Tree α} (read : d.tree α = .ok t) : d.succeeds = true := by
  induction d generalizing t with
  | empty => rfl
  | digitless => cases read
  | leaf text =>
    rw [tree,readLeaf] at read
    split at read
    · rename_i found
      rw [succeeds,found]
      rfl
    · cases read
  | stripped pair inner ih => exact ih read
  | split cut left right ih ih' =>
    obtain ⟨t,u,first,second,_⟩ := tree_split read
    rw [succeeds,ih first,ih' second]
    rfl

end Dissection

theorem events_split (left right : List Char) (op : Operator) (d e : Dissection) :
    (Dissection.split ⟨left.length,op⟩ d e).events (left ++ op.symbol :: right) =
      .splitting (left ++ op.symbol :: right) (Text.byteLength left) op ::
        (d.events left ++ if d.succeeds then e.events right else []) := by
  have front : (left ++ op.symbol :: right).take left.length = left := List.take_left
  have back : (left ++ op.symbol :: right).drop (left.length + 1) = right := by simp
  rw [Dissection.events,front,back]

theorem Reading.events {α : Type} [Constant α] {s : List Char} {d : Dissection} {t : Tree α} (reading : Reading α s d t) :
    (d.events s).filterMap Event.operator? = t.preorder ∧ (d.events s).countP Event.isStripping = openings s := by
  induction reading with
  | empty => exact ⟨rfl,rfl⟩
  | literal n => exact ⟨rfl,(openings_plain n.plain).symm⟩
  | @bracketed before inside after d t plainBefore plainAfter inner digit body ih =>
    obtain ⟨operations,pairs⟩ := ih
    rw [Dissection.events,strip_parts,openings_bracketed,← pairs]
    exact ⟨operations,List.countP_cons_of_pos rfl⟩
  | @split left right op d e t u outer digit first second ih ih' =>
    obtain ⟨operations,pairs⟩ := ih
    obtain ⟨operations',pairs'⟩ := ih'
    have succeeds : d.succeeds = true := Dissection.succeeds_read (reading_complete first).2
    rw [events_split,if_pos succeeds,openings_operator]
    simp [Event.operator?,Event.isStripping,Tree.preorder,operations,operations',pairs,pairs']

theorem events_bounded (s : List Char) :
    (((dissect s).events s).filterMap Event.operator?).length ≤ s.countP isOperator ∧
      ((dissect s).events s).countP Event.isStripping ≤ openings s := by
  induction s using dissect_parts with
  | nil step =>
    rw [step]
    exact ⟨Nat.zero_le _,Nat.zero_le _⟩
  | digitless s _ _ step =>
    rw [step]
    exact ⟨Nat.zero_le _,Nat.zero_le _⟩
  | leaf s _ _ _ step =>
    rw [step]
    exact ⟨Nat.zero_le _,Nat.zero_le _⟩
  | stripped before inside after step ih =>
    obtain ⟨operations,pairs⟩ := ih
    rw [step,Dissection.events,strip_parts,countOperators_bracketed,openings_bracketed]
    refine ⟨operations,?_⟩
    rw [List.countP_cons_of_pos rfl]
    omega
  | split left op right step ih ih' =>
    obtain ⟨operations,pairs⟩ := ih
    obtain ⟨operations',pairs'⟩ := ih'
    rw [step,events_split,countOperators_operator,openings_operator]
    -- After a fault on the left nothing is reported of the right part.
    split <;> simp [Event.operator?,Event.isStripping] <;> omega

theorem evaluate_read {s : List Char} {value : Float} (evaluated : evaluate s = .ok value) :
    ∃ tree : Tree Float, parse Float s = .ok tree ∧ tree.eval = value := by
  unfold evaluate at evaluated
  cases read : parse Float s with
  | error fault =>
    rw [read] at evaluated
    cases evaluated
  | ok tree =>
    rw [read] at evaluated
    exact ⟨tree,rfl,Except.ok.inj evaluated⟩

end Reckon
