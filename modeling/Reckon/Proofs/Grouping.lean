import Reckon.Proofs.Reading

namespace Reckon
variable {α β : Type}

-- The marks of a text are the operators of a tree from left to right, with the least of them at
-- the root of each subtree.
inductive MinimumFirst : List Mark → Tree α → Prop where
  | const (x : α) : MinimumFirst [] (.const x)
  | binary {left right : List Mark} {root : Mark} {t u : Tree α} (first : MinimumFirst left t)
      (second : MinimumFirst right u) (least : ∀ mark ∈ left ++ right, root.key < mark.key) :
      MinimumFirst (left ++ root :: right) (.binary root.cut.op t u)

namespace MinimumFirst

theorem operators {ms : List Mark} {t : Tree α} (minimal : MinimumFirst ms t) :
    t.operators = ms.map fun mark => mark.cut.op := by
  induction minimal with
  | const x => rfl
  | binary first second least ih ih' => simp [Tree.operators,ih,ih']

theorem shift {ms : List Mark} {t : Tree α} (deeper : Int) (further : Nat) (minimal : MinimumFirst ms t) :
    MinimumFirst (ms.map (Mark.shift deeper further)) t := by
  induction minimal with
  | const x => exact .const x
  | @binary left right root t u first second least ih ih' =>
    rw [List.map_append,List.map_cons]
    refine .binary ih ih' ?_
    intro moved member
    rw [← List.map_append] at member
    obtain ⟨mark,present,rfl⟩ := List.mem_map.mp member
    exact Mark.shift_lt.mpr (least mark present)

theorem unique {ms : List Mark} {t : Tree α} {u : Tree β} (minimal : MinimumFirst ms t)
    (other : MinimumFirst ms u) : t.map (fun _ => ()) = u.map (fun _ => ()) := by
  induction minimal generalizing u with
  | const x =>
    generalize none : ([] : List Mark) = ms at other
    cases other with
    | const y => rfl
    | binary first second least => cases List.append_ne_nil_of_right_ne_nil _ (List.cons_ne_nil _ _) none.symm
  | @binary left right root t u' first second least ih ih' =>
    generalize parts : left ++ root :: right = ms at other
    cases other with
    | const y => cases List.append_ne_nil_of_right_ne_nil _ (List.cons_ne_nil _ _) parts
    | @binary left' right' root' v w first' second' least' =>
      -- Two roots that are each below everything else are the same.
      have absent : root' ∉ left ++ right := by
        intro member
        have below := least root' member
        have present : root ∈ left' ++ root' :: right' := parts ▸ List.mem_append_right _ List.mem_cons_self
        rcases List.mem_append.mp present with earlier | here
        · exact lt_asymm below (least' root (List.mem_append_left _ earlier))
        · rcases List.mem_cons.mp here with rfl | later
          · exact lt_irrefl _ below
          · exact lt_asymm below (least' root (List.mem_append_right _ later))
      rw [List.mem_append,not_or] at absent
      obtain ⟨rfl,rfl,rfl⟩ := (List.append_cons_inj_of_notMem absent.1 absent.2).mp parts
      simp [Tree.map,ih first',ih' second']

end MinimumFirst

section Accepted
variable [Constant α]

theorem outermost_minimum {left right : List Char} {op : Operator} (balanced : Balanced (left ++ op.symbol :: right))
    (flat : net left = 0) (outer : outermost? (left ++ op.symbol :: right) = some ⟨left.length,op⟩) :
    ∀ mark ∈ marks left ++ (marks right).map (Mark.shift 0 (left.length + 1)),
      Mark.key ⟨0,⟨left.length,op⟩⟩ < mark.key := by
  intro mark member
  have elsewhere : mark.cut.point ≠ left.length := by
    rcases List.mem_append.mp member with earlier | later
    · obtain ⟨front,x,back,rfl,_,_,point⟩ := mem_marks.mp earlier
      simp only [point,List.length_append,List.length_cons]
      omega
    · obtain ⟨mark,_,rfl⟩ := List.mem_map.mp later
      simp only [Mark.shift]
      omega
  have present : mark ∈ marks (left ++ op.symbol :: right) := by
    rw [marks_operator flat (glyph_symbol op)]
    rcases List.mem_append.mp member with earlier | later
    · exact List.mem_append_left _ earlier
    · exact List.mem_append_right _ (List.mem_cons_of_mem _ later)
  apply Prod.Lex.toLex_lt_toLex.mpr
  have low := marks_nonnegative balanced present
  by_cases level : mark.depth = 0
  · obtain ⟨_,cut⟩ := mark
    obtain rfl : _ = 0 := level
    have least := outermost_least outer (cut_marked.mpr present)
    refine .inr ⟨rfl,lt_of_le_of_ne least ?_⟩
    intro same
    exact elsewhere (congrArg Cut.point (Cut.key_injective same)).symm
  · exact .inl (by dsimp only; omega)

theorem Reading.grouped {s : List Char} {d : Dissection} {t : Tree α} (reading : Reading α s d t) :
    MinimumFirst (marks s) t := by
  induction reading with
  | empty => exact .const _
  | literal n =>
    have bare : marks n.text = [] := marksFrom_plain 0 0 n.plain
    rw [bare]
    exact .const _
  | bracketed plainBefore plainAfter inner digit body ih =>
    rw [marks_bracketed plainBefore plainAfter rfl rfl]
    exact ih.shift 1 1
  | @split left right op d e t u outer digit first second ih ih' =>
    have balanced := first.balanced.operator (glyph_symbol op) second.balanced
    rw [marks_operator first.balanced.flat (glyph_symbol op)]
    exact .binary ih (ih'.shift 0 _) (outermost_minimum balanced first.balanced.flat outer)

-- The least operator is that by depth of brackets, then by binding, then by direction.
theorem parse_grouping {s : List Char} {tree : Tree α} (accepted : parse α s = .ok tree) :
    tree.operators = (marks (Text.removeBlanks s)).map (fun mark => mark.cut.op) ∧
    MinimumFirst (marks (Text.removeBlanks s)) tree ∧
    ∀ other : Tree α, MinimumFirst (marks (Text.removeBlanks s)) other →
      other.map (fun _ => ()) = tree.map (fun _ => ()) := by
  have grouped := (parse_reading.mp accepted).grouped
  exact ⟨grouped.operators,grouped,fun other minimal => minimal.unique grouped⟩

theorem parse_grouping_difference :
    parse Operand ['5','-','4','-','(','3','+','2',')'] = .ok (.binary .sub
      (.binary .sub (.const (.ofDigit 5)) (.const (.ofDigit 4)))
      (.binary .add (.const (.ofDigit 3)) (.const (.ofDigit 2)))) ∧
    MinimumFirst [⟨0,⟨1,.sub⟩⟩,⟨0,⟨3,.sub⟩⟩,⟨1,⟨6,.add⟩⟩] (.binary .sub
      (.binary .sub (.const (Operand.ofDigit 5)) (.const (.ofDigit 4)))
      (.binary .add (.const (.ofDigit 3)) (.const (.ofDigit 2)))) := by
  have accepted : parse Operand ['5','-','4','-','(','3','+','2',')'] = .ok (.binary .sub
      (.binary .sub (.const (.ofDigit 5)) (.const (.ofDigit 4)))
      (.binary .add (.const (.ofDigit 3)) (.const (.ofDigit 2)))) := by cbv
  have marked : marks (Text.removeBlanks ['5','-','4','-','(','3','+','2',')']) =
      [⟨0,⟨1,.sub⟩⟩,⟨0,⟨3,.sub⟩⟩,⟨1,⟨6,.add⟩⟩] := by decide
  exact ⟨accepted,marked ▸ (parse_grouping accepted).2.1⟩

end Accepted
end Reckon
