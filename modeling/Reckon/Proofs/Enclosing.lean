import Reckon.Proofs.Reading

namespace Reckon
open Text

section Enclosed
variable {s : List Char}

theorem cuts_enclosed (low : NonnegativeFrom 0 s) : cuts ('(' :: (s ++ [')'])) = [] := by
  refine List.eq_nil_iff_forall_not_mem.mpr ?_
  intro cut member
  obtain ⟨front,x,back,parts,marked,flat,_⟩ := mem_cuts.mp member
  cases front with
  | nil =>
    obtain ⟨rfl,_⟩ := List.cons.inj parts
    cases marked
  | cons c front =>
    obtain ⟨rfl,later⟩ := List.cons.inj parts
    rcases append_cons_cases later with ⟨w,rfl,_⟩ | ⟨_,rfl,_⟩ | ⟨w,_,wrong⟩
    · have bound := low front (List.prefix_append front _)
      have raised : net ('(' :: front) = 1 + net front := net_cons '(' front
      omega
    · cases marked
    · cases List.append_ne_nil_of_right_ne_nil w (List.cons_ne_nil x back) wrong.symm

theorem containsDigit_enclosed (s : List Char) : containsDigit ('(' :: (s ++ [')'])) = containsDigit s := by
  simpa using containsDigit_stripped [] s []

end Enclosed

section Run
variable {α : Type} [Constant α]

theorem tree_enclosed {s : List Char} (nonempty : s ≠ []) (low : NonnegativeFrom 0 s) :
    (dissect ('(' :: (s ++ [')']))).tree α = (dissect s).tree α := by
  cases digit : containsDigit s with
  | false =>
    have none : containsDigit ('(' :: (s ++ [')'])) = false := (containsDigit_enclosed s).trans digit
    rw [dissect_digitless (List.cons_ne_nil _ _) none,dissect_digitless nonempty digit]
  | true =>
    have some : containsDigit ('(' :: (s ++ [')'])) = true := (containsDigit_enclosed s).trans digit
    rw [dissect_stripped some (outermost_none.mpr (cuts_enclosed low)) (outerPair_enclosed s rfl rfl),strip_enclosed]
    rfl

theorem outermost_enclosed {left right : List Char} (op : Operator) (balanced : Balanced left) (low : NonnegativeFrom 0 right) :
    outermost? ('(' :: (left ++ [')']) ++ op.symbol :: '(' :: (right ++ [')'])) = some ⟨left.length + 2,op⟩ := by
  have flat : net ('(' :: (left ++ [')'])) = 0 := (balanced.bracketed rfl rfl).flat
  have size : ('(' :: (left ++ [')'])).length = left.length + 2 := by simp
  have only (cut : Cut) : cut ∈ cuts ('(' :: (left ++ [')']) ++ op.symbol :: '(' :: (right ++ [')'])) ↔
      cut = ⟨left.length + 2,op⟩ := by
    rw [mem_cuts_operator flat (glyph_symbol op),cuts_enclosed balanced.low,cuts_enclosed low,size]
    simp
  refine outermost_exact.mpr ⟨(only _).mpr rfl,?_⟩
  intro other member
  rw [(only other).mp member]

theorem tree_combined {left right : List Char} (op : Operator) (first : left ≠ []) (second : right ≠ [])
    (balanced : Balanced left) (low : NonnegativeFrom 0 right) :
    (dissect ('(' :: (left ++ [')']) ++ op.symbol :: '(' :: (right ++ [')']))).tree α =
      match (dissect left).tree α,(dissect right).tree α with
      | .error fault,_ => .error fault
      | .ok _,.error fault => .error fault
      | .ok t,.ok u => .ok (.binary op t u) := by
  have total : containsDigit ('(' :: (left ++ [')']) ++ op.symbol :: '(' :: (right ++ [')'])) =
      (containsDigit left || containsDigit right) := by
    rw [containsDigit_operator,containsDigit_enclosed,containsDigit_enclosed]
  cases digit : containsDigit left || containsDigit right with
  | false =>
    have none : containsDigit left = false := (Bool.or_eq_false_iff.mp digit).1
    have whole : '(' :: (left ++ [')']) ++ op.symbol :: '(' :: (right ++ [')']) ≠ [] := by simp
    rw [dissect_digitless whole (total.trans digit),dissect_digitless first none]
    rfl
  | true =>
    have front : ('(' :: (left ++ [')']) ++ op.symbol :: '(' :: (right ++ [')'])).take (left.length + 2) =
        '(' :: (left ++ [')']) := List.take_left' (by simp)
    have back : ('(' :: (left ++ [')']) ++ op.symbol :: '(' :: (right ++ [')'])).drop (left.length + 2 + 1) =
        '(' :: (right ++ [')']) := by simp
    rw [dissect_split (total.trans digit) (outermost_enclosed op balanced low),front,back,Dissection.tree,
      tree_enclosed first balanced.low,tree_enclosed second low]
    cases (dissect left).tree α with
    | error fault => rfl
    | ok t => cases (dissect right).tree α <;> rfl

-- An inner text only must not close a bracket that it did not open, and a left one must also
-- close those that it did.
theorem parse_enclosed :
    (∀ s : List Char, (∃ c ∈ s, isBlank c = false) → Nonnegative s → parse α ('(' :: (s ++ [')'])) = parse α s) ∧
    ∀ (op : Operator) (left right : List Char), (∃ c ∈ left, isBlank c = false) → (∃ c ∈ right, isBlank c = false) →
      Balanced left → Nonnegative right → parse α ('(' :: (left ++ [')']) ++ op.symbol :: '(' :: (right ++ [')'])) =
        match parse α left,parse α right with
        | .error fault,_ => .error fault
        | .ok _,.error fault => .error fault
        | .ok t,.ok u => .ok (.binary op t u) := by
  constructor
  · intro s visible low
    rw [parse,removeBlanks_enclosed]
    exact tree_enclosed (removeBlanks_nonempty visible) (nonnegative_exact.mp low).removeBlanks
  · intro op left right visible visible' balanced low
    rw [parse,removeBlanks_operator,removeBlanks_enclosed,removeBlanks_enclosed]
    exact tree_combined op (removeBlanks_nonempty visible) (removeBlanks_nonempty visible') balanced.removeBlanks
      (nonnegative_exact.mp low).removeBlanks

theorem parse_enclosed_open :
    parse Operand ['(','(','1',' ',')'] = .error (.invalidLiteral ['(','1']) ∧
    parse Operand ['(','2','-','3',')','*','(','4',')'] = .ok (.binary .mul
      (.binary .sub (.const (.ofDigit 2)) (.const (.ofDigit 3))) (.const (.ofDigit 4))) ∧
    parse Operand ['(','2','-','3',')','*','(','(','1',' ',')'] = .error (.invalidLiteral ['(','1']) := by
  have first : parse Operand ['2','-','3'] = .ok (.binary .sub (.const (.ofDigit 2)) (.const (.ofDigit 3))) := by cbv
  have second : parse Operand ['4'] = .ok (.const (.ofDigit 4)) := by cbv
  have refused : parse Operand ['(','1',' '] = .error (.invalidLiteral ['(','1']) := by cbv
  obtain ⟨same,combined⟩ := parse_enclosed (α := Operand)
  refine ⟨?_,?_,?_⟩
  · exact (same ['(','1',' '] ⟨'(',by decide⟩ (by decide)).trans refused
  · have whole := combined .mul ['2','-','3'] ['4'] ⟨'2',by decide⟩ ⟨'4',by decide⟩ (by decide) (by decide)
    rw [first,second] at whole
    exact whole
  · have whole := combined .mul ['2','-','3'] ['(','1',' '] ⟨'2',by decide⟩ ⟨'(',by decide⟩ (by decide) (by decide)
    rw [first,refused] at whole
    exact whole

end Run
end Reckon
