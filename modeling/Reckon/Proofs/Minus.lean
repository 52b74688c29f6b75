import Reckon.Proofs.Derivation

namespace Reckon

def Operator.isSign (op : Operator) : Bool := op = .add || op = .sub

-- The whole text if no plus or minus is outside all brackets.
def firstTerm (s : List Char) : List Char :=
  match (cuts s).find? fun cut => cut.op.isSign with
  | some cut => s.take cut.point
  | none => s

def SingleTerm (s : List Char) : Prop := ∀ cut ∈ cuts s, cut.op.isSign = false

def Dissection.isSum : Dissection → Bool
  | split cut _ _ => cut.op.isSign
  | _ => false

-- The first term is reached by going to the left through all additions and subtractions that no
-- brackets are around.
inductive Exchanged {α : Type} (term other : Tree α) : Dissection → Tree α → Tree α → Prop where
  | here {d : Dissection} (single : d.isSum = false) : Exchanged term other d term other
  | left {cut : Cut} {left right : Dissection} {t t' u : Tree α} (sum : (Dissection.split cut left right).isSum = true)
      (inner : Exchanged term other left t t') :
      Exchanged term other (.split cut left right) (.binary cut.op t u) (.binary cut.op t' u)

section Cuts
variable {s : List Char} {cut other : Cut}

theorem mem_cuts_minus : other ∈ cuts ('-' :: s) ↔ other = ⟨0,.sub⟩ ∨ ∃ later ∈ cuts s, other = ⟨later.point + 1,later.op⟩ := by
  have front : '-' :: s = [] ++ Operator.sub.symbol :: s := rfl
  have none : cuts ([] : List Char) = [] := rfl
  rw [front,mem_cuts_operator net_nil (glyph_symbol .sub),none]
  simp

theorem outermost_minus (outer : outermost? s = some cut) (sign : cut.op.isSign = true) :
    outermost? ('-' :: s) = some ⟨cut.point + 1,cut.op⟩ := by
  obtain ⟨member,least⟩ := outermost_exact.mp outer
  refine outermost_exact.mpr ⟨mem_cuts_minus.mpr (.inr ⟨cut,member,rfl⟩),?_⟩
  intro other present
  rcases mem_cuts_minus.mp present with rfl | ⟨later,behind,rfl⟩
  · refine (Cut.key_left (Nat.succ_pos _)).mpr ?_
    revert sign
    cases cut.op <;> decide
  · rw [Cut.key_le]
    refine (Cut.key_le.mp (least later behind)).imp_right ?_
    rintro ⟨same,order⟩
    refine ⟨same,?_⟩
    revert order
    cases cut.op <;> simp only [Operator.signed] <;> omega

theorem outermost_minus_single (single : SingleTerm s) : outermost? ('-' :: s) = some ⟨0,.sub⟩ := by
  refine outermost_exact.mpr ⟨mem_cuts_minus.mpr (.inl rfl),?_⟩
  intro other present
  rcases mem_cuts_minus.mp present with rfl | ⟨later,behind,rfl⟩
  · exact le_refl _
  · refine (Cut.key_right (Nat.succ_pos _)).mpr ?_
    have tighter := single later behind
    revert tighter
    cases later.op <;> decide

theorem SingleTerm.of_uncut (none : cuts s = []) : SingleTerm s := by
  unfold SingleTerm
  rw [none]
  exact List.forall_mem_nil _

theorem SingleTerm.of_outermost (outer : outermost? s = some cut) (tight : cut.op.isSign = false) : SingleTerm s := by
  intro other member
  have bound : cut.op.rank ≤ other.op.rank := by
    rcases Cut.key_le.mp (outermost_least outer member) with weaker | ⟨same,_⟩
    · exact Nat.le_of_lt weaker
    · rw [same]
  revert tight bound
  cases cut.op <;> cases other.op <;> decide

theorem firstTerm_single (single : SingleTerm s) : firstTerm s = s := by
  have missing : ((cuts s).find? fun cut => cut.op.isSign) = none := List.find?_eq_none.mpr fun cut member => by
    simp [single cut member]
  rw [firstTerm,missing]

theorem firstTerm_operator {left right : List Char} {op : Operator} (flat : net left = 0) (sign : op.isSign = true) :
    firstTerm (left ++ op.symbol :: right) = firstTerm left := by
  unfold firstTerm
  rw [cuts_operator flat (glyph_symbol op),List.find?_append,List.find?_cons,sign]
  cases found : (cuts left).find? fun cut => cut.op.isSign with
  | none => exact List.take_left
  | some cut =>
    have bound := (cutsFrom_bounds (List.mem_of_find?_eq_some found)).2
    exact List.take_append_of_le_length (by omega)

theorem firstTerm_subset (s : List Char) : firstTerm s ⊆ s := by
  unfold firstTerm
  split
  · exact List.take_subset _ _
  · exact List.Subset.refl _

end Cuts

section Accepted
variable {α : Type} [Constant α]

theorem Reading.containsDigit {s : List Char} {d : Dissection} {t : Tree α} (reading : Reading α s d t)
    (nonempty : s ≠ []) : Text.containsDigit s = true := by
  cases reading with
  | empty => exact absurd rfl nonempty
  | literal n => exact n.containsDigit
  | bracketed plainBefore plainAfter inner digit body => exact (containsDigit_stripped ..).trans digit
  | split outer digit first second => exact digit

theorem containsDigit_minus (s : List Char) : Text.containsDigit ('-' :: s) = Text.containsDigit s :=
  containsDigit_operator [] s .sub

theorem Reading.behind_minus {s : List Char} {d : Dissection} {t : Tree α} (reading : Reading α s d t) (nonempty : s ≠ [])
    (single : SingleTerm s) : Reading α ('-' :: s) (.split ⟨0,.sub⟩ .empty d) (.binary .sub (.const Constant.zero) t) := by
  have front : '-' :: s = [] ++ Operator.sub.symbol :: s := rfl
  have outer := outermost_minus_single single
  have digit := (containsDigit_minus s).trans (reading.containsDigit nonempty)
  rw [front] at outer digit ⊢
  exact .split outer digit .empty reading

theorem Reading.isSum_single {s : List Char} {d : Dissection} {t : Tree α} (reading : Reading α s d t)
    (single : SingleTerm s) : d.isSum = false := by
  cases reading with
  | empty => rfl
  | literal n => rfl
  | bracketed plainBefore plainAfter inner digit body => rfl
  | split outer digit first second => exact single _ (outermost_mem outer)

theorem Reading.minus_single {s : List Char} {d : Dissection} {t : Tree α} (reading : Reading α s d t) (nonempty : s ≠ [])
    (single : SingleTerm s) : ∃ d' term e changed, Reading α (firstTerm s) d' term ∧
      Reading α ('-' :: s) e changed ∧ Exchanged term (.binary .sub (.const Constant.zero) term) d t changed := by
  refine ⟨d,t,_,_,?_,reading.behind_minus nonempty single,.here (reading.isSum_single single)⟩
  rw [firstTerm_single single]
  exact reading

-- The induction goes along the left parts of sums, which begin with the same character as the
-- whole text, so that none of them is missing.
theorem Reading.minus {s : List Char} {d : Dissection} {t : Tree α} (reading : Reading α s d t) {c : Char} {rest : List Char}
    (starts : s = c :: rest) (other : ∀ op, glyph c = .operator op → op.isSign = false) :
    ∃ d' term e changed, Reading α (firstTerm s) d' term ∧ Reading α ('-' :: s) e changed ∧
      Exchanged term (.binary .sub (.const Constant.zero) term) d t changed := by
  induction reading generalizing rest with
  | empty => cases starts
  | literal n =>
    exact (Reading.literal n).minus_single (starts ▸ List.cons_ne_nil c rest) (.of_uncut (cuts_plain n.plain))
  | bracketed plainBefore plainAfter inner digit body ih =>
    have none := outermost_none.mp (outermost_bracketed plainBefore plainAfter body.balanced)
    exact (Reading.bracketed plainBefore plainAfter inner digit body).minus_single (starts ▸ List.cons_ne_nil c rest)
      (.of_uncut none)
  | @split left right op d e t u outer digit first second ih ih' =>
    cases sign : op.isSign with
    | false =>
      have single := SingleTerm.of_outermost outer sign
      exact (Reading.split outer digit first second).minus_single (starts ▸ List.cons_ne_nil c rest) single
    | true =>
      cases left with
      | nil =>
        obtain ⟨rfl,_⟩ := List.cons.inj starts
        cases sign.symm.trans (other op (glyph_symbol op))
      | cons x left =>
        obtain ⟨rfl,_⟩ := List.cons.inj starts
        obtain ⟨d',term,e',changed,read,behind,exchanged⟩ := ih rfl
        have whole : Reading α ('-' :: x :: left ++ op.symbol :: right) _ (.binary op changed u) :=
          .split (outermost_minus outer sign) ((containsDigit_minus _).trans digit) behind second
        refine ⟨d',term,_,_,?_,whole,.left sign exchanged⟩
        rw [firstTerm_operator first.balanced.flat sign]
        exact read

-- The first term becomes what is subtracted from nothing, and all that follows is combined with
-- it as before.
theorem parse_minus {s : List Char} {tree : Tree α} (accepted : parse α s = .ok tree) {c : Char} {rest : List Char}
    (starts : Text.removeBlanks s = c :: rest) (plus : c ≠ '+') (minus : c ≠ '-') :
    ∃ term changed, parse α (firstTerm (Text.removeBlanks s)) = .ok term ∧ parse α ('-' :: s) = .ok changed ∧
      Exchanged term (.binary .sub (.const Constant.zero) term) (dissect (Text.removeBlanks s)) tree changed := by
  have other (op : Operator) (marked : glyph c = .operator op) : op.isSign = false := by
    obtain rfl := glyph_operator.mp marked
    cases op with
    | add => exact absurd rfl plus
    | sub => exact absurd rfl minus
    | mul => rfl
    | div => rfl
    | pow => rfl
  obtain ⟨_,term,_,changed,read,behind,exchanged⟩ := (parse_reading.mp accepted).minus starts other
  have clear : ∀ c ∈ firstTerm (Text.removeBlanks s), Text.isBlank c = false :=
    fun c member => Text.removeBlanks_clean (firstTerm_subset _ member)
  refine ⟨term,changed,?_,?_,exchanged⟩
  · rw [parse,Text.removeBlanks_clear clear,(reading_complete read).1]
    exact (reading_complete read).2
  · rw [parse,removeBlanks_marked Glyph.noConfusion,(reading_complete behind).1]
    exact (reading_complete behind).2

theorem parse_minus_product :
    parse Operand ['8','*','(','1','-','2',')','-','3','+','5'] = .ok (.binary .add (.binary .sub
      (.binary .mul (.const (.ofDigit 8)) (.binary .sub (.const (.ofDigit 1)) (.const (.ofDigit 2))))
      (.const (.ofDigit 3))) (.const (.ofDigit 5))) ∧
    firstTerm (Text.removeBlanks ['8','*','(','1','-','2',')','-','3','+','5']) = ['8','*','(','1','-','2',')'] ∧
    parse Operand ['8','*','(','1','-','2',')'] = .ok (.binary .mul (.const (.ofDigit 8))
      (.binary .sub (.const (.ofDigit 1)) (.const (.ofDigit 2)))) ∧
    parse Operand ['-','8','*','(','1','-','2',')','-','3','+','5'] = .ok (.binary .add (.binary .sub
      (.binary .sub (.const .missing) (.binary .mul (.const (.ofDigit 8))
        (.binary .sub (.const (.ofDigit 1)) (.const (.ofDigit 2)))))
      (.const (.ofDigit 3))) (.const (.ofDigit 5))) := by
  have accepted : parse Operand ['8','*','(','1','-','2',')','-','3','+','5'] = .ok (.binary .add (.binary .sub
      (.binary .mul (.const (.ofDigit 8)) (.binary .sub (.const (.ofDigit 1)) (.const (.ofDigit 2))))
      (.const (.ofDigit 3))) (.const (.ofDigit 5))) := by cbv
  have first : firstTerm (Text.removeBlanks ['8','*','(','1','-','2',')','-','3','+','5']) =
      ['8','*','(','1','-','2',')'] := by cbv
  have product : parse Operand ['8','*','(','1','-','2',')'] = .ok (.binary .mul (.const (.ofDigit 8))
      (.binary .sub (.const (.ofDigit 1)) (.const (.ofDigit 2)))) := by cbv
  have sums : dissect (Text.removeBlanks ['8','*','(','1','-','2',')','-','3','+','5']) = .split ⟨9,.add⟩
      (.split ⟨7,.sub⟩ (.split ⟨1,.mul⟩ (.leaf ['8']) (.stripped ⟨0,4⟩ (.split ⟨1,.sub⟩ (.leaf ['1']) (.leaf ['2']))))
        (.leaf ['3'])) (.leaf ['5']) := by cbv
  obtain ⟨term,changed,read,behind,exchanged⟩ := parse_minus accepted rfl (by decide) (by decide)
  rw [first,product] at read
  obtain rfl := Except.ok.inj read
  rw [sums] at exchanged
  -- Going to the left twice, through the plus and the minus, leads to the product.
  cases exchanged with
  | left _ inner =>
    cases inner with
    | left _ inner =>
      cases inner with
      | here _ => exact ⟨accepted,first,product,behind⟩
      | left sum _ => cases sum

end Accepted
end Reckon
