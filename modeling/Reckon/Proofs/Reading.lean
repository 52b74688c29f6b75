import Reckon.Parse
import Reckon.Proofs.Literal
import Reckon.Proofs.Stripping

namespace Reckon
variable {α : Type} [Constant α]

-- The rule for brackets demands far more than taking a pair away checks: the pair matches, and
-- nothing around it is an operator or a bracket.
inductive Reading (α : Type) [Constant α] : List Char → Dissection → Tree α → Prop where
  | empty : Reading α [] .empty (.const Constant.zero)
  | literal (n : Literal) : Reading α n.text (.leaf n.text) (.const (Constant.ofNumeral n.toNumeral))
  | bracketed {before inside after : List Char} {d : Dissection} {t : Tree α}
      (plainBefore : Plain before) (plainAfter : Plain after) (inner : Balanced inside)
      (digit : Text.containsDigit (before ++ (inside ++ after)) = true)
      (body : Reading α (before ++ (inside ++ after)) d t) :
      Reading α (before ++ '(' :: (inside ++ ')' :: after))
        (.stripped ⟨before.length,before.length + 1 + inside.length⟩ d) t
  | split {left right : List Char} {op : Operator} {d e : Dissection} {t u : Tree α}
      (outer : outermost? (left ++ op.symbol :: right) = some ⟨left.length,op⟩)
      (digit : Text.containsDigit (left ++ op.symbol :: right) = true)
      (first : Reading α left d t) (second : Reading α right e u) :
      Reading α (left ++ op.symbol :: right) (.split ⟨left.length,op⟩ d e) (.binary op t u)

theorem Reading.balanced {s : List Char} {d : Dissection} {t : Tree α} (reading : Reading α s d t) :
    Balanced s := by
  induction reading with
  | empty => exact balanced_plain plain_nil
  | literal n => exact balanced_plain n.plain
  | @bracketed before inside after d t plainBefore plainAfter inner digit body ih =>
    have pair : Balanced ('(' :: (inside ++ [')'])) := inner.bracketed rfl rfl
    simpa using (balanced_plain plainBefore).append (pair.append (balanced_plain plainAfter))
  | split outer digit first second ih ih' => exact ih.operator (glyph_symbol _) ih'

theorem containsDigit_stripped (before inside after : List Char) :
    Text.containsDigit (before ++ '(' :: (inside ++ ')' :: after)) =
      Text.containsDigit (before ++ (inside ++ after)) := by
  have opening : Text.isNumeric '(' = false := by decide
  have closing : Text.isNumeric ')' = false := by decide
  simp [Text.containsDigit,opening,closing]

theorem containsDigit_operator (left right : List Char) (op : Operator) :
    Text.containsDigit (left ++ op.symbol :: right) = (Text.containsDigit left || Text.containsDigit right) := by
  have symbol : Text.isNumeric op.symbol = false := by cases op <;> decide
  simp [Text.containsDigit,symbol]

theorem containsDigit_strip {s : List Char} {pair : Pair} (found : outerPair? s = some pair) :
    Text.containsDigit s = Text.containsDigit (strip s pair) := by
  obtain ⟨before,x,inside,y,after,rfl,rfl,opens,closes,_⟩ := outerPair_exact.mp found
  obtain rfl := glyph_opening.mp opens
  obtain rfl := glyph_closing.mp closes
  rw [strip_parts,containsDigit_stripped]

@[elab_as_elim]
theorem dissect_parts {motive : List Char → Prop} (nil : dissect [] = .empty → motive [])
    (digitless : ∀ s, s ≠ [] → Text.containsDigit s = false → dissect s = .digitless → motive s)
    (split : ∀ left op right, dissect (left ++ op.symbol :: right) = .split ⟨left.length,op⟩ (dissect left) (dissect right) →
      motive left → motive right → motive (left ++ op.symbol :: right))
    (stripped : ∀ before inside after, dissect (before ++ '(' :: (inside ++ ')' :: after)) =
        .stripped ⟨before.length,before.length + 1 + inside.length⟩ (dissect (before ++ (inside ++ after))) →
      motive (before ++ (inside ++ after)) → motive (before ++ '(' :: (inside ++ ')' :: after)))
    (leaf : ∀ s, Text.containsDigit s = true → outermost? s = none → outerPair? s = none → dissect s = .leaf s → motive s)
    (s : List Char) : motive s := by
  induction s using dissect_induction with
  | nil => exact nil dissect_nil
  | digitless s nonempty none => exact digitless s nonempty none (dissect_digitless nonempty none)
  | split s cut digit found first second =>
    have step := dissect_split digit found
    obtain ⟨left,x,right,rfl,marked,_,point⟩ := mem_cuts.mp (outermost_mem found)
    obtain ⟨_,op⟩ := cut
    obtain rfl := glyph_operator.mp marked
    dsimp only at point
    subst point
    have front : (left ++ op.symbol :: right).take left.length = left := List.take_left
    have back : (left ++ op.symbol :: right).drop (left.length + 1) = right := by simp
    rw [front] at first step
    rw [back] at second step
    exact split left op right step first second
  | stripped s pair digit uncut found inner =>
    have step := dissect_stripped digit uncut found
    obtain ⟨before,x,inside,y,after,rfl,rfl,opens,closes,_⟩ := outerPair_exact.mp found
    obtain rfl := glyph_opening.mp opens
    obtain rfl := glyph_closing.mp closes
    rw [strip_parts] at inner step
    exact stripped before inside after step inner
  | leaf s digit uncut bare => exact leaf s digit uncut bare (dissect_leaf digit uncut bare)

theorem plain_uncut {s part : List Char} (front back : List Char) (parts : s = front ++ (part ++ back))
    (uncut : cuts s = []) (flat : net front = 0) (noOpening : openings part = 0) (noClosing : closings part = 0) : Plain part := by
  intro c member
  cases marked : glyph c with
  | other => rfl
  | opening =>
    have absent := List.countP_eq_zero.mp noOpening c member
    simp [marked] at absent
  | closing =>
    have absent := List.countP_eq_zero.mp noClosing c member
    simp [marked] at absent
  | operator op =>
    obtain ⟨first,later,rfl⟩ := List.append_of_mem member
    have level : net first = 0 := by
      simp only [openings,closings,List.countP_append] at noOpening noClosing
      simp only [net,openings,closings]
      omega
    have cut : ⟨(front ++ first).length,op⟩ ∈ cuts s := by
      refine mem_cuts.mpr ⟨front ++ first,c,later ++ back,by simp [parts],marked,?_,rfl⟩
      rw [net_append,flat,level]
      rfl
    rw [uncut] at cut
    cases cut

theorem stripped_parts {s : List Char} {pair : Pair} (uncut : outermost? s = none)
    (found : outerPair? s = some pair) (balanced : Balanced (strip s pair)) :
    ∃ before inside after, s = before ++ '(' :: (inside ++ ')' :: after) ∧
      pair = ⟨before.length,before.length + 1 + inside.length⟩ ∧ strip s pair = before ++ (inside ++ after) ∧
      Plain before ∧ Plain after ∧ Balanced inside := by
  obtain ⟨before,x,inside,y,after,rfl,rfl,opens,closes,noOpening,noClosing⟩ := outerPair_exact.mp found
  obtain rfl := glyph_opening.mp opens
  obtain rfl := glyph_closing.mp closes
  rw [strip_parts] at balanced
  obtain ⟨noClosing',noOpening',inner⟩ := balanced.outside noOpening noClosing
  have empty := outermost_none.mp uncut
  have start : net before = 0 := by
    unfold net
    omega
  have level : net (before ++ '(' :: (inside ++ [')'])) = 0 := by
    simp [start,inner.flat,opens,closes,Glyph.step]
  exact ⟨before,inside,after,rfl,rfl,strip_parts ..,
    plain_uncut [] _ rfl empty rfl noOpening noClosing',
    plain_uncut (before ++ '(' :: (inside ++ [')'])) [] (by simp) empty level noOpening' noClosing,
    inner⟩

theorem readLeaf_literal {s : List Char} {t : Tree α} (uncut : outermost? s = none)
    (accepted : readLeaf α s = .ok t) :
    ∃ n : Literal, s = n.text ∧ t = .const (Constant.ofNumeral n.toNumeral) := by
  unfold readLeaf at accepted
  split at accepted
  · rename_i numeral found
    cases accepted
    obtain rfl := (Numeral.ofChars_exact _ _).mp found
    exact ⟨⟨numeral,Numeral.unsigned_uncut (outermost_none.mp uncut)⟩,rfl,rfl⟩
  · cases accepted

theorem tree_split {cut : Cut} {left right : Dissection} {tree : Tree α}
    (accepted : (Dissection.split cut left right).tree α = .ok tree) :
    ∃ t u, left.tree α = .ok t ∧ right.tree α = .ok u ∧ tree = .binary cut.op t u := by
  unfold Dissection.tree at accepted
  split at accepted
  · cases accepted
  · rename_i t first
    split at accepted
    · cases accepted
    · rename_i u second
      cases accepted
      exact ⟨t,u,first,second,rfl⟩

theorem reading_sound {s : List Char} {tree : Tree α} (accepted : (dissect s).tree α = .ok tree) :
    Reading α s (dissect s) tree := by
  induction s using dissect_induction generalizing tree with
  | nil =>
    rw [dissect_nil] at accepted ⊢
    cases accepted
    exact .empty
  | digitless s nonempty none =>
    rw [dissect_digitless nonempty none] at accepted
    cases accepted
  | split s cut digit found ihLeft ihRight =>
    rw [dissect_split digit found] at accepted ⊢
    obtain ⟨t,u,first,second,rfl⟩ := tree_split accepted
    obtain ⟨left,x,right,rfl,marked,flat,point⟩ := mem_cuts.mp (outermost_mem found)
    obtain ⟨_,op⟩ := cut
    obtain rfl := glyph_operator.mp marked
    dsimp only at point
    subst point
    exact .split found digit (by simpa using ihLeft first) (by simpa using ihRight second)
  | stripped s pair digit uncut found ih =>
    rw [dissect_stripped digit uncut found] at accepted ⊢
    -- Only what remains can tell that the pair was a match.
    have body := ih accepted
    obtain ⟨before,inside,after,rfl,rfl,rest,plainBefore,plainAfter,inner⟩ :=
      stripped_parts uncut found body.balanced
    rw [rest] at body ⊢
    exact .bracketed plainBefore plainAfter inner (by rwa [← containsDigit_stripped]) body
  | leaf s digit uncut bare =>
    rw [dissect_leaf digit uncut bare] at accepted ⊢
    obtain ⟨n,rfl,rfl⟩ := readLeaf_literal uncut accepted
    exact .literal n

theorem outermost_bracketed {before inside after : List Char} (plainBefore : Plain before)
    (plainAfter : Plain after) (balanced : Balanced (before ++ (inside ++ after))) :
    outermost? (before ++ '(' :: (inside ++ ')' :: after)) = none := by
  refine outermost_none.mpr (List.eq_nil_iff_forall_not_mem.mpr ?_)
  intro cut member
  have marked := cut_marked.mp member
  rw [marks_bracketed plainBefore plainAfter rfl rfl] at marked
  obtain ⟨mark,present,raised⟩ := List.mem_map.mp marked
  have level := marks_nonnegative balanced present
  have same : mark.depth + 1 = 0 := congrArg Mark.depth raised
  omega

theorem Balanced.uncut {inner : List Char} (balanced : Balanced inner) : cuts ('(' :: (inner ++ [')'])) = [] :=
  outermost_none.mp (outermost_bracketed plain_nil plain_nil (by simpa using balanced))

theorem reading_complete {s : List Char} {d : Dissection} {tree : Tree α} (reading : Reading α s d tree) :
    dissect s = d ∧ d.tree α = .ok tree := by
  induction reading with
  | empty => exact ⟨dissect_nil,rfl⟩
  | literal n =>
    have uncut := outermost_none.mpr (cuts_plain n.plain)
    refine ⟨dissect_leaf n.containsDigit uncut (outerPair_none (openings_plain n.plain)),?_⟩
    simp [Dissection.tree,readLeaf,Numeral.ofChars_text]
  | @bracketed before inside after d t plainBefore plainAfter inner digit body ih =>
    obtain ⟨same,accepted⟩ := ih
    have uncut := outermost_bracketed plainBefore plainAfter body.balanced
    have found := outerPair_exact.mpr ⟨before,'(',inside,')',after,rfl,rfl,rfl,rfl,
      openings_plain plainBefore,closings_plain plainAfter⟩
    rw [← containsDigit_stripped] at digit
    refine ⟨?_,accepted⟩
    rw [dissect_stripped digit uncut found,strip_parts,same]
  | split outer digit first second ih ih' =>
    obtain ⟨left,accepted⟩ := ih
    obtain ⟨right,accepted'⟩ := ih'
    refine ⟨?_,by simp [Dissection.tree,accepted,accepted']⟩
    rw [dissect_split digit outer]
    simp [left,right]

theorem parse_reading {s : List Char} {tree : Tree α} :
    parse α s = .ok tree ↔ Reading α (Text.removeBlanks s) (dissect (Text.removeBlanks s)) tree :=
  ⟨reading_sound,fun reading => (reading_complete reading).2⟩

theorem readLeaf_operands (α : Type) [Constant α] (s : List Char) :
    readLeaf α s = (readLeaf Operand s).map (Tree.map Operand.value) := by
  unfold readLeaf
  split <;> rfl

theorem Dissection.tree_operands (α : Type) [Constant α] (d : Dissection) :
    d.tree α = (d.tree Operand).map (Tree.map Operand.value) := by
  induction d with
  | empty => rfl
  | digitless => rfl
  | leaf s => exact readLeaf_operands α s
  | stripped pair inner ih => exact ih
  | split cut left right ih ih' =>
    simp only [tree,ih,ih']
    cases left.tree Operand with
    | error fault => rfl
    | ok first => cases right.tree Operand <;> rfl

theorem parse_operands (α : Type) [Constant α] (s : List Char) :
    parse α s = (parse Operand s).map (Tree.map Operand.value) := (dissect (Text.removeBlanks s)).tree_operands α

end Reckon
