import Reckon.Proofs.Reading

namespace Reckon

structure Matches (s : List Char) (pair : Pair) : Prop where
  opened : s[pair.opening]? = some '('
  closed : s[pair.closing]? = some ')'
  order : pair.opening < pair.closing
  inner : Balanced (enclosed s pair)

structure Removal where
  text : List Char
  pair : Pair
  deriving DecidableEq

def Dissection.removals (s : List Char) : Dissection → List Removal
  | stripped pair inner => ⟨s,pair⟩ :: inner.removals (strip s pair)
  | split cut left right => left.removals (s.take cut.point) ++ right.removals (s.drop (cut.point + 1))
  | _ => []

def matchingPair? (s : List Char) : Option Pair :=
  (outerPair? s).filter fun pair => Balanced (enclosed s pair)

theorem matchingPair_exact {s : List Char} {pair : Pair} :
    matchingPair? s = some pair ↔ outerPair? s = some pair ∧ Balanced (enclosed s pair) := by
  simp [matchingPair?,Option.filter_eq_some_iff]

-- As the dissection of a text, except that a pair that does not match stays.
def dissectMatching (s : List Char) : Dissection :=
  if s = [] then .empty
  else if Text.containsDigit s = false then .digitless
  else match found : outermost? s with
    | some cut => .split cut (dissectMatching (s.take cut.point)) (dissectMatching (s.drop (cut.point + 1)))
    | none => match _enclosed : matchingPair? s with
      | some pair => .stripped pair (dissectMatching (strip s pair))
      | none => .leaf s
termination_by s.length
decreasing_by
  · have bound := outermost_lt found
    simp only [List.length_take]; omega
  · have bound := outermost_lt found
    simp only [List.length_drop]; omega
  · exact strip_shorter (matchingPair_exact.mp _enclosed).1

def parseMatching (α : Type) [Constant α] (s : List Char) : Except ParseError (Tree α) :=
  (dissectMatching (Text.removeBlanks s)).tree α

theorem dissectMatching_step (s : List Char) : dissectMatching s =
    if s = [] then .empty
    else if Text.containsDigit s = false then .digitless
    else match outermost? s with
      | some cut => .split cut (dissectMatching (s.take cut.point)) (dissectMatching (s.drop (cut.point + 1)))
      | none => match matchingPair? s with
        | some pair => .stripped pair (dissectMatching (strip s pair))
        | none => .leaf s := by
  conv => lhs; rw [dissectMatching]
  split
  · rfl
  · split
    · rfl
    · split
      · rename_i cut found
        simp only [found]
      · rename_i uncut
        split
        · rename_i pair found
          simp only [uncut,found]
        · rename_i bare
          simp only [uncut,bare]

theorem dissectMatching_nil : dissectMatching [] = .empty := by
  rw [dissectMatching_step,if_pos rfl]

theorem dissectMatching_digitless {s : List Char} (nonempty : s ≠ []) (none : Text.containsDigit s = false) :
    dissectMatching s = .digitless := by
  rw [dissectMatching_step,if_neg nonempty,if_pos none]

theorem dissectMatching_split {s : List Char} {cut : Cut} (digit : Text.containsDigit s = true)
    (found : outermost? s = some cut) : dissectMatching s =
      .split cut (dissectMatching (s.take cut.point)) (dissectMatching (s.drop (cut.point + 1))) := by
  rw [dissectMatching_step,if_neg (nonempty_digit digit),if_neg (by simp [digit])]
  simp only [found]

theorem dissectMatching_stripped {s : List Char} {pair : Pair} (digit : Text.containsDigit s = true)
    (uncut : outermost? s = none) (kept : matchingPair? s = some pair) :
    dissectMatching s = .stripped pair (dissectMatching (strip s pair)) := by
  rw [dissectMatching_step,if_neg (nonempty_digit digit),if_neg (by simp [digit])]
  simp only [uncut,kept]

theorem dissectMatching_leaf {s : List Char} (digit : Text.containsDigit s = true)
    (uncut : outermost? s = none) (bare : matchingPair? s = none) : dissectMatching s = .leaf s := by
  rw [dissectMatching_step,if_neg (nonempty_digit digit),if_neg (by simp [digit])]
  simp only [uncut,bare]

theorem dissectMatching_same {s : List Char} (all : ∀ r ∈ (dissect s).removals s, Matches r.text r.pair) :
    dissectMatching s = dissect s := by
  induction s using dissect_induction with
  | nil => rw [dissectMatching_nil,dissect_nil]
  | digitless s nonempty none => rw [dissectMatching_digitless nonempty none,dissect_digitless nonempty none]
  | split s cut digit found ihLeft ihRight =>
    rw [dissect_split digit found] at all ⊢
    obtain ⟨left,right⟩ := List.forall_mem_append.mp all
    rw [dissectMatching_split digit found,ihLeft left,ihRight right]
  | stripped s pair digit uncut found ih =>
    rw [dissect_stripped digit uncut found] at all ⊢
    obtain ⟨here,later⟩ := List.forall_mem_cons.mp all
    rw [dissectMatching_stripped digit uncut (matchingPair_exact.mpr ⟨found,here.inner⟩),ih later]
  | leaf s digit uncut bare =>
    have kept : matchingPair? s = none := by simp [matchingPair?,bare]
    rw [dissectMatching_leaf digit uncut kept,dissect_leaf digit uncut bare]

section Accepted
variable {α : Type} [Constant α]

theorem Reading.removals {s : List Char} {d : Dissection} {t : Tree α} (reading : Reading α s d t) :
    ∀ r ∈ d.removals s, Matches r.text r.pair := by
  induction reading with
  | empty => exact List.forall_mem_nil _
  | literal n => exact List.forall_mem_nil _
  | @bracketed before inside after d t plainBefore plainAfter inner digit body ih =>
    refine List.forall_mem_cons.mpr ⟨⟨?_,?_,?_,?_⟩,?_⟩
    · simp
    · have front : before ++ '(' :: (inside ++ ')' :: after) = (before ++ '(' :: inside) ++ ')' :: after := by simp
      have size : (before ++ '(' :: inside).length = before.length + 1 + inside.length := by
        simp only [List.length_append,List.length_cons]
        omega
      dsimp only
      rw [front,← size]
      simp
    · dsimp only
      omega
    · rw [enclosed_parts]
      exact inner
    · rw [strip_parts]
      exact ih
  | @split left right op d e t u outer digit first second ih ih' =>
    have front : (left ++ op.symbol :: right).take left.length = left := List.take_left
    have back : (left ++ op.symbol :: right).drop (left.length + 1) = right := by simp
    unfold Dissection.removals
    rw [front,back]
    exact List.forall_mem_append.mpr ⟨ih,ih'⟩

-- The guard can only refuse: a pair that it keeps is in a leaf, and a leaf with a bracket is no
-- numeral.
theorem dissectMatching_accepted {s : List Char} {tree : Tree α}
    (accepted : (dissectMatching s).tree α = .ok tree) : dissect s = dissectMatching s := by
  induction s using dissect_induction generalizing tree with
  | nil => rw [dissectMatching_nil,dissect_nil]
  | digitless s nonempty none => rw [dissectMatching_digitless nonempty none,dissect_digitless nonempty none]
  | split s cut digit found ihLeft ihRight =>
    rw [dissectMatching_split digit found] at accepted ⊢
    obtain ⟨t,u,first,second,_⟩ := tree_split accepted
    rw [dissect_split digit found,ihLeft first,ihRight second]
  | stripped s pair digit uncut found ih =>
    cases kept : matchingPair? s with
    | some other =>
      obtain ⟨same,_⟩ := matchingPair_exact.mp kept
      cases same.symm.trans found
      rw [dissectMatching_stripped digit uncut kept] at accepted ⊢
      rw [dissect_stripped digit uncut found,ih accepted]
    | none =>
      rw [dissectMatching_leaf digit uncut kept] at accepted
      obtain ⟨n,rfl,_⟩ := readLeaf_literal uncut accepted
      cases (outerPair_none (openings_plain n.plain)).symm.trans found
  | leaf s digit uncut bare =>
    have kept : matchingPair? s = none := by simp [matchingPair?,bare]
    rw [dissectMatching_leaf digit uncut kept,dissect_leaf digit uncut bare]

-- To ask for a match before taking a pair away would accept the same trees.
theorem parse_matching (s : List Char) (tree : Tree α) :
    (parse α s = .ok tree → Balanced (Text.removeBlanks s) ∧
      ∀ r ∈ (dissect (Text.removeBlanks s)).removals (Text.removeBlanks s), Matches r.text r.pair) ∧
    (parse α s = .ok tree ↔ parseMatching α s = .ok tree) := by
  refine ⟨?_,?_,?_⟩
  · intro accepted
    have reading := parse_reading.mp accepted
    exact ⟨reading.balanced,reading.removals⟩
  · intro accepted
    have same := dissectMatching_same (parse_reading.mp accepted).removals
    unfold parseMatching
    rw [same]
    exact accepted
  · intro accepted
    have same := dissectMatching_accepted accepted
    unfold parse
    rw [same]
    exact accepted

theorem parse_matching_product :
    parse Operand ['2','*','(','3','-','1',')'] = .ok (.binary .mul (.const (.ofDigit 2))
      (.binary .sub (.const (.ofDigit 3)) (.const (.ofDigit 1)))) ∧
    (dissect ['2','*','(','3','-','1',')']).removals ['2','*','(','3','-','1',')'] =
      [⟨['(','3','-','1',')'],⟨0,4⟩⟩] ∧
    Matches ['(','3','-','1',')'] ⟨0,4⟩ ∧
    parseMatching Operand ['2','*','(','3','-','1',')'] = .ok (.binary .mul (.const (.ofDigit 2))
      (.binary .sub (.const (.ofDigit 3)) (.const (.ofDigit 1)))) := by
  have accepted : parse Operand ['2','*','(','3','-','1',')'] = .ok (.binary .mul (.const (.ofDigit 2))
      (.binary .sub (.const (.ofDigit 3)) (.const (.ofDigit 1)))) := by cbv
  have removed : (dissect ['2','*','(','3','-','1',')']).removals ['2','*','(','3','-','1',')'] =
      [⟨['(','3','-','1',')'],⟨0,4⟩⟩] := by cbv
  obtain ⟨sound,same⟩ := parse_matching ['2','*','(','3','-','1',')'] (.binary .mul
      (.const (Operand.ofDigit 2)) (.binary .sub (.const (Operand.ofDigit 3)) (.const (Operand.ofDigit 1))))
  have all := (sound accepted).2
  rw [show Text.removeBlanks ['2','*','(','3','-','1',')'] = ['2','*','(','3','-','1',')'] from by decide,removed] at all
  exact ⟨accepted,removed,all _ List.mem_cons_self,same.mp accepted⟩

end Accepted
end Reckon
