import Reckon.Proofs.Constants
import Reckon.Proofs.Matching
import Reckon.Proofs.Segments

namespace Reckon

-- Up to the first operator. Brackets do not count.
def stretch (s : List Char) : List Char := withoutBrackets (s.takeWhile fun c => !isOperator c)

def besideLeft (s : List Char) (place : Nat) : List Char := (stretch (s.take place).reverse).reverse
def besideRight (s : List Char) (place : Nat) : List Char := stretch (s.drop (place + 1))

-- What a pair encloses, together with what stands directly beside the pair.
def joined (s : List Char) (pair : Pair) : List Char :=
  besideLeft s pair.opening ++ (enclosed s pair ++ besideRight s pair.closing)

inductive Tree.Subtree {α : Type} : Tree α → Tree α → Prop where
  | refl (t : Tree α) : Subtree t t
  | left {t left : Tree α} (op : Operator) (right : Tree α) (inner : Subtree t left) :
      Subtree t (.binary op left right)
  | right {t right : Tree α} (op : Operator) (left : Tree α) (inner : Subtree t right) :
      Subtree t (.binary op left right)

theorem Tree.Subtree.const {α : Type} {t : Tree α} {x : α} (inner : Subtree t (.const x)) : t = .const x := by
  cases inner
  rfl

section Stretch

theorem stretch_cons (c : Char) (s : List Char) :
    stretch (c :: s) = if isOperator c then [] else withoutBrackets [c] ++ stretch s := by
  unfold stretch withoutBrackets
  by_cases marked : isOperator c = true
  · simp [marked]
  · simp only [List.takeWhile_cons,marked]
    simp [List.filter_cons]
    split <;> rfl

theorem stretch_operator (s t : List Char) (op : Operator) : stretch (s ++ op.symbol :: t) = stretch s := by
  induction s with
  | nil => simp [isOperator_symbol,stretch,withoutBrackets]
  | cons c rest ih => simp [stretch_cons,ih]

theorem stretch_bracket (s t : List Char) {c : Char} (bracket : c = '(' ∨ c = ')') :
    stretch (s ++ c :: t) = stretch (s ++ t) := by
  induction s with
  | nil =>
    have unmarked : isOperator c = false := by rcases bracket with rfl | rfl <;> rfl
    have dropped : withoutBrackets [c] = [] := by rcases bracket with rfl | rfl <;> rfl
    simp [stretch_cons,unmarked,dropped]
  | cons d rest ih => simp [stretch_cons,ih]

theorem stretch_plain {s : List Char} (plain : Plain s) : stretch s = s := by
  induction s with
  | nil => rfl
  | cons c rest ih =>
    obtain ⟨other,later⟩ := plain_cons.mp plain
    have unmarked : isOperator c = false := by simp [isOperator,ofSymbol_plain plain List.mem_cons_self]
    have kept : withoutBrackets [c] = [c] := withoutBrackets_plain (plain_cons.mpr ⟨other,plain_nil⟩)
    simp [stretch_cons,unmarked,kept,ih later]

theorem stretch_subset {s : List Char} {c : Char} (member : c ∈ stretch s) : c ∈ s :=
  (List.takeWhile_sublist _).subset (List.mem_of_mem_filter member)

end Stretch

theorem Matches.parts {s : List Char} {pair : Pair} (matched : Matches s pair) :
    ∃ front mid back, s = front ++ '(' :: (mid ++ ')' :: back) ∧
      pair = ⟨front.length,front.length + 1 + mid.length⟩ ∧ Balanced mid := by
  obtain ⟨opened,closed,order,inner⟩ := matched
  obtain ⟨opening,closing⟩ := pair
  dsimp only at opened closed order
  obtain ⟨outer,back,rfl,rfl⟩ := getElem?_parts closed
  rw [List.getElem?_append_left order] at opened
  obtain ⟨front,mid,rfl,rfl⟩ := getElem?_parts opened
  have size : (front ++ '(' :: mid).length = front.length + 1 + mid.length := by
    simp only [List.length_append,List.length_cons]
    omega
  rw [size,List.append_assoc,List.cons_append,enclosed_parts] at inner
  exact ⟨front,mid,back,by simp,by rw [size],inner⟩

theorem joined_parts (front mid back : List Char) :
    joined (front ++ '(' :: (mid ++ ')' :: back)) ⟨front.length,front.length + 1 + mid.length⟩ =
      (stretch front.reverse).reverse ++ (mid ++ stretch back) := by
  have whole : front ++ '(' :: (mid ++ ')' :: back) = (front ++ '(' :: mid) ++ ')' :: back := by simp
  have size : front.length + 1 + mid.length = (front ++ '(' :: mid).length := by
    simp only [List.length_append,List.length_cons]
    omega
  have left : besideLeft (front ++ '(' :: (mid ++ ')' :: back)) front.length = (stretch front.reverse).reverse := by
    simp [besideLeft]
  have right : besideRight (front ++ '(' :: (mid ++ ')' :: back)) (front.length + 1 + mid.length) = stretch back := by
    rw [whole,size,besideRight,List.drop_append,List.drop_of_length_le (by omega)]
    simp
  rw [joined,enclosed_parts,left,right]

section Nesting
variable {σ : Type} [Symbolic σ]

theorem pair_within {front inside mid after back : List σ} {x y z : σ}
    (opens : glyph x = .opening) (whole : Balanced (front ++ x :: inside)) (balanced : Balanced mid)
    (same : inside ++ y :: after = mid ++ z :: back) :
    ∃ rest, inside = mid ++ z :: rest ∧ back = rest ++ y :: after := by
  have ends : ¬inside <+: mid := by
    intro first
    have before := whole.low front (List.prefix_append front _)
    have excess := balanced.low inside first
    have flat := whole.flat
    simp only [net_append,net_cons,opens,Glyph.step] at flat
    omega
  rcases append_cons_cases same with found | ⟨equal,_,_⟩ | ⟨w,longer,_⟩
  · exact found
  · exact absurd (equal ▸ List.prefix_refl inside) ends
  · exact absurd (longer ▸ List.prefix_append inside _) ends

theorem balanced_end {s t u v : List σ} {x y : σ} (left : Balanced s) (right : Balanced t)
    (closes : glyph x = .closing) (closes' : glyph y = .closing) (same : s ++ x :: u = t ++ y :: v) :
    s = t ∧ u = v := by
  have ends {s w : List σ} {x : σ} (inner : Balanced s) (closes : glyph x = .closing)
      (outer : Balanced (s ++ x :: w)) : False := by
    have below := outer.low (s ++ [x]) ⟨w,by simp⟩
    simp only [net_append,net_cons,net_nil,inner.flat,closes,Glyph.step] at below
    omega
  rcases append_cons_cases same with ⟨w,rfl,_⟩ | ⟨equal,_,rest⟩ | ⟨w,rfl,_⟩
  · exact (ends right closes' left).elim
  · exact ⟨equal,rest⟩
  · exact (ends left closes right).elim

end Nesting

section Accepted
variable {α : Type} [Constant α]

theorem Reading.joined {s : List Char} {d : Dissection} {t : Tree α} (reading : Reading α s d t)
    {front mid back : List Char} (parts : s = front ++ '(' :: (mid ++ ')' :: back)) (balanced : Balanced mid) :
    ∃ e u, Reading α ((stretch front.reverse).reverse ++ (mid ++ stretch back)) e u ∧ u.Subtree t := by
  induction reading generalizing front back with
  | empty => simp at parts
  | literal n =>
    have other := n.plain '(' (by simp [parts])
    cases other
  | @bracketed before inside after d t plainBefore plainAfter inner digit body ih =>
    rcases append_cons_cases parts with ⟨w,shorter,_⟩ | ⟨rfl,_,same⟩ | ⟨front',rfl,later⟩
    · have other := plainBefore '(' (by simp [shorter])
      cases other
    · -- The pair is the one that is taken away here.
      obtain ⟨rfl,rfl⟩ := balanced_end inner balanced rfl rfl same
      have plainFront : Plain before.reverse := fun c member => plainBefore c (List.mem_reverse.mp member)
      rw [stretch_plain plainFront,stretch_plain plainAfter,List.reverse_reverse]
      exact ⟨d,t,body,.refl t⟩
    · -- The pair is further inside, and what is beside it stays beside it.
      rcases append_cons_cases later with ⟨inside',rfl,rest⟩ | ⟨_,wrong,_⟩ | ⟨w,_,wrong⟩
      · obtain ⟨w,rfl,rfl⟩ := pair_within rfl inner balanced rest.symm
        have kept : before ++ ((front' ++ '(' :: (mid ++ ')' :: w)) ++ after) =
            (before ++ front') ++ '(' :: (mid ++ ')' :: (w ++ after)) := by simp
        have outer := ih kept
        rw [List.reverse_append,List.reverse_cons,List.append_assoc,List.singleton_append,
          stretch_bracket _ _ (.inl rfl),stretch_bracket _ _ (.inr rfl),← List.reverse_append]
        exact outer
      · exact absurd wrong (by decide)
      · have other := plainAfter '(' (by simp [wrong])
        cases other
  | @split left right op d e t u outer digit first second ih ih' =>
    have unmarked : op.symbol ≠ '(' := by cases op <;> decide
    rcases append_cons_cases parts with ⟨left',rfl,rest⟩ | ⟨_,wrong,_⟩ | ⟨front',rfl,later⟩
    · obtain ⟨w,rfl,rfl⟩ := pair_within rfl first.balanced balanced rest.symm
      obtain ⟨e,u',read,inner⟩ := ih rfl
      rw [stretch_operator]
      exact ⟨e,u',read,.left op u inner⟩
    · exact absurd wrong unmarked
    · obtain ⟨e,u',read,inner⟩ := ih' later
      rw [List.reverse_append,List.reverse_cons,List.append_assoc,List.singleton_append,stretch_operator]
      exact ⟨e,u',read,.right op t inner⟩

theorem joined_clear {s : List Char} (pair : Pair) : ∀ c ∈ joined (Text.removeBlanks s) pair, Text.isBlank c = false := by
  intro c member
  refine Text.removeBlanks_clean (s := s) ?_
  simp only [joined,besideLeft,besideRight,enclosed,List.mem_append,List.mem_reverse] at member
  rcases member with left | inside | right
  · exact List.mem_of_mem_take (List.mem_reverse.mp (stretch_subset left))
  · exact List.mem_of_mem_take (List.mem_of_mem_drop inside)
  · exact List.mem_of_mem_drop (stretch_subset right)

-- What a pair encloses is joined with what stands beside it, up to the operators on both sides.
-- Where nothing but brackets stands beside the pair, that is what the pair encloses.
theorem parse_joined {s : List Char} {tree : Tree α} (accepted : parse α s = .ok tree) {pair : Pair}
    (matched : Matches (Text.removeBlanks s) pair) :
    ∃ inner, parse α (joined (Text.removeBlanks s) pair) = .ok inner ∧ inner.Subtree tree ∧
      (besideLeft (Text.removeBlanks s) pair.opening = [] → besideRight (Text.removeBlanks s) pair.closing = [] →
        parse α (enclosed (Text.removeBlanks s) pair) = .ok inner) := by
  obtain ⟨front,mid,back,parts,rfl,balanced⟩ := matched.parts
  obtain ⟨d,inner,reading,within⟩ := (parse_reading.mp accepted).joined parts balanced
  obtain ⟨same,read⟩ := reading_complete reading
  have read : parse α (joined (Text.removeBlanks s) ⟨front.length,front.length + 1 + mid.length⟩) = .ok inner := by
    rw [parse,Text.removeBlanks_clear (joined_clear _),parts,joined_parts,same]
    exact read
  refine ⟨inner,read,within,?_⟩
  intro left right
  simp only [joined,left,right,List.nil_append,List.append_nil] at read
  exact read

theorem parse_joined_twelve :
    (parse Operand ['4','^','1','(','(','2',')','+','3',')'] = .ok (.binary .pow (.const (.ofDigit 4))
      (.binary .add (.const (.written ⟨false,[1,2],none,none,by decide⟩)) (.const (.ofDigit 3)))) ∧
    Matches ['4','^','1','(','(','2',')','+','3',')'] ⟨4,6⟩ ∧
    parse Operand ['1','2'] = .ok (.const (.written ⟨false,[1,2],none,none,by decide⟩)) ∧
    Tree.Subtree (.const (Operand.written ⟨false,[1,2],none,none,by decide⟩)) (.binary .pow
      (.const (Operand.ofDigit 4)) (.binary .add (.const (.written ⟨false,[1,2],none,none,by decide⟩))
      (.const (.ofDigit 3))))) ∧
    parse Operand ['4','*','(','(','3','-','1',')',')'] = .ok (.binary .mul (.const (.ofDigit 4))
      (.binary .sub (.const (.ofDigit 3)) (.const (.ofDigit 1)))) ∧
    Matches ['4','*','(','(','3','-','1',')',')'] ⟨3,7⟩ ∧
    besideLeft ['4','*','(','(','3','-','1',')',')'] 3 = [] ∧ besideRight ['4','*','(','(','3','-','1',')',')'] 7 = [] ∧
    ∃ inner, parse Operand ['3','-','1'] = .ok inner ∧ inner.Subtree (.binary .mul (.const (.ofDigit 4))
      (.binary .sub (.const (.ofDigit 3)) (.const (.ofDigit 1)))) := by
  have accepted : parse Operand ['4','^','1','(','(','2',')','+','3',')'] = .ok (.binary .pow
      (.const (.ofDigit 4)) (.binary .add (.const (.written ⟨false,[1,2],none,none,by decide⟩))
      (.const (.ofDigit 3)))) := by cbv
  have matched : Matches (Text.removeBlanks ['4','^','1','(','(','2',')','+','3',')']) ⟨4,6⟩ :=
    ⟨by decide,by decide,by decide,by decide⟩
  have read : parse Operand ['1','2'] = .ok (.const (.written ⟨false,[1,2],none,none,by decide⟩)) := by cbv
  have accepted' : parse Operand ['4','*','(','(','3','-','1',')',')'] = .ok (.binary .mul (.const (.ofDigit 4))
      (.binary .sub (.const (.ofDigit 3)) (.const (.ofDigit 1)))) := by cbv
  have matched' : Matches (Text.removeBlanks ['4','*','(','(','3','-','1',')',')']) ⟨3,7⟩ :=
    ⟨by decide,by decide,by decide,by decide⟩
  obtain ⟨inner,found,within,_⟩ := parse_joined accepted matched
  rw [show joined (Text.removeBlanks ['4','^','1','(','(','2',')','+','3',')']) ⟨4,6⟩ = ['1','2'] from by decide,
    read] at found
  obtain rfl := Except.ok.inj found
  obtain ⟨inner,_,within',alone⟩ := parse_joined accepted' matched'
  have read' := alone (by decide) (by decide)
  rw [show enclosed (Text.removeBlanks ['4','*','(','(','3','-','1',')',')']) ⟨3,7⟩ = ['3','-','1'] from by decide]
    at read'
  exact ⟨⟨accepted,matched,read,within⟩,accepted',matched',by decide,by decide,inner,read',within'⟩

end Accepted

-- A digit in front of a pair and one inside of it are read as one number, which is no part of
-- what the pair encloses.
theorem brackets_joined : ¬∀ (s : List Char) (tree : Tree Float) (pair : Pair), parse Float s = .ok tree →
    Matches (Text.removeBlanks s) pair →
    ∃ inner, parse Float (enclosed (Text.removeBlanks s) pair) = .ok inner ∧ inner.Subtree tree := by
  intro all
  let two : Literal := .ofDigit 2
  let twelve : Literal := ⟨⟨false,[1,2],none,none,by decide⟩,rfl⟩
  have whole : parse Float ['1','(','2',')'] = .ok (.const (Constant.ofNumeral twelve.toNumeral)) := by
    rw [parse_operands,show parse Operand ['1','(','2',')'] = .ok (.const (.written twelve.toNumeral)) from by cbv]
    rfl
  have part : parse Float ['2'] = .ok (.const (Constant.ofNumeral two.toNumeral)) := by
    rw [parse_operands,show parse Operand ['2'] = .ok (.const (.written two.toNumeral)) from by cbv]
    rfl
  have matched : Matches (Text.removeBlanks ['1','(','2',')']) ⟨1,3⟩ := ⟨by decide,by decide,by decide,by decide⟩
  obtain ⟨inner,read,within⟩ := all _ _ _ whole matched
  rw [show enclosed (Text.removeBlanks ['1','(','2',')']) ⟨1,3⟩ = ['2'] from by decide,part] at read
  obtain rfl := Except.ok.inj read
  have same := congrArg Scalar.word (Tree.const.inj within.const)
  rw [Scalar.word_literal,Scalar.word_literal] at same
  revert same
  decide +kernel

end Reckon
