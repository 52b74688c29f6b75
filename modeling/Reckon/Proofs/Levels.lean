import Reckon.Proofs.Scanning

namespace Reckon
open Text

section Depth
variable {σ : Type} [Symbolic σ]

-- Negative where more brackets were closed than opened.
def depthAt (s : List σ) (place : Nat) : Int := net (s.take (place + 1))

theorem depthsFrom_place (depth : Int) (s : List σ) (place : Nat) :
    (depthsFrom depth s)[place]? = if place < s.length then some (depth + depthAt s place) else none := by
  induction s generalizing depth place with
  | nil => rfl
  | cons x rest ih =>
    cases place with
    | zero => simp [depthsFrom,depthAt]
    | succ place => simp [depthsFrom,ih,depthAt,Int.add_assoc]

theorem isTopLevel_exact {s : List σ} {place : Nat} :
    isTopLevel s place = true ↔ s.length ≤ place ∨ depthAt s place = 0 := by
  unfold isTopLevel depths
  rw [depthsFrom_place]
  by_cases inside : place < s.length
  · simp [inside]
  · simp [inside,Nat.le_of_not_lt inside]

section Parts
variable {s t : List σ} {place : Nat}

theorem depthAt_front (inside : place < s.length) : depthAt (s ++ t) place = depthAt s place := by
  unfold depthAt
  rw [List.take_append_of_le_length inside]

theorem depthAt_back : depthAt (s ++ t) (s.length + place) = net s + depthAt t place := by
  unfold depthAt
  rw [Nat.add_assoc,List.take_length_add_append,net_append]

omit [Symbolic σ] in
theorem getElem?_back : (s ++ t)[s.length + place]? = t[place]? := by
  rw [List.getElem?_append_right (Nat.le_add_right _ _),Nat.add_sub_cancel_left]

theorem depthAt_here {x : σ} : depthAt (s ++ x :: t) s.length = net s + (glyph x).step := by
  have first : depthAt (s ++ x :: t) (s.length + 0) = net s + depthAt (x :: t) 0 := depthAt_back
  simpa [depthAt] using first

theorem depthAt_behind {x : σ} : depthAt (s ++ x :: t) (s.length + 1 + place) =
    net s + (glyph x).step + depthAt t place := by
  have size : s.length + 1 = (s ++ [x]).length := by simp
  rw [List.append_cons,size,depthAt_back,net_append,net_cons,net_nil]
  omega

omit [Symbolic σ] in
theorem getElem?_behind {x : σ} : (s ++ x :: t)[s.length + 1 + place]? = t[place]? := by
  have size : s.length + 1 = (s ++ [x]).length := by simp
  rw [List.append_cons,size,getElem?_back]

end Parts

section Divided
variable {left right : List σ} {x : σ} {op : Operator} {place : Nat}

theorem step_operator (marked : glyph x = .operator op) : (glyph x).step = 0 := by
  rw [marked]
  rfl

theorem isTopLevel_left (inside : place < left.length) :
    isTopLevel left place = isTopLevel (left ++ x :: right) place := by
  rw [Bool.eq_iff_iff,isTopLevel_exact,isTopLevel_exact,depthAt_front inside,List.length_append]
  omega

theorem isTopLevel_right (flat : net left = 0) (marked : glyph x = .operator op) :
    isTopLevel right place = isTopLevel (left ++ x :: right) (left.length + 1 + place) := by
  rw [Bool.eq_iff_iff,isTopLevel_exact,isTopLevel_exact,depthAt_behind,flat,step_operator marked,List.length_append,
    List.length_cons]
  omega

theorem isTopLevel_cut {s : List σ} (here : s[place]? = some x) (marked : glyph x = .operator op)
    (outside : isTopLevel s place = true) : ⟨place,op⟩ ∈ cuts s := by
  obtain ⟨left,right,rfl,rfl⟩ := getElem?_parts here
  rw [isTopLevel_exact,depthAt_here,List.length_append,List.length_cons,step_operator marked] at outside
  exact mem_cuts.mpr ⟨left,x,right,rfl,marked,by omega,rfl⟩

theorem stands_exact {s : List σ} : op.stands s place = true ↔ ⟨place,op⟩ ∈ cuts s := by
  unfold Operator.stands
  rw [Bool.and_eq_true,Option.any_eq_true]
  simp only [decide_eq_true_eq]
  apply Iff.intro
  · intro given
    obtain ⟨⟨x,here,marked⟩,outside⟩ := given
    exact isTopLevel_cut here marked outside
  · intro member
    obtain ⟨left,x,right,rfl,marked,flat,rfl⟩ := mem_cuts.mp member
    refine ⟨⟨x,by simp,marked⟩,?_⟩
    rw [isTopLevel_exact,depthAt_here,flat,step_operator marked]
    exact .inr rfl

end Divided

section Search
variable {left right : List σ} {x : σ} {op other : Operator} {place : Nat}

theorem stands_missing {s : List σ} (missing : splitPoint? op s = none) : op.stands s place = false := by
  rw [Bool.eq_false_iff]
  intro stands
  exact Operator.choice_none (Option.map_eq_none_iff.mp missing) (stands_exact.mp stands) rfl

theorem splitPoint_least {s : List σ} {point : Nat} (found : splitPoint? op s = some point) :
    op.stands s point = true ∧ ∀ place, op.stands s place = true → op.signed point ≤ op.signed place := by
  obtain ⟨cut,chosen,rfl⟩ := Option.map_eq_some_iff.mp found
  obtain ⟨member,rfl⟩ := Operator.choice_mem chosen
  refine ⟨stands_exact.mpr member,?_⟩
  intro place stands
  exact Operator.choice_least (cutsFrom_ascend _ _ _) chosen (stands_exact.mp stands) rfl

theorem stands_left (flat : net left = 0) (marked : glyph x = .operator op) (stands : other.stands left place = true) :
    other.stands (left ++ x :: right) place = true ∧ place < left.length := by
  have member := stands_exact.mp stands
  refine ⟨stands_exact.mpr ((mem_cuts_operator flat marked).mpr (.inl member)),?_⟩
  simpa using (cutsFrom_bounds member).2

theorem stands_right (flat : net left = 0) (marked : glyph x = .operator op) (stands : other.stands right place = true) :
    other.stands (left ++ x :: right) (place + (left.length + 1)) = true :=
  stands_exact.mpr ((mem_cuts_operator flat marked).mpr (.inr (.inr ⟨_,stands_exact.mp stands,rfl⟩)))

theorem stands_weaker (flat : net left = 0) (marked : glyph x = .operator op)
    (missing : splitPoint? other (left ++ x :: right) = none) :
    other.stands left place = false ∧ other.stands right place = false := by
  refine ⟨Bool.eq_false_iff.mpr ?_,Bool.eq_false_iff.mpr ?_⟩
  · intro here
    have again : other.stands (left ++ x :: right) place = true := (stands_left flat marked here).1
    rw [stands_missing missing] at again
    cases again
  · intro here
    have again := stands_right flat marked here
    rw [stands_missing missing] at again
    cases again

theorem stands_searched (flat : net left = 0) (marked : glyph x = .operator op)
    (found : splitPoint? op (left ++ x :: right) = some left.length) :
    match op.scan with
    | .forward => ∀ place, op.stands left place = false
    | .backward => ∀ place, op.stands right place = false := by
  have least := (splitPoint_least found).2
  cases direction : op.scan with
  | forward =>
    intro place
    rw [Bool.eq_false_iff]
    intro here
    obtain ⟨again,before⟩ := stands_left flat marked here
    have order := least _ again
    simp only [Operator.signed_le,direction] at order
    omega
  | backward =>
    intro place
    rw [Bool.eq_false_iff]
    intro here
    have order := least _ (stands_right flat marked here)
    simp only [Operator.signed_le,direction] at order
    omega

end Search

section Stripped

-- Where a unit goes when a pair is taken away that it is not part of.
def Pair.moved (pair : Pair) (place : Nat) : Nat :=
  if place < pair.opening then place
  else if place < pair.closing then place - 1
  else place - 2

theorem depthAt_strip {s : List σ} {pair : Pair} (found : outerPair? s = some pair) {place : Nat}
    (other : place ≠ pair.opening) (other' : place ≠ pair.closing) :
    (strip s pair)[pair.moved place]? = s[place]? ∧ depthAt (strip s pair) (pair.moved place) =
      if pair.opening < place ∧ place < pair.closing then depthAt s place - 1 else depthAt s place := by
  obtain ⟨before,x,inside,y,after,rfl,rfl,opens,closes,_⟩ := outerPair_exact.mp found
  have opened : (glyph x).step = 1 := by rw [opens]; rfl
  have closed : (glyph y).step = -1 := by rw [closes]; rfl
  rw [strip_parts]
  dsimp only [Pair.moved] at other other' ⊢
  rcases Nat.lt_or_ge place before.length with front | beyond
  · rw [if_pos front,if_neg (by omega),depthAt_front front,depthAt_front front,List.getElem?_append_left front,
      List.getElem?_append_left front]
    exact ⟨rfl,rfl⟩
  · obtain ⟨further,rfl⟩ := Nat.exists_eq_add_of_le (show before.length + 1 ≤ place by omega)
    rcases Nat.lt_or_ge further inside.length with inner | outer
    · have less : before.length + 1 + further - 1 = before.length + further := by omega
      rw [if_neg (by omega),if_pos (by omega),if_pos (by omega),less,getElem?_back,getElem?_behind,depthAt_back,
        depthAt_behind,depthAt_front inner,depthAt_front inner,List.getElem?_append_left inner,
        List.getElem?_append_left inner,opened]
      exact ⟨rfl,by omega⟩
    · obtain ⟨last,rfl⟩ := Nat.exists_eq_add_of_le (show inside.length + 1 ≤ further by omega)
      have less : before.length + 1 + (inside.length + 1 + last) - 2 = before.length + (inside.length + last) := by omega
      rw [if_neg (by omega),if_neg (by omega),if_neg (by omega),less,getElem?_back,getElem?_back,getElem?_behind,
        getElem?_behind,depthAt_back,depthAt_back,depthAt_behind,depthAt_behind,opened,closed]
      exact ⟨rfl,by omega⟩

end Stripped
end Depth

theorem cut_slices {e : List Char} {point : Nat} {op : Operator} (member : ⟨point,op⟩ ∈ cuts (octets e)) :
    ∃ left x right, octets e = left ++ x :: right ∧ left.length = point ∧ glyph x = .operator op ∧ net left = 0 ∧
      slice? (octets e) 0 point = some left ∧ slice? (octets e) (point + 1) (octets e).length = some right := by
  have places : cuts (octets e) = (cuts e).map (Cut.encoded e) := cutsFrom_octets 0 [] e
  rw [places] at member
  obtain ⟨cut,inner,same⟩ := List.mem_map.mp member
  rw [← places] at member
  obtain ⟨left,x,right,parts,marked,flat,rfl⟩ := mem_cuts.mp member
  have first := left_octets inner
  have second := right_octets inner
  have front : ((octets e).take left.length).drop 0 = left := by rw [parts]; simp
  have back : ((octets e).take (octets e).length).drop (left.length + 1) = right := by
    rw [List.take_length,parts]
    simp
  rw [same] at first second
  rw [← (slice_exact.mp first).2.2.2,front] at first
  rw [← (slice_exact.mp second).2.2.2,back] at second
  exact ⟨left,x,right,parts,rfl,marked,flat,first,second⟩

-- Both parts of a divided text count on from the level of the operator, which is zero, so that
-- no operator comes up in them that the search would have found before.
theorem depth_octets (e : List Char) :
    (∀ place, isTopLevel (octets e) place = true ↔ (octets e).length ≤ place ∨ depthAt (octets e) place = 0) ∧
    (∀ (op : Operator) (point : Nat), (octets e)[point]? = some op.symbol.toUInt8 → isTopLevel (octets e) point = true →
      ∃ left right, slice? (octets e) 0 point = some left ∧ slice? (octets e) (point + 1) (octets e).length = some right ∧
        (∀ place < point, isTopLevel left place = isTopLevel (octets e) place) ∧
        ∀ place < (octets e).length - point - 1, isTopLevel right place = isTopLevel (octets e) (point + 1 + place)) ∧
    (∀ (op : Operator) (point : Nat), splitPoint? op (octets e) = some point →
      (∀ weaker : Operator, weaker.rank < op.rank → splitPoint? weaker (octets e) = none) →
      ∃ left right, slice? (octets e) 0 point = some left ∧ slice? (octets e) (point + 1) (octets e).length = some right ∧
        (∀ weaker : Operator, weaker.rank < op.rank → ∀ place,
          weaker.stands left place = false ∧ weaker.stands right place = false) ∧
        match op.scan with
        | .forward => ∀ place, op.stands left place = false
        | .backward => ∀ place, op.stands right place = false) ∧
    ∀ pair, outerPair? (octets e) = some pair → ∃ stripped, strip? (octets e) pair = some stripped ∧
      ∀ place < (octets e).length, place ≠ pair.opening → place ≠ pair.closing →
        stripped[pair.moved place]? = (octets e)[place]? ∧ depthAt stripped (pair.moved place) =
          if pair.opening < place ∧ place < pair.closing then depthAt (octets e) place - 1
          else depthAt (octets e) place := by
  refine ⟨fun place => isTopLevel_exact,?_,?_,?_⟩
  · intro op point here outside
    obtain ⟨left,x,right,parts,rfl,marked,flat,first,second⟩ :=
      cut_slices (isTopLevel_cut here (byte_operator.mp rfl) outside)
    refine ⟨left,right,first,second,?_,?_⟩
    · intro place before
      rw [parts]
      exact isTopLevel_left before
    · intro place _
      rw [parts]
      exact isTopLevel_right flat marked
  · intro op point found passed
    obtain ⟨left,x,right,parts,rfl,marked,flat,first,second⟩ := cut_slices (stands_exact.mp (splitPoint_least found).1)
    refine ⟨left,right,first,second,?_,?_⟩
    · intro weaker order place
      have missing := passed weaker order
      rw [parts] at missing
      exact stands_weaker flat marked missing
    · rw [parts] at found
      exact stands_searched flat marked found
  · intro pair found
    refine ⟨_,(enclosed_strip found).1,?_⟩
    intro place bound other other'
    exact depthAt_strip found other other'

theorem depth_octets_open :
    (splitPoint? .sub (octets ['ä','-','(','2','*','3',')','-','4']) = some 8 ∧ ∃ left right,
      slice? (octets ['ä','-','(','2','*','3',')','-','4']) 0 8 = some left ∧
      slice? (octets ['ä','-','(','2','*','3',')','-','4']) 9 10 = some right ∧
      (∀ place < 8, isTopLevel left place = isTopLevel (octets ['ä','-','(','2','*','3',')','-','4']) place) ∧
      Operator.add.stands left 2 = false ∧ Operator.sub.stands right 0 = false) ∧
    outerPair? (octets ['(','(','1',')','+','2']) = some ⟨0,3⟩ ∧ ∃ stripped,
      strip? (octets ['(','(','1',')','+','2']) ⟨0,3⟩ = some stripped ∧ depthAt stripped 0 = 1 ∧ depthAt stripped 2 = 1 := by
  have found : splitPoint? .sub (octets ['ä','-','(','2','*','3',')','-','4']) = some 8 := by decide
  have passed : ∀ weaker : Operator, weaker.rank < Operator.sub.rank →
      splitPoint? weaker (octets ['ä','-','(','2','*','3',')','-','4']) = none := by
    intro weaker
    cases weaker <;> decide
  have pair : outerPair? (octets ['(','(','1',')','+','2']) = some ⟨0,3⟩ := by decide
  obtain ⟨_,levels,parts,_⟩ := depth_octets ['ä','-','(','2','*','3',')','-','4']
  obtain ⟨_,_,_,pairs⟩ := depth_octets ['(','(','1',')','+','2']
  obtain ⟨left,right,first,second,same,_⟩ := levels .sub 8 (by decide) (by decide)
  obtain ⟨left',right',first',second',weaker,backward⟩ := parts .sub 8 found passed
  obtain rfl := Option.some.inj (first.symm.trans first')
  obtain ⟨stripped,taken,places⟩ := pairs ⟨0,3⟩ pair
  refine ⟨⟨found,left,right',first,second',same,(weaker .add (by decide) 2).1,backward 0⟩,pair,stripped,taken,?_,?_⟩
  · exact (places 1 (by decide) (by decide) (by decide)).2
  · exact (places 4 (by decide) (by decide) (by decide)).2

end Reckon
