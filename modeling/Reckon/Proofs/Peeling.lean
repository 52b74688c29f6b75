import Mathlib.Data.List.Count
import Mathlib.Order.UpperLower.Basic
import Reckon.Proofs.Scanning

namespace Reckon
open Text

section Places
variable {σ : Type}

theorem findIdxs_exact {p : σ → Bool} {s : List σ} {number place : Nat} :
    (s.findIdxs p)[number]? = some place ↔ ∃ front x back, s = front ++ x :: back ∧ front.length = place ∧
      p x = true ∧ front.countP p = number := by
  have counted (front back : List σ) (x : σ) (holds : p x = true) :
      ((front ++ x :: back).findIdxs p)[front.countP p]? = some front.length := by
    rw [List.findIdxs_append,List.getElem?_append_right (by simp)]
    simp [holds]
  apply Iff.intro
  · intro found
    obtain ⟨bound,holds⟩ := List.mem_findIdxs_iff_exists_getElem_pos.mp (List.mem_of_getElem? found)
    obtain ⟨front,back,parts,size⟩ := getElem?_parts (List.getElem?_eq_getElem bound)
    have same := counted front back _ holds
    rw [← parts,size,← found] at same
    obtain ⟨inside,_⟩ := List.getElem?_eq_some_iff.mp found
    refine ⟨front,_,back,parts,size,holds,?_⟩
    exact ((List.getElem?_inj inside List.nodup_findIdxs).mp same.symm).symm
  · intro given
    obtain ⟨front,x,back,rfl,rfl,holds,rfl⟩ := given
    exact counted front back x holds

theorem findIdxs_reverse {p : σ → Bool} {s : List σ} {number place : Nat} :
    (s.findIdxs p).reverse[number]? = some place ↔ ∃ front x back, s = front ++ x :: back ∧ front.length = place ∧
      p x = true ∧ back.countP p = number := by
  have total (front back : List σ) (x : σ) (holds : p x = true) :
      back.countP p + front.countP p + 1 = ((front ++ x :: back).findIdxs p).length := by
    simp [holds]
    omega
  apply Iff.intro
  · intro found
    obtain ⟨inside,_⟩ := List.getElem?_eq_some_iff.mp found
    rw [List.length_reverse] at inside
    rw [List.getElem?_reverse inside] at found
    obtain ⟨front,x,back,rfl,size,holds,counted⟩ := findIdxs_exact.mp found
    have whole := total front back x holds
    exact ⟨front,x,back,rfl,size,holds,by omega⟩
  · intro given
    obtain ⟨front,x,back,rfl,rfl,holds,rfl⟩ := given
    rw [List.getElem?_reverse' (total front back x holds)]
    exact findIdxs_exact.mpr ⟨front,x,back,rfl,rfl,holds,rfl⟩

end Places

section Facing
variable {σ : Type} [Symbolic σ]

def openingPlaces (s : List σ) : List Nat := s.findIdxs fun x => glyph x = .opening
def closingPlaces (s : List σ) : List Nat := (s.findIdxs fun x => glyph x = .closing).reverse

-- The brackets with a number, counted from both ends, if they can enclose something.
structure Facing (s : List σ) (number : Nat) (pair : Pair) : Prop where
  first : (openingPlaces s)[number]? = some pair.opening
  last : (closingPlaces s)[number]? = some pair.closing
  order : pair.opening < pair.closing

theorem facing_exact {s : List σ} {number : Nat} {pair : Pair} :
    Facing s number pair ↔ ∃ front x inside y back, s = front ++ x :: (inside ++ y :: back) ∧
      pair = ⟨front.length,front.length + 1 + inside.length⟩ ∧
      glyph x = .opening ∧ glyph y = .closing ∧ openings front = number ∧ closings back = number := by
  apply Iff.intro
  · intro facing
    obtain ⟨opening,closing⟩ := pair
    obtain ⟨first,last,order⟩ := facing
    obtain ⟨front,x,rest,parts,rfl,opens,counted⟩ := findIdxs_exact.mp first
    obtain ⟨more,y,back,parts',rfl,closes,counted'⟩ := findIdxs_reverse.mp last
    rcases append_cons_cases (parts.symm.trans parts') with ⟨w,rfl,_⟩ | ⟨rfl,_⟩ | ⟨inside,rfl,rfl⟩
    · simp only [List.length_append,List.length_cons] at order
      omega
    · simp at order
    · refine ⟨front,x,inside,y,back,parts,?_,by simpa using opens,by simpa using closes,counted,counted'⟩
      simp [Nat.add_comm,Nat.add_left_comm]
  · intro given
    obtain ⟨front,x,inside,y,back,rfl,rfl,opens,closes,counted,counted'⟩ := given
    refine ⟨findIdxs_exact.mpr ⟨front,x,_,rfl,rfl,by simpa using opens,counted⟩,?_,?_⟩
    · refine findIdxs_reverse.mpr ⟨front ++ x :: inside,y,back,by simp,?_,by simpa using closes,counted'⟩
      simp only [List.length_append,List.length_cons]
      omega
    · dsimp only
      omega

theorem Facing.outer {s : List σ} {number lower : Nat} {pair : Pair} (facing : Facing s number pair)
    (order : lower ≤ number) : ∃ outer, Facing s lower outer := by
  rcases Nat.eq_or_lt_of_le order with rfl | less
  · exact ⟨pair,facing⟩
  · obtain ⟨bound,opening⟩ := List.getElem?_eq_some_iff.mp facing.first
    obtain ⟨bound',closing⟩ := List.getElem?_eq_some_iff.mp facing.last
    have ascend : (openingPlaces s).Pairwise (· < ·) := List.pairwise_findIdxs
    have descend : (closingPlaces s).Pairwise (· > ·) := List.pairwise_reverse.mpr List.pairwise_findIdxs
    have left := List.pairwise_iff_getElem.mp ascend lower number (by omega) bound less
    have right := List.pairwise_iff_getElem.mp descend lower number (by omega) bound' less
    have between := facing.order
    refine ⟨⟨(openingPlaces s)[lower],(closingPlaces s)[lower]⟩,⟨?_,?_,?_⟩⟩
    · exact List.getElem?_eq_getElem _
    · exact List.getElem?_eq_getElem _
    · dsimp only
      omega

theorem facing_count (s : List σ) : ∃ count, ∀ number, number < count ↔ ∃ pair, Facing s number pair := by
  have lower : IsLowerSet {number | ∃ pair, Facing s number pair} := by
    intro number below order facing
    obtain ⟨pair,facing⟩ := facing
    exact facing.outer order
  rcases lower.eq_univ_or_Iio with all | ⟨count,initial⟩
  · have beyond : (openingPlaces s).length ∈ {number | ∃ pair, Facing s number pair} := all ▸ Set.mem_univ _
    obtain ⟨pair,facing⟩ := beyond
    simpa using facing.first
  · exact ⟨count,fun number => (Set.ext_iff.mp initial number).symm⟩

end Facing

section Without
variable {σ : Type} [Symbolic σ]

def withoutFirst (g : Glyph) : Nat → List σ → List σ
  | 0,s => s
  | _,[] => []
  | count + 1,x :: rest => if glyph x = g then withoutFirst g count rest else x :: withoutFirst g (count + 1) rest

-- On both sides, whether they match or not.
def withoutOuter (count : Nat) (s : List σ) : List σ :=
  (withoutFirst .closing count (withoutFirst .opening count s).reverse).reverse

def cleared (g : Glyph) (s : List σ) : List σ := s.filter fun x => glyph x ≠ g

theorem mem_cleared {g : Glyph} {s : List σ} {x : σ} (member : x ∈ cleared g s) : glyph x ≠ g := by
  simpa using (List.mem_filter.mp member).2

theorem cleared_count (g : Glyph) (s : List σ) : ((cleared g s).countP fun x => glyph x = g) = 0 := by
  apply List.countP_eq_zero.mpr
  intro x member
  simpa using mem_cleared member

theorem cleared_length (g : Glyph) (s : List σ) : (cleared g s).length + (s.countP fun x => glyph x = g) = s.length := by
  have total := List.length_eq_countP_add_countP (fun x => decide (glyph x = g)) (l := s)
  simp only [decide_eq_true_eq] at total
  rw [cleared,← List.countP_eq_length_filter,total,Nat.add_comm]

theorem withoutFirst_front {g : Glyph} {count : Nat} {front : List σ} (rest : List σ)
    (counted : (front.countP fun x => glyph x = g) = count) :
    withoutFirst g count (front ++ rest) = cleared g front ++ rest := by
  induction front generalizing count with
  | nil =>
    obtain rfl : 0 = count := counted
    simp [withoutFirst,cleared]
  | cons x more ih =>
    by_cases marked : glyph x = g
    · rw [List.countP_cons_of_pos (by simpa using marked)] at counted
      subst counted
      rw [List.cons_append,withoutFirst,if_pos marked,ih rfl]
      simp [cleared,marked]
    · rw [List.countP_cons_of_neg (by simpa using marked)] at counted
      have later := ih counted
      cases count with
      | zero => simpa [withoutFirst,cleared,marked] using later
      | succ count =>
        rw [List.cons_append,withoutFirst,if_neg marked,later]
        simp [cleared,marked]

theorem withoutOuter_zero (s : List σ) : withoutOuter 0 s = s := by simp [withoutOuter,withoutFirst]

theorem withoutOuter_parts {count : Nat} {front back : List σ} (middle : List σ) (opened : openings front = count)
    (closed : closings back = count) :
    withoutOuter count (front ++ (middle ++ back)) = cleared .opening front ++ (middle ++ cleared .closing back) := by
  have reversed : (cleared .opening front ++ (middle ++ back)).reverse =
      back.reverse ++ (cleared .opening front ++ middle).reverse := by simp
  have counted : (back.reverse.countP fun x => glyph x = .closing) = count := by
    rw [List.countP_reverse]
    exact closed
  unfold withoutOuter
  rw [withoutFirst_front _ opened,reversed,withoutFirst_front _ counted]
  simp [cleared]

end Without

section Steps
variable {σ : Type} [Symbolic σ] {s : List σ} {number : Nat} {pair : Pair}

theorem Facing.step (facing : Facing s number pair) : number ≤ pair.opening ∧
    outerPair? (withoutOuter number s) = some ⟨pair.opening - number,pair.closing - number⟩ ∧
    strip (withoutOuter number s) ⟨pair.opening - number,pair.closing - number⟩ = withoutOuter (number + 1) s := by
  obtain ⟨front,x,inside,y,back,rfl,rfl,opens,closes,opened,closed⟩ := facing_exact.mp facing
  have size : (cleared .opening front).length + number = front.length := by
    rw [← opened]
    exact cleared_length .opening front
  have here : withoutOuter number (front ++ x :: (inside ++ y :: back)) =
      cleared .opening front ++ x :: (inside ++ y :: cleared .closing back) := by
    simpa using withoutOuter_parts (x :: (inside ++ [y])) opened closed
  have next : withoutOuter (number + 1) (front ++ x :: (inside ++ y :: back)) =
      cleared .opening front ++ (inside ++ cleared .closing back) := by
    have opened' : openings (front ++ [x]) = number + 1 := by simpa [openings,opens] using opened
    have closed' : closings (y :: back) = number + 1 := by simpa [closings,closes] using closed
    simpa [cleared,opens,closes] using withoutOuter_parts inside opened' closed'
  have moved : (⟨front.length - number,front.length + 1 + inside.length - number⟩ : Pair) =
      ⟨(cleared .opening front).length,(cleared .opening front).length + 1 + inside.length⟩ := by
    congr 1 <;> omega
  dsimp only
  rw [here,next,moved]
  refine ⟨by omega,?_,strip_parts _ _ _ _ _⟩
  exact outerPair_exact.mpr ⟨_,x,inside,y,_,rfl,rfl,opens,closes,cleared_count _ _,cleared_count _ _⟩

theorem facing_parts {count : Nat} (facing : ∀ number, number < count → ∃ pair, Facing s number pair) :
    ∃ front middle back, s = front ++ (middle ++ back) ∧ openings front = count ∧ closings back = count := by
  cases count with
  | zero => exact ⟨[],s,[],by simp,rfl,rfl⟩
  | succ count =>
    obtain ⟨pair,inner⟩ := facing count (Nat.lt_succ_self count)
    obtain ⟨front,x,inside,y,back,rfl,_,opens,closes,opened,closed⟩ := facing_exact.mp inner
    refine ⟨front ++ [x],inside,y :: back,by simp,?_,?_⟩
    · simpa [openings,opens] using opened
    · simpa [closings,closes] using closed

theorem facing_middle {count : Nat} {front middle back : List σ} (opened : openings front = count)
    (closed : closings back = count) (found : outerPair? middle = some pair) :
    ∃ further, Facing (front ++ (middle ++ back)) count further := by
  obtain ⟨before,x,inside,y,after,rfl,_,opens,closes,noOpening,noClosing⟩ := outerPair_exact.mp found
  have opened' : openings (front ++ before) = count := by
    unfold openings at *
    rw [List.countP_append,opened,noOpening,Nat.add_zero]
  have closed' : closings (after ++ back) = count := by
    unfold closings at *
    rw [List.countP_append,noClosing,closed,Nat.zero_add]
  exact ⟨_,facing_exact.mpr ⟨front ++ before,x,inside,y,after ++ back,by simp,rfl,opens,closes,opened',closed'⟩⟩

theorem withoutOuter_last {count : Nat} (facing : ∀ number, number < count ↔ ∃ pair, Facing s number pair) :
    (withoutOuter count s).Pairwise fun x y => ¬(glyph x = .opening ∧ glyph y = .closing) := by
  obtain ⟨front,middle,back,rfl,opened,closed⟩ := facing_parts fun number => (facing number).mp
  have bare : outerPair? middle = none := by
    apply Option.eq_none_iff_forall_ne_some.mpr
    intro pair found
    exact absurd ((facing count).mpr (facing_middle opened closed found)) (Nat.lt_irrefl count)
  rw [withoutOuter_parts middle opened closed]
  refine List.pairwise_append.mpr ⟨?_,List.pairwise_append.mpr ⟨outerPair_missing.mp bare,?_,?_⟩,?_⟩
  · exact List.pairwise_of_forall_mem_list fun x member y _ marked => mem_cleared member marked.1
  · exact List.pairwise_of_forall_mem_list fun x _ y member marked => mem_cleared member marked.2
  · exact fun x _ y member marked => mem_cleared member marked.2
  · exact fun x member y _ marked => mem_cleared member marked.1

end Steps

section Run
variable {σ : Type} [Symbolic σ]

theorem stripChain_none {s : List σ} (bare : outerPair? s = none) : stripChain s = [] := by
  rw [stripChain]
  split
  · rfl
  · rename_i pair found
    rw [bare] at found
    cases found

theorem stripChain_some {s : List σ} {pair : Pair} (found : outerPair? s = some pair) :
    stripChain s = (pair,strip s pair) :: stripChain (strip s pair) := by
  rw [stripChain]
  split
  · rename_i missing
    rw [found] at missing
    cases missing
  · rename_i other same
    rw [found] at same
    cases same
    rfl

theorem stripChain_run (texts : Nat → List σ) (pairs : Nat → Pair) {count : Nat}
    (step : ∀ number < count, outerPair? (texts number) = some (pairs number) ∧
      strip (texts number) (pairs number) = texts (number + 1))
    (last : outerPair? (texts count) = none) :
    stripChain (texts 0) = (List.range count).map fun number => (pairs number,texts (number + 1)) := by
  induction count generalizing texts pairs with
  | zero => exact stripChain_none last
  | succ count ih =>
    obtain ⟨found,next⟩ := step 0 (Nat.succ_pos count)
    have later := ih (fun number => texts (number + 1)) (fun number => pairs (number + 1))
      (fun number order => step (number + 1) (Nat.succ_lt_succ order)) last
    rw [stripChain_some found,next,later,List.range_succ_eq_map]
    simp

def movedPair (s : List σ) (number : Nat) : Pair :=
  ⟨(openingPlaces s).getD number 0 - number,(closingPlaces s).getD number 0 - number⟩

theorem Facing.moved {s : List σ} {number : Nat} {pair : Pair} (facing : Facing s number pair) :
    movedPair s number = ⟨pair.opening - number,pair.closing - number⟩ := by
  simp [movedPair,List.getD,facing.first,facing.last]

-- From the given text to the one that the loop ends with.
def stripTexts (s : List σ) : List (List σ) := s :: (stripChain s).map Prod.snd

theorem stripChain_facing {s : List σ} {count : Nat} (facing : ∀ number, number < count ↔ ∃ pair, Facing s number pair) :
    stripChain s = (List.range count).map fun number => (movedPair s number,withoutOuter (number + 1) s) := by
  have step (number : Nat) (order : number < count) :
      outerPair? (withoutOuter number s) = some (movedPair s number) ∧
        strip (withoutOuter number s) (movedPair s number) = withoutOuter (number + 1) s := by
    obtain ⟨pair,inner⟩ := (facing number).mp order
    rw [inner.moved]
    exact inner.step.2
  have run := stripChain_run (fun number => withoutOuter number s) (movedPair s) step
    (outerPair_missing.mpr (withoutOuter_last facing))
  rw [withoutOuter_zero] at run
  exact run

theorem stripTexts_facing {s : List σ} {count : Nat} (facing : ∀ number, number < count ↔ ∃ pair, Facing s number pair) :
    stripTexts s = (List.range (count + 1)).map fun number => withoutOuter number s := by
  rw [stripTexts,stripChain_facing facing,List.range_succ_eq_map]
  simp [withoutOuter_zero]

end Run

section Texts

theorem withoutOuter_encoded {e : List Char} {count : Nat}
    (facing : ∀ number, number < count → ∃ pair, Facing (octets e) number pair) :
    ∃ t, octets t = withoutOuter count (octets e) := by
  induction count with
  | zero => exact ⟨e,(withoutOuter_zero _).symm⟩
  | succ count ih =>
    obtain ⟨t,here⟩ := ih fun number order => facing number (Nat.lt_succ_of_lt order)
    obtain ⟨pair,next⟩ := facing count (Nat.lt_succ_self count)
    obtain ⟨_,found,left⟩ := next.step
    rw [← here] at found left
    rw [← left]
    exact (enclosed_strip found).2

-- The first opening goes with the last closing one and so on, as long as the next two face each
-- other.
theorem stripChain_closed (e : List Char) :
    (∀ number, number < (stripChain (octets e)).length ↔ ∃ pair, Facing (octets e) number pair) ∧
    (∀ number pair, Facing (octets e) number pair → number ≤ pair.opening ∧
      (stripTexts (octets e))[number]? = some (withoutOuter number (octets e)) ∧
      outerPair? (withoutOuter number (octets e)) = some ⟨pair.opening - number,pair.closing - number⟩ ∧
      strip? (withoutOuter number (octets e)) ⟨pair.opening - number,pair.closing - number⟩ =
        some (withoutOuter (number + 1) (octets e)) ∧
      (stripChain (octets e))[number]? =
        some (⟨pair.opening - number,pair.closing - number⟩,withoutOuter (number + 1) (octets e))) ∧
    (stripTexts (octets e)).getLast? = some (withoutOuter (stripChain (octets e)).length (octets e)) ∧
    (∃ t, octets t = withoutOuter (stripChain (octets e)).length (octets e)) ∧
    (withoutOuter (stripChain (octets e)).length (octets e)).Pairwise
      fun x y => ¬(glyph x = .opening ∧ glyph y = .closing) := by
  obtain ⟨count,facing⟩ := facing_count (octets e)
  have chain := stripChain_facing facing
  have texts := stripTexts_facing facing
  have length : (stripChain (octets e)).length = count := by rw [chain]; simp
  rw [length]
  refine ⟨facing,?_,?_,withoutOuter_encoded fun number => (facing number).mp,withoutOuter_last facing⟩
  · intro number pair inner
    have order : number < count := (facing number).mpr ⟨pair,inner⟩
    obtain ⟨bound,found,left⟩ := inner.step
    obtain ⟨t,here⟩ := withoutOuter_encoded fun lower less => (facing lower).mp (Nat.lt_trans less order)
    refine ⟨bound,?_,found,?_,?_⟩
    · simp [texts,Nat.lt_succ_of_lt order]
    · rw [← left,← here]
      rw [← here] at found
      exact (enclosed_strip found).1
    · simp [chain,order,inner.moved]
  · simp [texts,List.range_succ]

theorem stripChain_closed_unbalanced :
    Facing (octets [')','ä','(','(','1',')','(',')']) 1 ⟨4,6⟩ ∧
    (stripChain (octets [')','ä','(','(','1',')','(',')']))[1]? = some (⟨3,5⟩,octets [')','ä','1','(']) ∧
    strip? (octets [')','ä','(','1',')','(']) ⟨3,5⟩ = some (octets [')','ä','1','(']) := by
  have facing : Facing (octets [')','ä','(','(','1',')','(',')']) 1 ⟨4,6⟩ := ⟨by decide,by decide,by decide⟩
  have before : withoutOuter 1 (octets [')','ä','(','(','1',')','(',')']) = octets [')','ä','(','1',')','('] := by decide
  have after : withoutOuter 2 (octets [')','ä','(','(','1',')','(',')']) = octets [')','ä','1','('] := by decide
  obtain ⟨_,_,_,stripped,step⟩ := (stripChain_closed [')','ä','(','(','1',')','(',')']).2.1 1 ⟨4,6⟩ facing
  rw [before,after] at stripped
  rw [after] at step
  exact ⟨facing,step,stripped⟩

end Texts
end Reckon
