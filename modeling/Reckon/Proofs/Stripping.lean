import Reckon.Proofs.Balance

namespace Reckon
variable {σ : Type} [Symbolic σ]

def enclosed (s : List σ) (pair : Pair) : List σ := (s.take pair.closing).drop (pair.opening + 1)

omit [Symbolic σ] in
theorem findIdx_exact {p : σ → Bool} {s : List σ} {place : Nat} :
    s.findIdx? p = some place ↔ ∃ front x back, s = front ++ x :: back ∧ front.length = place ∧
      p x = true ∧ front.countP p = 0 := by
  apply Iff.intro
  · intro found
    obtain ⟨bound,holds,first⟩ := List.findIdx?_eq_some_iff_getElem.mp found
    refine ⟨s.take place,s[place],s.drop (place + 1),by simp,by simp; omega,holds,?_⟩
    apply List.countP_eq_zero.mpr
    intro x member
    obtain ⟨earlier,order,rfl⟩ := List.mem_take_iff_getElem.mp member
    exact first earlier (by omega)
  · intro given
    obtain ⟨front,x,back,rfl,rfl,holds,absent⟩ := given
    have passed : front.findIdx? p = none := by
      apply List.findIdx?_eq_none_iff.mpr
      intro y member
      simpa using List.countP_eq_zero.mp absent y member
    simp [passed,List.findIdx?_cons,holds]

theorem firstOpening_exact {s : List σ} {place : Nat} :
    firstOpening? s = some place ↔ ∃ before x rest, s = before ++ x :: rest ∧ before.length = place ∧
      glyph x = .opening ∧ openings before = 0 := by
  unfold firstOpening? openings
  rw [findIdx_exact]
  simp only [decide_eq_true_eq]

theorem lastClosing_exact {s : List σ} {place : Nat} :
    lastClosing? s = some place ↔ ∃ front y after, s = front ++ y :: after ∧ front.length = place ∧
      glyph y = .closing ∧ closings after = 0 := by
  unfold lastClosing? closings
  apply Iff.intro
  · intro found
    obtain ⟨back,reversed,rfl⟩ := Option.map_eq_some_iff.mp found
    obtain ⟨after,y,front,parts,rfl,marked,absent⟩ := findIdx_exact.mp reversed
    have whole : s = front.reverse ++ y :: after.reverse := by
      rw [← List.reverse_reverse s,parts]
      simp
    refine ⟨front.reverse,y,after.reverse,whole,?_,by simpa using marked,by rw [List.countP_reverse]; exact absent⟩
    rw [whole]
    simp only [List.length_append,List.length_cons,List.length_reverse]
    omega
  · intro given
    obtain ⟨front,y,after,rfl,rfl,marked,absent⟩ := given
    refine Option.map_eq_some_iff.mpr ⟨after.length,?_,?_⟩
    · refine findIdx_exact.mpr ⟨after.reverse,y,front.reverse,by simp,by simp,by simpa using marked,?_⟩
      rw [List.countP_reverse]
      exact absent
    · simp only [List.length_append,List.length_cons]
      omega

theorem outerPair_exact {s : List σ} {pair : Pair} :
    outerPair? s = some pair ↔ ∃ before x inside y after, s = before ++ x :: (inside ++ y :: after) ∧
      pair = ⟨before.length,before.length + 1 + inside.length⟩ ∧
      glyph x = .opening ∧ glyph y = .closing ∧ openings before = 0 ∧ closings after = 0 := by
  unfold outerPair?
  apply Iff.intro
  · intro found
    split at found
    · rename_i opening closing first last
      split at found
      · rename_i order
        cases Option.some.inj found
        obtain ⟨before,x,rest,parts,rfl,opens,noOpening⟩ := firstOpening_exact.mp first
        obtain ⟨front,y,after,rfl,rfl,closes,noClosing⟩ := lastClosing_exact.mp last
        rcases List.append_eq_append_iff.mp parts with ⟨more,longer,_⟩ | ⟨more,longer,tail⟩
        · rw [longer,List.length_append] at order
          omega
        · cases more with
          | nil =>
            rw [longer,List.append_nil] at order
            omega
          | cons z inside =>
            obtain ⟨rfl,_⟩ := List.cons.inj tail
            refine ⟨before,x,inside,y,after,by simp [longer],?_,opens,closes,noOpening,noClosing⟩
            simp [longer,Nat.add_comm,Nat.add_left_comm]
      · cases found
    · cases found
  · intro given
    obtain ⟨before,x,inside,y,after,rfl,rfl,opens,closes,noOpening,noClosing⟩ := given
    have first : firstOpening? (before ++ x :: (inside ++ y :: after)) = some before.length :=
      firstOpening_exact.mpr ⟨before,x,inside ++ y :: after,rfl,rfl,opens,noOpening⟩
    have last : lastClosing? (before ++ x :: (inside ++ y :: after)) =
        some (before.length + 1 + inside.length) := by
      refine lastClosing_exact.mpr ⟨before ++ x :: inside,y,after,by simp,?_,closes,noClosing⟩
      simp only [List.length_append,List.length_cons]
      omega
    have order : before.length < before.length + 1 + inside.length := by omega
    simp [first,last,order]

theorem outerPair_none {s : List σ} (noOpening : openings s = 0) : outerPair? s = none := by
  cases found : outerPair? s with
  | none => rfl
  | some pair =>
    obtain ⟨before,x,inside,y,after,rfl,_,opens,_⟩ := outerPair_exact.mp found
    simp [openings,opens] at noOpening

theorem outerPair_missing {s : List σ} :
    outerPair? s = none ↔ s.Pairwise fun x y => ¬(glyph x = .opening ∧ glyph y = .closing) := by
  apply Iff.intro
  · intro missing
    refine List.pairwise_iff_forall_sublist.mpr fun {x y} ordered marked => ?_
    obtain ⟨front,back,rfl,opening,closing⟩ := List.cons_sublist_iff.mp ordered
    cases first : firstOpening? front with
    | none => simpa [marked.1] using List.findIdx?_eq_none_iff.mp first x opening
    | some place =>
      cases last : lastClosing? back with
      | none =>
        have absent := List.findIdx?_eq_none_iff.mp (Option.map_eq_none_iff.mp last) y
        simp [List.singleton_sublist.mp closing,marked.2] at absent
      | some place' =>
        obtain ⟨before,z,rest,rfl,_,opens,noOpening⟩ := firstOpening_exact.mp first
        obtain ⟨rest',w,after,rfl,_,closes,noClosing⟩ := lastClosing_exact.mp last
        have parts : before ++ z :: rest ++ (rest' ++ w :: after) = before ++ z :: (rest ++ rest' ++ w :: after) := by simp
        cases missing.symm.trans (outerPair_exact.mpr ⟨_,_,_,_,_,parts,rfl,opens,closes,noOpening,noClosing⟩)
  · intro apart
    cases found : outerPair? s with
    | none => rfl
    | some pair =>
      obtain ⟨before,x,inside,y,after,rfl,_,opens,closes,_⟩ := outerPair_exact.mp found
      have later := (List.pairwise_cons.mp (List.pairwise_append.mp apart).2.1).1
      exact absurd ⟨opens,closes⟩ (later y (by simp))

section Parts
variable (before inside after : List σ) (x y : σ)

omit [Symbolic σ] in
theorem strip_parts : strip (before ++ x :: (inside ++ y :: after))
    ⟨before.length,before.length + 1 + inside.length⟩ = before ++ (inside ++ after) := by
  have last : before.length + 1 + inside.length - before.length = inside.length + 1 := by omega
  unfold strip
  dsimp only
  rw [List.eraseIdx_append_of_length_le (by omega),last,List.eraseIdx_cons_succ,
    List.eraseIdx_append_of_length_le (Nat.le_refl _),Nat.sub_self,List.eraseIdx_cons_zero,
    List.eraseIdx_append_of_length_le (Nat.le_refl _),Nat.sub_self,List.eraseIdx_cons_zero]

omit [Symbolic σ] in
theorem enclosed_parts : enclosed (before ++ x :: (inside ++ y :: after))
    ⟨before.length,before.length + 1 + inside.length⟩ = inside := by
  have front : before ++ x :: (inside ++ y :: after) = (before ++ x :: inside) ++ y :: after := by simp
  have size : (before ++ x :: inside).length = before.length + 1 + inside.length := by
    simp only [List.length_append,List.length_cons]
    omega
  unfold enclosed
  dsimp only
  rw [front,← size,List.take_left]
  simp

end Parts

section Enclosed
variable {x y : σ} (inner : List σ)

theorem outerPair_enclosed (opens : glyph x = .opening) (closes : glyph y = .closing) :
    outerPair? (x :: (inner ++ [y])) = some ⟨0,1 + inner.length⟩ :=
  outerPair_exact.mpr ⟨[],x,inner,y,[],rfl,by simp,opens,closes,rfl,rfl⟩

omit [Symbolic σ] in
theorem strip_enclosed : strip (x :: (inner ++ [y])) ⟨0,1 + inner.length⟩ = inner := by
  simpa using strip_parts [] inner [] x y

end Enclosed
end Reckon
