import Reckon.Proofs.Reading

namespace Reckon

-- The flags say whether a text begins and whether it ends with a missing operand. An operand may
-- be missing, but not on both sides of one operator.
inductive Worded (kind : List Char → Prop) : Bool → Bool → List Char → Prop where
  | missing : Worded kind true true []
  | word {s : List Char} (nonempty : s ≠ []) (plain : Plain s) (given : kind s) : Worded kind false false s
  | bracketed {s : List Char} {first last : Bool} (nonempty : s ≠ []) (body : Worded kind first last s) :
      Worded kind false false ('(' :: (s ++ [')']))
  | operator {s t : List Char} {op : Operator} {first before behind last : Bool}
      (beside : (before && behind) = false) (left : Worded kind first before s) (right : Worded kind behind last t) :
      Worded kind first last (s ++ op.symbol :: t)

namespace Worded
variable {kind : List Char → Prop} {first last : Bool} {s : List Char}

theorem balanced (worded : Worded kind first last s) : Balanced s := by
  induction worded with
  | missing => exact balanced_plain plain_nil
  | word nonempty plain given => exact balanced_plain plain
  | bracketed nonempty body ih => exact ih.bracketed rfl rfl
  | operator beside left right ih ih' => exact ih.operator (glyph_symbol _) ih'

theorem flags_nil (worded : Worded kind first last s) (empty : s = []) : first = true ∧ last = true := by
  cases worded with
  | missing => exact ⟨rfl,rfl⟩
  | word nonempty plain given => exact absurd empty nonempty
  | bracketed nonempty body => cases empty
  | operator beside left right => exact absurd empty (List.append_ne_nil_of_right_ne_nil _ (List.cons_ne_nil _ _))

theorem has_word (worded : Worded kind first last s) (nonempty : s ≠ []) : ∃ word, kind word ∧ word <:+: s := by
  induction worded with
  | missing => exact absurd rfl nonempty
  | @word s _ _ given => exact ⟨s,given,List.infix_refl s⟩
  | @bracketed s _ _ filled _ ih =>
    obtain ⟨word,given,within⟩ := ih filled
    exact ⟨word,given,within.trans ⟨['('],[')'],by simp⟩⟩
  | @operator s t op _ before behind _ beside left right ih ih' =>
    by_cases empty : s = []
    · have noneBefore : before = true := (left.flags_nil empty).2
      have present : t ≠ [] := by
        intro none
        have noneBehind : behind = true := (right.flags_nil none).1
        simp [noneBefore,noneBehind] at beside
      obtain ⟨word,given,within⟩ := ih' present
      exact ⟨word,given,within.trans ⟨s ++ [op.symbol],[],by simp⟩⟩
    · obtain ⟨word,given,within⟩ := ih empty
      exact ⟨word,given,within.trans ⟨[],op.symbol :: t,rfl⟩⟩

theorem divided (worded : Worded kind first last s) {left right : List Char} {op : Operator}
    (parts : s = left ++ op.symbol :: right) (flat : net left = 0) : ∃ before behind,
      (before && behind) = false ∧ Worded kind first before left ∧ Worded kind behind last right := by
  induction worded generalizing left right with
  | missing => simp at parts
  | word nonempty plain given =>
    have other := plain op.symbol (by simp [parts])
    rw [glyph_symbol] at other
    cases other
  | bracketed nonempty body ih =>
    have cut : ⟨left.length,op⟩ ∈ cuts (left ++ op.symbol :: right) :=
      mem_cuts.mpr ⟨left,op.symbol,right,rfl,glyph_symbol op,flat,rfl⟩
    rw [← parts,body.balanced.uncut] at cut
    cases cut
  | @operator s t root first before behind last beside outer inner ih ih' =>
    rcases append_cons_cases parts with ⟨more,same,rfl⟩ | ⟨rfl,_,rfl⟩ | ⟨more,rfl,same⟩
    · obtain ⟨here,there,apart,earlier,later⟩ := ih same flat
      exact ⟨here,there,apart,earlier,later.operator beside inner⟩
    · exact ⟨before,behind,beside,outer,inner⟩
    · have level : net more = 0 := by simpa [outer.balanced.flat,glyph_symbol,Glyph.step] using flat
      obtain ⟨here,there,apart,earlier,later⟩ := ih' same level
      exact ⟨here,there,apart,outer.operator beside earlier,later⟩

theorem undivided (worded : Worded kind first last s) (uncut : cuts s = []) : s = [] ∨ (Plain s ∧ kind s) ∨
    ∃ first last inner, s = '(' :: (inner ++ [')']) ∧ Worded kind first last inner := by
  cases worded with
  | missing => exact .inl rfl
  | word nonempty plain given => exact .inr (.inl ⟨plain,given⟩)
  | bracketed nonempty body => exact .inr (.inr ⟨_,_,_,rfl,body⟩)
  | @operator s t op _ _ _ _ beside left right =>
    have cut : ⟨s.length,op⟩ ∈ cuts (s ++ op.symbol :: t) :=
      mem_cuts.mpr ⟨s,op.symbol,t,rfl,glyph_symbol op,left.balanced.flat,rfl⟩
    rw [uncut] at cut
    cases cut

section Run
variable (α : Type) [Constant α]

theorem read (worded : Worded kind first last s)
    (known : ∀ word, kind word → (∃ n : Literal, n.text = word) ∨ Text.containsDigit word = false) :
    (∃ t, (dissect s).tree α = .ok t) ∨
      ((dissect s).tree α = .error .noDigit ∧ ∃ word, kind word ∧ Text.containsDigit word = false) := by
  induction s using dissect_induction generalizing first last with
  | nil =>
    rw [dissect_nil]
    exact .inl ⟨_,rfl⟩
  | digitless s nonempty none =>
    rw [dissect_digitless nonempty none]
    obtain ⟨word,given,within⟩ := worded.has_word nonempty
    refine .inr ⟨rfl,word,given,?_⟩
    exact List.any_eq_false.mpr fun c member => List.any_eq_false.mp none c (within.subset member)
  | split s cut digit found ihLeft ihRight =>
    obtain ⟨left,c,right,rfl,marked,flat,point⟩ := mem_cuts.mp (outermost_mem found)
    obtain rfl := glyph_operator.mp marked
    obtain ⟨_,_,_,earlier,later⟩ := worded.divided rfl flat
    have front : (left ++ cut.op.symbol :: right).take cut.point = left := by simp [point]
    have back : (left ++ cut.op.symbol :: right).drop (cut.point + 1) = right := by simp [point]
    rw [front] at ihLeft
    rw [back] at ihRight
    rw [dissect_split digit found,front,back]
    rcases ihLeft earlier with ⟨t,first⟩ | ⟨fault,lacking⟩
    · rcases ihRight later with ⟨u,second⟩ | ⟨fault,lacking⟩
      · exact .inl ⟨.binary cut.op t u,by simp [Dissection.tree,first,second]⟩
      · exact .inr ⟨by simp [Dissection.tree,first,fault],lacking⟩
    · exact .inr ⟨by simp [Dissection.tree,fault],lacking⟩
  | stripped s pair digit uncut found ih =>
    rcases worded.undivided (outermost_none.mp uncut) with rfl | ⟨plain,_⟩ | ⟨_,_,inner,rfl,body⟩
    · cases digit
    · cases (outerPair_none (openings_plain plain)).symm.trans found
    · cases (outerPair_enclosed inner rfl rfl).symm.trans found
      rw [dissect_stripped digit uncut found]
      rw [strip_enclosed] at ih ⊢
      exact ih body
  | leaf s digit uncut bare =>
    rcases worded.undivided (outermost_none.mp uncut) with rfl | ⟨_,given⟩ | ⟨_,_,inner,rfl,_⟩
    · cases digit
    · rcases known s given with ⟨n,rfl⟩ | none
      · rw [dissect_leaf digit uncut bare,Dissection.tree,readLeaf,Numeral.ofChars_text]
        exact .inl ⟨_,rfl⟩
      · cases digit.symm.trans none
    · cases (outerPair_enclosed inner rfl rfl).symm.trans bare

end Run
end Worded
end Reckon
