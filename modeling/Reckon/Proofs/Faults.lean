import Reckon.Proofs.Leaves
import Reckon.Proofs.Segments

namespace Reckon

-- What remains of a text when some of its brackets are gone but nothing else is.
inductive Unbracketed : List Char → List Char → Prop where
  | nil : Unbracketed [] []
  | kept {s t : List Char} (c : Char) (rest : Unbracketed s t) : Unbracketed (c :: s) (c :: t)
  | dropped {s t : List Char} {c : Char} (bracket : c = '(' ∨ c = ')') (rest : Unbracketed s t) : Unbracketed (c :: s) t

-- Between two operators or ends of the text. Nothing is asked about what is inside.
def Delimited (s slice : List Char) : Prop := ∃ before after, s = before ++ (slice ++ after) ∧
  (∀ c ∈ before.getLast?, isOperator c = true) ∧ ∀ c ∈ after.head?, isOperator c = true

def Piece (s part : List Char) : Prop := ∃ slice, Delimited s slice ∧ Unbracketed slice part

-- A text that cannot be read, and cannot be taken apart any further either.
inductive Blamed : ParseError → List Char → Prop where
  | noDigit {s : List Char} (nonempty : s ≠ []) (digitless : Text.containsDigit s = false) : Blamed .noDigit s
  | invalidLiteral {s : List Char} (digit : Text.containsDigit s = true) (uncut : outermost? s = none)
      (bare : outerPair? s = none) (unread : Numeral.ofChars? s = none) : Blamed (.invalidLiteral s) s

namespace Unbracketed

theorem refl (s : List Char) : Unbracketed s s := by
  induction s with
  | nil => exact .nil
  | cons c rest ih => exact .kept c ih

theorem append {s t u v : List Char} (first : Unbracketed s t) (second : Unbracketed u v) : Unbracketed (s ++ u) (t ++ v) := by
  induction first with
  | nil => exact second
  | kept c rest ih => exact .kept c ih
  | dropped bracket rest ih => exact .dropped bracket ih

theorem trans {s t u : List Char} (first : Unbracketed s t) (second : Unbracketed t u) : Unbracketed s u := by
  induction first generalizing u with
  | nil => exact second
  | kept c rest ih =>
    cases second with
    | kept _ later => exact .kept c (ih later)
    | dropped bracket later => exact .dropped bracket (ih later)
  | dropped bracket rest ih => exact .dropped bracket (ih second)

theorem divided {s left right : List Char} {c : Char} (bare : Unbracketed s (left ++ c :: right)) :
    ∃ front back, s = front ++ c :: back ∧ Unbracketed front left ∧ Unbracketed back right := by
  generalize parts : left ++ c :: right = t at bare
  induction bare generalizing left with
  | nil => simp at parts
  | kept d rest ih =>
    cases left with
    | nil =>
      obtain ⟨rfl,rfl⟩ := List.cons.inj parts
      exact ⟨[],_,rfl,.nil,rest⟩
    | cons e left =>
      obtain ⟨rfl,later⟩ := List.cons.inj parts
      obtain ⟨front,back,rfl,first,second⟩ := ih later
      exact ⟨e :: front,back,rfl,.kept e first,second⟩
  | dropped bracket rest ih =>
    obtain ⟨front,back,rfl,first,second⟩ := ih parts
    exact ⟨_ :: front,back,rfl,.dropped bracket first,second⟩

theorem sublist {s t : List Char} (bare : Unbracketed s t) : t.Sublist s := by
  induction bare with
  | nil => exact .slnil
  | kept c rest ih => exact ih.cons_cons c
  | dropped bracket rest ih => exact ih.cons _

theorem containsDigit {s t : List Char} (bare : Unbracketed s t) : Text.containsDigit s = Text.containsDigit t := by
  induction bare with
  | nil => rfl
  | kept c rest ih => exact congrArg (Text.isNumeric c || ·) ih
  | dropped bracket rest ih =>
    rcases bracket with rfl | rfl
    · exact ih
    · exact ih

theorem stripped (before inside after : List Char) :
    Unbracketed (before ++ '(' :: (inside ++ ')' :: after)) (before ++ (inside ++ after)) :=
  (refl before).append (.dropped (.inl rfl) ((refl inside).append (.dropped (.inr rfl) (refl after))))

end Unbracketed

namespace Delimited
variable {s : List Char}

theorem whole (s : List Char) : Delimited s s := ⟨[],[],by simp,by simp,by simp⟩

theorem operands {left right : List Char} {op : Operator} (delimited : Delimited s (left ++ op.symbol :: right)) :
    Delimited s left ∧ Delimited s right := by
  obtain ⟨before,after,rfl,front,back⟩ := delimited
  constructor
  · exact ⟨before,op.symbol :: (right ++ after),by simp,front,by simp [isOperator_symbol]⟩
  · exact ⟨before ++ (left ++ [op.symbol]),after,by simp,by simp [isOperator_symbol],back⟩

end Delimited

namespace Piece
variable {s part : List Char}

theorem operands {left right : List Char} {op : Operator} (within : Piece s (left ++ op.symbol :: right)) :
    Piece s left ∧ Piece s right := by
  obtain ⟨slice,delimited,bare⟩ := within
  obtain ⟨front,back,rfl,first,second⟩ := bare.divided
  exact ⟨⟨front,delimited.operands.1,first⟩,⟨back,delimited.operands.2,second⟩⟩

theorem stripped {before inside after : List Char} (within : Piece s (before ++ '(' :: (inside ++ ')' :: after))) :
    Piece s (before ++ (inside ++ after)) := by
  obtain ⟨slice,delimited,bare⟩ := within
  exact ⟨slice,delimited,bare.trans (.stripped before inside after)⟩

theorem subset (within : Piece s part) {c : Char} (member : c ∈ part) : c ∈ s := by
  obtain ⟨slice,⟨before,after,rfl,_,_⟩,bare⟩ := within
  exact List.mem_append_right _ (List.mem_append_left _ (bare.sublist.subset member))

end Piece

section Refused
variable {α : Type} [Constant α]

-- The induction is on the part that a step is about.
theorem fault_part {s part : List Char} (within : Piece s part) {fault : ParseError}
    (failed : (dissect part).tree α = .error fault) : ∃ blamed, Piece s blamed ∧ Blamed fault blamed := by
  induction part using dissect_parts with
  | nil step =>
    rw [step] at failed
    cases failed
  | digitless part nonempty none step =>
    rw [step] at failed
    cases failed
    exact ⟨part,within,.noDigit nonempty none⟩
  | split left op right step ihLeft ihRight =>
    rw [step] at failed
    rcases tree_fault.mp failed with first | ⟨_,_,second⟩
    · exact ihLeft within.operands.1 first
    · exact ihRight within.operands.2 second
  | stripped before inside after step ih =>
    rw [step] at failed
    exact ih within.stripped failed
  | leaf part digit uncut bare step =>
    rw [step,Dissection.tree,readLeaf] at failed
    split at failed
    · cases failed
    · rename_i unread
      cases failed
      exact ⟨part,within,.invalidLiteral digit uncut bare unread⟩

theorem Blamed.refused {s : List Char} {fault : ParseError} (blamed : Blamed fault s) : (dissect s).tree α = .error fault := by
  cases blamed with
  | noDigit nonempty digitless =>
    rw [dissect_digitless nonempty digitless]
    rfl
  | invalidLiteral digit uncut bare unread =>
    rw [dissect_leaf digit uncut bare,Dissection.tree,readLeaf,unread]

-- What is blamed is a part of the text, up to brackets that were taken away, that there is nothing
-- left to do with. Reading it alone blames it again.
theorem parse_faults (s : List Char) :
    (∀ quoted, parse α s = .error (.invalidLiteral quoted) →
      quoted ≠ [] ∧ (∀ c ∈ quoted, Text.isBlank c = false) ∧ Text.containsDigit quoted = true ∧ cuts quoted = [] ∧
      quoted.Pairwise (fun c d => ¬(c = '(' ∧ d = ')')) ∧ quoted ∉ Literal.pattern.matches' ∧
      Numeral.ofChars? quoted = none ∧
      (∃ slice, Delimited (Text.removeBlanks s) slice ∧ Unbracketed slice quoted) ∧
      parse α quoted = .error (.invalidLiteral quoted)) ∧
    (parse α s = .error .noDigit →
      ∃ slice, slice ≠ [] ∧ Delimited (Text.removeBlanks s) slice ∧ Text.containsDigit slice = false) := by
  have whole : Piece (Text.removeBlanks s) (Text.removeBlanks s) := ⟨_,.whole _,.refl _⟩
  constructor
  · intro quoted failed
    obtain ⟨_,within,blamed⟩ := fault_part whole failed
    have refused := blamed.refused (α := α)
    cases blamed with
    | invalidLiteral digit uncut bare unread =>
      have clear : ∀ c ∈ quoted, Text.isBlank c = false := fun c member => Text.removeBlanks_clean (within.subset member)
      refine ⟨nonempty_digit digit,clear,digit,outermost_none.mp uncut,?_,?_,unread,within,?_⟩
      · exact (outerPair_missing.mp bare).imp fun apart => by rwa [glyph_opening,glyph_closing] at apart
      · intro literal
        obtain ⟨n,rfl⟩ := Literal.mem_pattern.mp literal
        cases unread.symm.trans (Numeral.ofChars_text n.toNumeral)
      · rw [parse,Text.removeBlanks_clear clear]
        exact refused
  · intro failed
    obtain ⟨part,⟨slice,delimited,bare⟩,blamed⟩ := fault_part whole failed
    cases blamed with
    | noDigit nonempty digitless =>
      refine ⟨slice,?_,delimited,bare.containsDigit.trans digitless⟩
      rintro rfl
      exact nonempty (List.sublist_nil.mp bare.sublist)

theorem parse_faults_open :
    (parse Operand ['2','*','(','3',')','-','(','(','4','a',')'] = .error (.invalidLiteral ['(','4','a']) ∧
      (∃ slice, Delimited ['2','*','(','3',')','-','(','(','4','a',')'] slice ∧ Unbracketed slice ['(','4','a']) ∧
      parse Operand ['(','4','a'] = .error (.invalidLiteral ['(','4','a'])) ∧
    parse Operand ['1','+','(','a',')','*','2'] = .error .noDigit ∧
      ∃ slice, slice ≠ [] ∧ Delimited ['1','+','(','a',')','*','2'] slice ∧ Text.containsDigit slice = false := by
  have invalid : parse Operand ['2','*','(','3',')','-','(','(','4','a',')'] = .error (.invalidLiteral ['(','4','a']) := by cbv
  have missing : parse Operand ['1','+','(','a',')','*','2'] = .error .noDigit := by cbv
  obtain ⟨_,_,_,_,_,_,_,within,again⟩ := (parse_faults ['2','*','(','3',')','-','(','(','4','a',')']).1 _ invalid
  have lacking := (parse_faults ['1','+','(','a',')','*','2']).2 missing
  rw [show Text.removeBlanks ['2','*','(','3',')','-','(','(','4','a',')'] =
    ['2','*','(','3',')','-','(','(','4','a',')'] from by decide] at within
  rw [show Text.removeBlanks ['1','+','(','a',')','*','2'] = ['1','+','(','a',')','*','2'] from by decide] at lacking
  exact ⟨⟨invalid,within,again⟩,missing,lacking⟩

end Refused
end Reckon
