import Mathlib.Data.List.Chain
import Reckon.Proofs.Reading

namespace Reckon

def Glyph.leads : Glyph → Bool
  | opening => true
  | operator _ => true
  | _ => false

def Glyph.follows : Glyph → Bool
  | closing => true
  | operator _ => true
  | _ => false

def Adjacent (x y : Char) : Prop :=
  (glyph y = .opening → (glyph x).leads = true) ∧ (glyph x = .closing → (glyph y).follows = true)

-- Nothing but operators and other brackets stands directly in front of an opening bracket or
-- behind a closing one.
def Clean (s : List Char) : Prop := s.IsChain Adjacent

instance (s : List Char) : Decidable (Clean s) := by
  unfold Clean Adjacent
  infer_instance

inductive Derivation where
  | empty
  | literal (n : Literal)
  | bracketed (body : Derivation)
  | binary (op : Operator) (left right : Derivation)
  deriving DecidableEq

namespace Derivation

def text : Derivation → List Char
  | empty => []
  | literal n => n.text
  | bracketed body => '(' :: (body.text ++ [')'])
  | binary op left right => left.text ++ op.symbol :: right.text

def tree (α : Type) [Constant α] : Derivation → Tree α
  | empty => .const Constant.zero
  | literal n => .const (Constant.ofNumeral n.toNumeral)
  | bracketed body => body.tree α
  | binary op left right => .binary op (left.tree α) (right.tree α)

def hasLiteral : Derivation → Bool
  | empty => false
  | literal _ => true
  | bracketed body => body.hasLiteral
  | binary _ left right => left.hasLiteral || right.hasLiteral

def root? : Derivation → Option Operator
  | binary op _ _ => some op
  | _ => none

-- An operand without brackets of its own binds at least as tightly as the operator that it
-- belongs to. Chains of one operator lean to one side.
def WellFormed : Derivation → Prop
  | empty => True
  | literal _ => True
  | bracketed body => body.hasLiteral = true ∧ body.WellFormed
  | binary op left right =>
    (left.hasLiteral || right.hasLiteral) = true ∧
    (∀ inner ∈ left.root?, op.rank ≤ inner.rank ∧ (inner.rank = op.rank → op ∈ [.sub,.div,.pow])) ∧
    (∀ inner ∈ right.root?, op.rank ≤ inner.rank ∧ (inner.rank = op.rank → op ∈ [.add,.mul])) ∧
    left.WellFormed ∧ right.WellFormed

instance decidableWellFormed : (d : Derivation) → Decidable d.WellFormed
  | empty => isTrue trivial
  | literal _ => isTrue trivial
  | bracketed body =>
    have := decidableWellFormed body
    inferInstanceAs (Decidable (_ ∧ _))
  | binary _ left right =>
    have := decidableWellFormed left
    have := decidableWellFormed right
    inferInstanceAs (Decidable (_ ∧ _ ∧ _ ∧ _ ∧ _))

theorem balanced (d : Derivation) : Balanced d.text := by
  induction d with
  | empty => exact balanced_plain plain_nil
  | literal n => exact balanced_plain n.plain
  | bracketed body ih => exact ih.bracketed rfl rfl
  | binary op left right ih ih' => exact ih.operator (glyph_symbol op) ih'

theorem containsDigit_text (d : Derivation) : Text.containsDigit d.text = d.hasLiteral := by
  induction d with
  | empty => rfl
  | literal n => exact n.containsDigit
  | bracketed body ih => simpa [text,hasLiteral] using (containsDigit_stripped [] body.text []).trans (by simpa using ih)
  | binary op left right ih ih' => rw [text,containsDigit_operator,ih,ih',hasLiteral]

theorem cuts_bracketed (body : Derivation) : cuts (bracketed body).text = [] := body.balanced.uncut

theorem mem_cuts_binary {op : Operator} {left right : Derivation} {cut : Cut} :
    cut ∈ cuts (binary op left right).text ↔ cut ∈ cuts left.text ∨ cut = ⟨left.text.length,op⟩ ∨
      ∃ later ∈ cuts right.text, cut = ⟨later.point + (left.text.length + 1),later.op⟩ :=
  mem_cuts_operator left.balanced.flat (glyph_symbol op)

theorem root_cut {d : Derivation} {op : Operator} (root : op ∈ d.root?) : ∃ point, ⟨point,op⟩ ∈ cuts d.text := by
  cases d with
  | binary op left right =>
    cases root
    exact ⟨left.text.length,mem_cuts_binary.mpr (.inr (.inl rfl))⟩
  | empty => cases root
  | literal n => cases root
  | bracketed body => cases root

theorem root_weakest {d : Derivation} (valid : d.WellFormed) {cut : Cut} (member : cut ∈ cuts d.text) :
    ∃ op ∈ d.root?, op.rank ≤ cut.op.rank := by
  induction d generalizing cut with
  | empty => cases member
  | literal n =>
    rw [text,cuts_plain n.plain] at member
    cases member
  | bracketed body ih =>
    rw [cuts_bracketed] at member
    cases member
  | binary op left right ih ih' =>
    obtain ⟨_,leftRoot,rightRoot,leftValid,rightValid⟩ := valid
    refine ⟨op,rfl,?_⟩
    rcases mem_cuts_binary.mp member with earlier | rfl | ⟨later,present,rfl⟩
    · obtain ⟨inner,root,bound⟩ := ih leftValid earlier
      exact (leftRoot inner root).1.trans bound
    · exact Nat.le_refl _
    · obtain ⟨inner,root,bound⟩ := ih' rightValid present
      exact (rightRoot inner root).1.trans bound

end Derivation

theorem Operator.leans_left {op : Operator} {place other : Nat} (order : other < place) :
    op.signed place ≤ op.signed other ↔ op ∈ [.sub,.div,.pow] := by
  cases op <;> simp only [signed] <;> simp <;> omega

theorem Operator.leans_right {op : Operator} {place other : Nat} (order : place < other) :
    op.signed place ≤ op.signed other ↔ op ∈ [.add,.mul] := by
  cases op <;> simp only [signed] <;> simp <;> omega

theorem Operator.rank_tied {op other : Operator} {tie : Prop} :
    op.rank < other.rank ∨ op = other ∧ tie ↔ op.rank ≤ other.rank ∧ (other.rank = op.rank → tie) := by
  apply Iff.intro
  · intro given
    rcases given with weaker | ⟨rfl,tied⟩
    · exact ⟨Nat.le_of_lt weaker,fun same => absurd same (Nat.ne_of_gt weaker)⟩
    · exact ⟨Nat.le_refl _,fun _ => tied⟩
  · intro given
    obtain ⟨bound,tied⟩ := given
    rcases Nat.lt_or_eq_of_le bound with weaker | same
    · exact .inl weaker
    · exact .inr ⟨rank_injective same,tied same.symm⟩

theorem Cut.key_left {op other : Operator} {place earlier : Nat} (order : earlier < place) :
    Cut.key ⟨place,op⟩ ≤ Cut.key ⟨earlier,other⟩ ↔
      op.rank ≤ other.rank ∧ (other.rank = op.rank → op ∈ [.sub,.div,.pow]) := by
  rw [key_le]
  dsimp only
  rw [Operator.leans_left order]
  exact Operator.rank_tied

theorem Cut.key_right {op other : Operator} {place later : Nat} (order : place < later) :
    Cut.key ⟨place,op⟩ ≤ Cut.key ⟨later,other⟩ ↔
      op.rank ≤ other.rank ∧ (other.rank = op.rank → op ∈ [.add,.mul]) := by
  rw [key_le]
  dsimp only
  rw [Operator.leans_right order]
  exact Operator.rank_tied

theorem Derivation.outermost {op : Operator} {left right : Derivation} (valid : (binary op left right).WellFormed) :
    outermost? (left.text ++ op.symbol :: right.text) = some ⟨left.text.length,op⟩ := by
  obtain ⟨_,leftRoot,rightRoot,leftValid,rightValid⟩ := valid
  refine outermost_exact.mpr ⟨mem_cuts_binary.mpr (.inr (.inl rfl)),?_⟩
  intro other member
  rcases mem_cuts_binary.mp member with earlier | rfl | ⟨later,present,rfl⟩
  · obtain ⟨inner,root,bound⟩ := root_weakest leftValid earlier
    obtain ⟨tight,leaning⟩ := leftRoot inner root
    have before := (cutsFrom_bounds earlier).2
    refine (Cut.key_left (by omega)).mpr ⟨tight.trans bound,?_⟩
    intro same
    exact leaning (Nat.le_antisymm (bound.trans_eq same) tight)
  · exact le_refl _
  · obtain ⟨inner,root,bound⟩ := root_weakest rightValid present
    obtain ⟨tight,leaning⟩ := rightRoot inner root
    refine (Cut.key_right (by omega)).mpr ⟨tight.trans bound,?_⟩
    intro same
    exact leaning (Nat.le_antisymm (bound.trans_eq same) tight)

section Grammar
variable {α : Type} [Constant α]

theorem Derivation.reading {d : Derivation} (valid : d.WellFormed) : ∃ e, Reading α d.text e (d.tree α) := by
  induction d with
  | empty => exact ⟨_,.empty⟩
  | literal n => exact ⟨_,.literal n⟩
  | bracketed body ih =>
    obtain ⟨literal,inner⟩ := valid
    obtain ⟨e,reading⟩ := ih inner
    have digit : Text.containsDigit ([] ++ (body.text ++ [])) = true := by
      simpa [containsDigit_text] using literal
    exact ⟨_,.bracketed plain_nil plain_nil body.balanced digit (by simpa [tree] using reading)⟩
  | binary op left right ih ih' =>
    have outer := outermost valid
    have digit : Text.containsDigit (left.text ++ op.symbol :: right.text) = true :=
      (containsDigit_text (binary op left right)).trans valid.1
    obtain ⟨_,_,_,leftValid,rightValid⟩ := valid
    obtain ⟨_,first⟩ := ih leftValid
    obtain ⟨_,second⟩ := ih' rightValid
    exact ⟨_,.split outer digit first second⟩

theorem clean_bracketed {before inside after : List Char} (plainBefore : Plain before) (plainAfter : Plain after)
    (clean : Clean (before ++ '(' :: (inside ++ ')' :: after))) : before = [] ∧ after = [] ∧ Clean inside := by
  obtain ⟨_,later,front⟩ := List.isChain_append.mp clean
  obtain ⟨inner,last,_⟩ := List.isChain_append.mp (List.isChain_cons.mp later).2
  refine ⟨?_,?_,inner⟩
  · cases nonempty : before.getLast? with
    | none => exact List.getLast?_eq_none_iff.mp nonempty
    | some c =>
      have leading := (front c nonempty '(' rfl).1 rfl
      rw [plainBefore c (List.mem_of_getLast? nonempty)] at leading
      cases leading
  · cases after with
    | nil => rfl
    | cons c rest =>
      have following := ((List.isChain_cons.mp last).1 c rfl).2 rfl
      rw [plainAfter c List.mem_cons_self] at following
      cases following

theorem Reading.derivation {s : List Char} {d : Dissection} {t : Tree α} (reading : Reading α s d t)
    (clean : Clean s) : ∃ e : Derivation, e.WellFormed ∧ e.text = s ∧ e.tree α = t := by
  induction reading with
  | empty => exact ⟨.empty,trivial,rfl,rfl⟩
  | literal n => exact ⟨.literal n,trivial,rfl,rfl⟩
  | @bracketed before inside after d t plainBefore plainAfter inner digit body ih =>
    obtain ⟨rfl,rfl,inside⟩ := clean_bracketed plainBefore plainAfter clean
    simp only [List.nil_append,List.append_nil] at ih digit
    obtain ⟨e,valid,rfl,rfl⟩ := ih inside
    exact ⟨.bracketed e,⟨(e.containsDigit_text).symm.trans digit,valid⟩,rfl,rfl⟩
  | @split left right op d d' t u outer digit first second ih ih' =>
    obtain ⟨e,valid,rfl,rfl⟩ := ih (List.IsChain.left_of_append clean)
    obtain ⟨f,valid',rfl,rfl⟩ := ih' (List.isChain_cons.mp (List.IsChain.right_of_append clean)).2
    have literal := (Derivation.containsDigit_text (.binary op e f)).symm.trans digit
    refine ⟨.binary op e f,⟨literal,?_,?_,valid,valid'⟩,rfl,rfl⟩
    · intro inner root
      obtain ⟨point,member⟩ := Derivation.root_cut root
      have before : point < e.text.length := by simpa using (cutsFrom_bounds member).2
      have least := outermost_least outer (Derivation.mem_cuts_binary.mpr (.inl member))
      exact (Cut.key_left before).mp least
    · intro inner root
      obtain ⟨point,member⟩ := Derivation.root_cut root
      have least := outermost_least outer (Derivation.mem_cuts_binary.mpr (.inr (.inr ⟨_,member,rfl⟩)))
      exact (Cut.key_right (by omega)).mp least

-- Of a text with brackets for grouping only, the trees are those of its derivations.
theorem parse_derivation {s : List Char} (clean : Clean (Text.removeBlanks s)) (tree : Tree α) :
    parse α s = .ok tree ↔
      ∃ d : Derivation, d.WellFormed ∧ d.text = Text.removeBlanks s ∧ d.tree α = tree := by
  apply Iff.intro
  · intro accepted
    exact (parse_reading.mp accepted).derivation clean
  · intro given
    obtain ⟨d,valid,spelled,rfl⟩ := given
    obtain ⟨e,reading⟩ := d.reading (α := α) valid
    rw [spelled] at reading
    exact (reading_complete reading).2 ▸ congrArg _ (reading_complete reading).1

theorem parse_derivation_minus : Clean (Text.removeBlanks ['(','1',' ','-',' ','2',')','*','-','3','^','4']) ∧
    parse Operand ['(','1',' ','-',' ','2',')','*','-','3','^','4'] = .ok (.binary .sub
      (.binary .mul (.binary .sub (.const (.ofDigit 1)) (.const (.ofDigit 2))) (.const .missing))
      (.binary .pow (.const (.ofDigit 3)) (.const (.ofDigit 4)))) := by
  have clean : Clean (Text.removeBlanks ['(','1',' ','-',' ','2',')','*','-','3','^','4']) := by decide +kernel
  refine ⟨clean,(parse_derivation clean _).mpr ⟨.binary .sub
    (.binary .mul (.bracketed (.binary .sub (.literal (.ofDigit 1)) (.literal (.ofDigit 2)))) .empty)
    (.binary .pow (.literal (.ofDigit 3)) (.literal (.ofDigit 4))),?_,?_,rfl⟩⟩
  · decide
  · decide +kernel

end Grammar
end Reckon
