import Mathlib.Data.Prod.Lex
import Reckon.Proofs.Balance

namespace Reckon
variable {σ : Type} [Symbolic σ]

-- From the weakest operator to the tightest.
def Operator.rank : Operator → Nat
  | .add => 0
  | .sub => 1
  | .mul => 2
  | .div => 3
  | .pow => 4

-- Of several places of one operator the one with the least number is preferred.
def Operator.signed : Operator → Nat → Int
  | .add,place => place
  | .sub,place => -place
  | .mul,place => place
  | .div,place => -place
  | .pow,place => -place

def Cut.key (cut : Cut) : Nat ×ₗ Int := toLex (cut.op.rank,cut.op.signed cut.point)

structure Mark where
  depth : Int
  cut : Cut
  deriving DecidableEq

def Mark.key (mark : Mark) : Int ×ₗ (Nat ×ₗ Int) := toLex (mark.depth,mark.cut.key)

def marksFrom (depth : Int) (place : Nat) : List σ → List Mark
  | [] => []
  | x :: rest =>
    match glyph x with
    | .operator op => ⟨depth,⟨place,op⟩⟩ :: marksFrom depth (place + 1) rest
    | mark => marksFrom (depth + mark.step) (place + 1) rest

def marks (s : List σ) : List Mark := marksFrom 0 0 s

theorem Operator.table_ranked : table.Pairwise fun op later => op.rank < later.rank := by decide

theorem Operator.rank_injective {op other : Operator} (same : op.rank = other.rank) : op = other := by
  revert same
  cases op <;> cases other <;> decide

theorem Cut.key_le {cut other : Cut} : cut.key ≤ other.key ↔
    cut.op.rank < other.op.rank ∨ cut.op = other.op ∧ cut.op.signed cut.point ≤ cut.op.signed other.point := by
  unfold key
  rw [Prod.Lex.toLex_le_toLex]
  apply Iff.intro
  · intro given
    rcases given with weaker | ⟨same,order⟩
    · exact .inl weaker
    · have equal := Operator.rank_injective same
      exact .inr ⟨equal,by simpa only [equal] using order⟩
  · intro given
    rcases given with weaker | ⟨equal,order⟩
    · exact .inl weaker
    · exact .inr ⟨congrArg Operator.rank equal,by simpa only [equal] using order⟩

theorem Operator.signed_injective {op : Operator} {place other : Nat}
    (same : op.signed place = op.signed other) : place = other := by
  cases op <;> simp only [signed] at same <;> omega

theorem Cut.key_injective {cut other : Cut} (same : cut.key = other.key) : cut = other := by
  obtain ⟨point,op⟩ := cut
  obtain ⟨point',op'⟩ := other
  have parts := Prod.mk.inj (toLex.injective same)
  obtain rfl := Operator.rank_injective parts.1
  obtain rfl := Operator.signed_injective parts.2
  rfl

section Marks

theorem marksFrom_append (depth : Int) (place : Nat) (s t : List σ) :
    marksFrom depth place (s ++ t) =
      marksFrom depth place s ++ marksFrom (depth + net s) (place + s.length) t := by
  induction s generalizing depth place with
  | nil => simp [marksFrom]
  | cons x rest ih =>
    have along : place + 1 + rest.length = place + (x :: rest).length := by
      simp only [List.length_cons]
      omega
    cases marked : glyph x <;>
      simp [marksFrom,marked,ih,along,Glyph.step,Int.add_assoc]

theorem marksFrom_plain (depth : Int) (place : Nat) {s : List σ} (plain : Plain s) :
    marksFrom depth place s = [] := by
  induction s generalizing depth place with
  | nil => rfl
  | cons x rest ih =>
    obtain ⟨here,later⟩ := plain_cons.mp plain
    simp [marksFrom,here,ih _ _ later]

def Mark.shift (deeper : Int) (further : Nat) (mark : Mark) : Mark :=
  ⟨mark.depth + deeper,⟨mark.cut.point + further,mark.cut.op⟩⟩

theorem marksFrom_shift (depth deeper : Int) (place further : Nat) (s : List σ) :
    marksFrom (depth + deeper) (place + further) s = (marksFrom depth place s).map (Mark.shift deeper further) := by
  induction s generalizing depth place with
  | nil => rfl
  | cons x rest ih =>
    have along : place + further + 1 = place + 1 + further := by omega
    have down (step : Int) : depth + deeper + step = depth + step + deeper := by omega
    cases marked : glyph x <;> simp [marksFrom,marked,along,down,ih,Mark.shift]

theorem marksFrom_start (depth : Int) (place : Nat) (s : List σ) :
    marksFrom depth place s = (marks s).map (Mark.shift depth place) := by
  simpa [marks] using marksFrom_shift 0 depth 0 place s

theorem Mark.shift_lt {deeper : Int} {further : Nat} {mark other : Mark} :
    (mark.shift deeper further).key < (other.shift deeper further).key ↔ mark.key < other.key := by
  obtain ⟨depth,point,op⟩ := mark
  obtain ⟨depth',point',op'⟩ := other
  simp only [key,Cut.key,shift,Prod.Lex.toLex_lt_toLex]
  have along (same : op.rank = op'.rank) : op.signed (point + further) < op'.signed (point' + further) ↔
      op.signed point < op'.signed point' := by
    obtain rfl := Operator.rank_injective same
    cases op <;> simp only [Operator.signed] <;> omega
  apply Iff.intro
  · intro given
    rcases given with outer | ⟨level,weaker | ⟨same,order⟩⟩
    · exact .inl (by omega)
    · exact .inr ⟨by omega,.inl weaker⟩
    · exact .inr ⟨by omega,.inr ⟨same,(along same).mp order⟩⟩
  · intro given
    rcases given with outer | ⟨level,weaker | ⟨same,order⟩⟩
    · exact .inl (by omega)
    · exact .inr ⟨by omega,.inl weaker⟩
    · exact .inr ⟨by omega,.inr ⟨same,(along same).mpr order⟩⟩

theorem mem_marksFrom {depth : Int} {place : Nat} {s : List σ} {mark : Mark} :
    mark ∈ marksFrom depth place s ↔ ∃ front x back, s = front ++ x :: back ∧
      glyph x = .operator mark.cut.op ∧ mark.depth = depth + net front ∧ mark.cut.point = place + front.length := by
  apply Iff.intro
  · intro member
    induction s generalizing depth place with
    | nil => cases member
    | cons x rest ih =>
      have later (member : mark ∈ marksFrom (depth + (glyph x).step) (place + 1) rest) :
          ∃ front y back, x :: rest = front ++ y :: back ∧ glyph y = .operator mark.cut.op ∧
            mark.depth = depth + net front ∧ mark.cut.point = place + front.length := by
        obtain ⟨front,y,back,rfl,marked,level,point⟩ := ih member
        refine ⟨x :: front,y,back,rfl,marked,?_,?_⟩
        · rw [net_cons]
          omega
        · simp only [List.length_cons]
          omega
      cases marked : glyph x with
      | operator op =>
        simp only [marksFrom,marked] at member
        rcases List.mem_cons.mp member with rfl | old
        · exact ⟨[],x,rest,rfl,marked,by simp,rfl⟩
        · exact later (by simpa [marked,Glyph.step] using old)
      | opening => exact later (by simpa [marksFrom,marked] using member)
      | closing => exact later (by simpa [marksFrom,marked] using member)
      | other => exact later (by simpa [marksFrom,marked] using member)
  · intro given
    obtain ⟨front,x,back,rfl,marked,level,point⟩ := given
    obtain ⟨_,_,_⟩ := mark
    simp only at marked level point
    rw [marksFrom_append]
    simp [marksFrom,marked,level,point]

theorem mem_marks {s : List σ} {mark : Mark} :
    mark ∈ marks s ↔ ∃ front x back, s = front ++ x :: back ∧
      glyph x = .operator mark.cut.op ∧ mark.depth = net front ∧ mark.cut.point = front.length := by
  unfold marks
  rw [mem_marksFrom]
  simp only [Int.zero_add,Nat.zero_add]

theorem marks_operator {s t : List σ} {x : σ} {op : Operator} (flat : net s = 0)
    (marked : glyph x = .operator op) :
    marks (s ++ x :: t) = marks s ++ ⟨0,⟨s.length,op⟩⟩ :: (marks t).map (Mark.shift 0 (s.length + 1)) := by
  unfold marks
  rw [marksFrom_append,flat]
  simp [marksFrom,marked,marksFrom_start 0 (s.length + 1) t,marks]

theorem marks_bracketed {before inside after : List σ} {x y : σ} (plainBefore : Plain before)
    (plainAfter : Plain after) (opens : glyph x = .opening) (closes : glyph y = .closing) :
    marks (before ++ x :: (inside ++ y :: after)) =
      (marks (before ++ (inside ++ after))).map (Mark.shift 1 1) := by
  unfold marks
  simp only [marksFrom_append,marksFrom_plain _ _ plainBefore,marksFrom_plain _ _ plainAfter,marksFrom,
    opens,closes,net_plain plainBefore,Glyph.step,List.nil_append,List.append_nil]
  rw [← marksFrom_shift]

theorem marks_nonnegative {s : List σ} (balanced : Balanced s) {mark : Mark} (member : mark ∈ marks s) :
    0 ≤ mark.depth := by
  obtain ⟨front,x,back,rfl,_,level,_⟩ := mem_marks.mp member
  have bound := balanced.low front (List.prefix_append front _)
  omega

end Marks

section Cuts

theorem cutsFrom_marks (depth : Int) (place : Nat) (s : List σ) :
    cutsFrom depth place s = ((marksFrom depth place s).filter fun mark => mark.depth = 0).map Mark.cut := by
  induction s generalizing depth place with
  | nil => rfl
  | cons x rest ih =>
    cases marked : glyph x with
    | operator op => by_cases outside : depth = 0 <;> simp [cutsFrom,marksFrom,marked,outside,ih]
    | opening => simp [cutsFrom,marksFrom,marked,ih]
    | closing => simp [cutsFrom,marksFrom,marked,ih]
    | other => simp [cutsFrom,marksFrom,marked,ih]

theorem cut_marked {s : List σ} {cut : Cut} : cut ∈ cuts s ↔ ⟨0,cut⟩ ∈ marks s := by
  unfold cuts marks
  rw [cutsFrom_marks]
  apply Iff.intro
  · intro member
    obtain ⟨⟨depth,_⟩,kept,rfl⟩ := List.mem_map.mp member
    obtain ⟨present,outside⟩ := List.mem_filter.mp kept
    obtain rfl : depth = 0 := by simpa using outside
    exact present
  · intro member
    exact List.mem_map.mpr ⟨_,List.mem_filter.mpr ⟨member,by simp⟩,rfl⟩

theorem mem_cuts {s : List σ} {cut : Cut} : cut ∈ cuts s ↔ ∃ front x back, s = front ++ x :: back ∧
    glyph x = .operator cut.op ∧ net front = 0 ∧ cut.point = front.length := by
  rw [cut_marked,mem_marks]
  apply Iff.intro
  · intro given
    obtain ⟨front,x,back,parts,marked,level,point⟩ := given
    exact ⟨front,x,back,parts,marked,level.symm,point⟩
  · intro given
    obtain ⟨front,x,back,parts,marked,level,point⟩ := given
    exact ⟨front,x,back,parts,marked,level.symm,point⟩

theorem cuts_operator {s t : List σ} {x : σ} {op : Operator} (flat : net s = 0) (marked : glyph x = .operator op) :
    cuts (s ++ x :: t) = cuts s ++ ⟨s.length,op⟩ :: (cuts t).map fun cut => ⟨cut.point + (s.length + 1),cut.op⟩ := by
  have same (s : List σ) : cuts s = ((marks s).filter fun mark => mark.depth = 0).map Mark.cut := cutsFrom_marks 0 0 s
  rw [same,same,same,marks_operator flat marked]
  simp [List.filter_map,Function.comp_def,Mark.shift]

theorem mem_cuts_operator {s t : List σ} {x : σ} {op : Operator} {cut : Cut} (flat : net s = 0)
    (marked : glyph x = .operator op) : cut ∈ cuts (s ++ x :: t) ↔
      cut ∈ cuts s ∨ cut = ⟨s.length,op⟩ ∨ ∃ later ∈ cuts t, cut = ⟨later.point + (s.length + 1),later.op⟩ := by
  rw [cuts_operator flat marked]
  simp [eq_comm]

theorem cuts_plain {s : List σ} (plain : Plain s) : cuts s = [] := by
  unfold cuts
  rw [cutsFrom_marks,marksFrom_plain _ _ plain]
  rfl

theorem cutsFrom_ascend (depth : Int) (place : Nat) (s : List σ) :
    (cutsFrom depth place s).Pairwise fun cut later => cut.point < later.point := by
  induction s generalizing depth place with
  | nil => exact .nil
  | cons x rest ih =>
    unfold cutsFrom
    split
    · split
      · refine .cons ?_ (ih _ _)
        intro later member
        exact (cutsFrom_bounds member).1
      · exact ih _ _
    · exact ih _ _

theorem Operator.signed_le {op : Operator} {place other : Nat} : op.signed place ≤ op.signed other ↔
    match op.scan with
    | .forward => place ≤ other
    | .backward => other ≤ place := by
  cases op <;> simp only [signed,scan] <;> omega

theorem Operator.choice_none {op : Operator} {places : List Cut} (missing : op.choice? places = none)
    {cut : Cut} (member : cut ∈ places) : cut.op ≠ op := by
  intro same
  have kept : cut ∈ places.filter fun cut => cut.op = op := List.mem_filter.mpr ⟨member,by simpa using same⟩
  unfold choice? at missing
  cases direction : op.scan <;> simp only [direction,Direction.order,List.head?_reverse] at missing
  · rw [List.head?_eq_none_iff.mp missing] at kept
    cases kept
  · rw [List.getLast?_eq_none_iff.mp missing] at kept
    cases kept

theorem Operator.choice_least {op : Operator} {places : List Cut} {cut other : Cut}
    (ascending : places.Pairwise fun cut later => cut.point < later.point)
    (chosen : op.choice? places = some cut) (member : other ∈ places) (same : other.op = op) :
    op.signed cut.point ≤ op.signed other.point := by
  have kept : other ∈ places.filter fun cut => cut.op = op := List.mem_filter.mpr ⟨member,by simpa using same⟩
  have ordered := ascending.filter fun cut => decide (cut.op = op)
  unfold choice? at chosen
  rw [signed_le]
  cases direction : op.scan <;> simp only [direction,Direction.order,List.head?_reverse] at chosen ⊢
  · obtain ⟨rest,parts⟩ := List.head?_eq_some_iff.mp chosen
    rw [parts] at kept ordered
    rcases List.mem_cons.mp kept with rfl | later
    · exact Nat.le_refl _
    · exact Nat.le_of_lt (List.rel_of_pairwise_cons ordered later)
  · obtain ⟨front,parts⟩ := List.getLast?_eq_some_iff.mp chosen
    rw [parts] at kept ordered
    rcases List.mem_append.mp kept with earlier | last
    · exact Nat.le_of_lt ((List.pairwise_append.mp ordered).2.2 other earlier cut List.mem_cons_self)
    · rw [List.mem_singleton.mp last]

theorem outermost_none {s : List σ} : outermost? s = none ↔ cuts s = [] := by
  unfold outermost?
  dsimp only
  rw [List.findSome?_eq_none_iff]
  apply Iff.intro
  · intro missing
    apply List.eq_nil_iff_forall_not_mem.mpr
    intro cut member
    exact Operator.choice_none (missing cut.op (Operator.mem_table cut.op)) member rfl
  · intro empty op _
    cases direction : op.scan <;> simp [empty,Operator.choice?,Direction.order,direction]

theorem outermost_least {s : List σ} {cut other : Cut} (found : outermost? s = some cut)
    (member : other ∈ cuts s) : cut.key ≤ other.key := by
  unfold outermost? at found
  dsimp only at found
  obtain ⟨weaker,op,stronger,table,chosen,passed⟩ := List.findSome?_eq_some_iff.mp found
  obtain ⟨_,rfl⟩ := Operator.choice_mem chosen
  have inside := Operator.mem_table other.op
  have ranked := Operator.table_ranked
  rw [table] at inside ranked
  rw [Cut.key_le]
  rcases List.mem_append.mp inside with early | reached
  · exact absurd rfl (Operator.choice_none (passed other.op early) member)
  · rcases List.mem_cons.mp reached with same | later
    · exact .inr ⟨same.symm,Operator.choice_least (cutsFrom_ascend _ _ _) chosen member same⟩
    · exact .inl (List.rel_of_pairwise_cons (List.pairwise_append.mp ranked).2.1 later)

theorem outermost_exact {s : List σ} {cut : Cut} :
    outermost? s = some cut ↔ cut ∈ cuts s ∧ ∀ other ∈ cuts s, cut.key ≤ other.key := by
  apply Iff.intro
  · intro found
    exact ⟨outermost_mem found,fun other member => outermost_least found member⟩
  · intro given
    obtain ⟨member,least⟩ := given
    cases found : outermost? s with
    | none =>
      rw [outermost_none.mp found] at member
      cases member
    | some first =>
      have below := outermost_least found member
      have above := least first (outermost_mem found)
      rw [Cut.key_injective (le_antisymm below above)]

end Cuts
end Reckon
