import Reckon.Glyph

namespace Reckon
variable {σ : Type} [Symbolic σ]

def depthsFrom (depth : Int) : List σ → List Int
  | [] => []
  | x :: rest => (depth + (glyph x).step) :: depthsFrom (depth + (glyph x).step) rest

def depths (s : List σ) : List Int := depthsFrom 0 s

-- An opening bracket is already inside, and a place beyond the end is outside.
def isTopLevel (s : List σ) (position : Nat) : Bool :=
  match (depths s)[position]? with
  | some depth => depth = 0
  | none => true

structure Cut where
  point : Nat
  op : Operator
  deriving DecidableEq

def cutsFrom (depth : Int) (place : Nat) : List σ → List Cut
  | [] => []
  | x :: rest =>
    match glyph x with
    | .operator op =>
      if depth = 0 then ⟨place,op⟩ :: cutsFrom depth (place + 1) rest
      else cutsFrom depth (place + 1) rest
    | mark => cutsFrom (depth + mark.step) (place + 1) rest

def cuts (s : List σ) : List Cut := cutsFrom 0 0 s

def Operator.choice? (op : Operator) (places : List Cut) : Option Cut :=
  (op.scan.order (places.filter fun cut => cut.op = op)).head?

def splitPoint? (op : Operator) (s : List σ) : Option Nat :=
  (op.choice? (cuts s)).map Cut.point

def outermost? (s : List σ) : Option Cut :=
  let places := cuts s
  Operator.table.findSome? fun op => op.choice? places

theorem cutsFrom_bounds {depth : Int} {place : Nat} {s : List σ} {cut : Cut}
    (member : cut ∈ cutsFrom depth place s) : place ≤ cut.point ∧ cut.point < place + s.length := by
  induction s generalizing depth place with
  | nil => simp [cutsFrom] at member
  | cons x rest ih =>
    unfold cutsFrom at member
    split at member
    · split at member
      · rcases List.mem_cons.mp member with rfl | later
        · simp
        · have bounds := ih later
          simp only [List.length_cons]; omega
      · have bounds := ih member
        simp only [List.length_cons]; omega
    · have bounds := ih member
      simp only [List.length_cons]; omega

theorem Operator.choice_mem {op : Operator} {places : List Cut} {cut : Cut}
    (chosen : op.choice? places = some cut) : cut ∈ places ∧ cut.op = op := by
  have member := List.mem_of_mem_head? chosen
  have kept : cut ∈ places.filter fun cut => cut.op = op := by
    cases h : op.scan <;> simpa [Direction.order,h] using member
  simpa using kept

theorem outermost_mem {s : List σ} {cut : Cut} (found : outermost? s = some cut) : cut ∈ cuts s := by
  unfold outermost? at found
  obtain ⟨op,_,chosen⟩ := List.exists_of_findSome?_eq_some found
  exact (Operator.choice_mem chosen).1

theorem outermost_lt {s : List σ} {cut : Cut} (found : outermost? s = some cut) :
    cut.point < s.length := by
  have bounds := cutsFrom_bounds (outermost_mem found)
  omega

structure Pair where
  opening : Nat
  closing : Nat
  deriving DecidableEq

def firstOpening? (s : List σ) : Option Nat :=
  s.findIdx? fun x => glyph x = .opening

def lastClosing? (s : List σ) : Option Nat :=
  (s.reverse.findIdx? fun x => glyph x = .closing).map fun back => s.length - 1 - back

-- The two are not checked to match, only to stand in this order.
def outerPair? (s : List σ) : Option Pair :=
  match firstOpening? s,lastClosing? s with
  | some opening,some closing => if opening < closing then some ⟨opening,closing⟩ else none
  | _,_ => none

def strip (s : List σ) (pair : Pair) : List σ :=
  (s.eraseIdx pair.closing).eraseIdx pair.opening

omit [Symbolic σ] in
theorem strip_length {s : List σ} {pair : Pair} (order : pair.opening < pair.closing)
    (bound : pair.closing < s.length) : (strip s pair).length + 2 = s.length := by
  have inner : (s.eraseIdx pair.closing).length = s.length - 1 := List.length_eraseIdx_of_lt bound
  have both : (strip s pair).length = (s.eraseIdx pair.closing).length - 1 :=
    List.length_eraseIdx_of_lt (by omega)
  omega

theorem outerPair_bounds {s : List σ} {pair : Pair} (found : outerPair? s = some pair) :
    pair.opening < pair.closing ∧ pair.closing < s.length := by
  unfold outerPair? at found
  split at found
  · rename_i opening closing first last
    split at found
    · rename_i order
      cases found
      refine ⟨order,?_⟩
      unfold lastClosing? at last
      obtain ⟨back,place,rfl⟩ := Option.map_eq_some_iff.mp last
      obtain ⟨bound,_⟩ := List.findIdx?_eq_some_iff_getElem.mp place
      simp only [List.length_reverse] at bound
      dsimp only
      omega
    · cases found
  · cases found

theorem strip_shorter {s : List σ} {pair : Pair} (found : outerPair? s = some pair) :
    (strip s pair).length < s.length := by
  obtain ⟨order,bound⟩ := outerPair_bounds found
  have size := strip_length order bound
  omega

def stripChain (s : List σ) : List (Pair × List σ) :=
  match _found : outerPair? s with
  | none => []
  | some pair => (pair,strip s pair) :: stripChain (strip s pair)
termination_by s.length
decreasing_by exact strip_shorter _found

end Reckon
