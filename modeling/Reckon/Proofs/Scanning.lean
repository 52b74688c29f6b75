import Reckon.Parse
import Reckon.Proofs.Encoding
import Reckon.Proofs.Reading

namespace Reckon
open Text

section Search
variable {σ : Type} [Symbolic σ]

def Operator.stands (op : Operator) (s : List σ) (place : Nat) : Bool :=
  (s[place]?.any fun x => glyph x = .operator op) && isTopLevel s place

def Operator.standsFrom (op : Operator) (depth : Int) (s : List σ) (place : Nat) : Bool :=
  (s[place]?.any fun x => glyph x = .operator op) && (depthsFrom depth s)[place]?.all fun depth => depth = 0

theorem Operator.stands_from (op : Operator) (s : List σ) : op.stands s = op.standsFrom 0 s := by
  funext place
  unfold stands standsFrom isTopLevel depths
  cases (depthsFrom 0 s)[place]? <;> rfl

theorem cutsFrom_places (op : Operator) (depth : Int) (place : Nat) (s : List σ) :
    ((cutsFrom depth place s).filter fun cut => cut.op = op).map Cut.point =
      ((List.range s.length).filter (op.standsFrom depth s)).map (place + ·) := by
  induction s generalizing depth place with
  | nil => rfl
  | cons x rest ih =>
    have along (i : Nat) : place + 1 + i = place + (i + 1) := by omega
    have further : op.standsFrom depth (x :: rest) ∘ Nat.succ = op.standsFrom (depth + (glyph x).step) rest := rfl
    rw [List.length_cons,List.range_succ_eq_map,List.filter_cons,List.filter_map,further]
    cases marked : glyph x with
    | operator other =>
      by_cases outside : depth = 0 <;> by_cases same : other = op <;>
        simp [cutsFrom,Operator.standsFrom,depthsFrom,marked,outside,same,ih,Glyph.step,Function.comp_def,along]
    | opening => simp [cutsFrom,Operator.standsFrom,marked,ih,Function.comp_def,along]
    | closing => simp [cutsFrom,Operator.standsFrom,marked,ih,Function.comp_def,along]
    | other => simp [cutsFrom,Operator.standsFrom,marked,ih,Function.comp_def,along]

theorem splitPoint_find (op : Operator) (s : List σ) :
    splitPoint? op s = (op.positions s.length).find? (op.stands s) := by
  have places : ((cuts s).filter fun cut => cut.op = op).map Cut.point = (List.range s.length).filter (op.stands s) := by
    rw [op.stands_from]
    simpa [cuts] using cutsFrom_places op 0 0 s
  unfold splitPoint? Operator.choice? Operator.positions
  rw [← List.head?_filter]
  cases direction : op.scan <;>
    simp only [Direction.order,List.filter_reverse,← places,← List.map_reverse,List.head?_map]

theorem Operator.mem_positions {op : Operator} {length place : Nat} : place ∈ op.positions length ↔ place < length := by
  unfold positions
  cases op.scan <;> simp [Direction.order]

theorem byte_operator {byte : UInt8} {op : Operator} : byte = op.symbol.toUInt8 ↔ glyph byte = .operator op := by
  have read : glyph byte = glyph (Char.ofUInt8 byte) := rfl
  rw [read,glyph_operator]
  apply Iff.intro
  · rintro rfl
    cases op <;> rfl
  · intro same
    have back : (Char.ofUInt8 byte).toUInt8 = byte := UInt8.toUInt8_toUInt32 byte
    rw [← back,same]

end Search

namespace Checked

-- The outer none is a fault wherever it occurs here: a place that is not there, a slice through
-- a character, a text that is no shorter than the one it was taken from.
def seek? (op : Operator) (bytes : List UInt8) : List Nat → Option (Option Nat)
  | [] => some none
  | place :: later => do
    let byte ← bytes[place]?
    if byte = op.symbol.toUInt8 && isTopLevel bytes place then return some place
    seek? op bytes later

def search? (bytes : List UInt8) : List Operator → Option (Option Cut)
  | [] => some none
  | op :: stronger => do
    match ← seek? op bytes (op.positions bytes.length) with
    | some place => return some ⟨place,op⟩
    | none => search? bytes stronger

def operand? (bytes : List UInt8) (first stop : Nat) : Option {part : List UInt8 // part.length < bytes.length} := do
  let part ← slice? bytes first stop
  if shorter : part.length < bytes.length then some ⟨part,shorter⟩ else none

-- Room for all but two bytes is asked for before the brackets go.
def stripped? (bytes : List UInt8) (pair : Pair) : Option {inner : List UInt8 // inner.length + 2 = bytes.length} := do
  if 2 ≤ bytes.length then
    let inner ← strip? bytes pair
    if size : inner.length + 2 = bytes.length then some ⟨inner,size⟩ else none
  else none

section Search

theorem seek_find (op : Operator) {bytes : List UInt8} {places : List Nat}
    (inside : ∀ place ∈ places, place < bytes.length) : seek? op bytes places = some (places.find? (op.stands bytes)) := by
  induction places with
  | nil => rfl
  | cons place later ih =>
    obtain ⟨here,further⟩ := List.forall_mem_cons.mp inside
    have step : seek? op bytes (place :: later) =
        if op.stands bytes place then some (some place) else seek? op bytes later := by
      simp [seek?,Operator.stands,here,byte_operator]
    rw [step,List.find?_cons]
    cases op.stands bytes place with
    | true => rfl
    | false => exact ih further

theorem search_first (bytes : List UInt8) (ops : List Operator) : search? bytes ops =
    some (ops.findSome? fun op => op.choice? (cuts bytes)) := by
  induction ops with
  | nil => rfl
  | cons op stronger ih =>
    have found : seek? op bytes (op.positions bytes.length) = some (splitPoint? op bytes) := by
      rw [seek_find op fun place member => Operator.mem_positions.mp member,splitPoint_find]
    rw [search?,found,splitPoint?,List.findSome?_cons]
    cases chosen : op.choice? (cuts bytes) with
    | none => exact ih
    | some cut =>
      obtain ⟨_,rfl⟩ := Operator.choice_mem chosen
      rfl

theorem search_outermost (bytes : List UInt8) : search? bytes Operator.table = some (outermost? bytes) :=
  search_first bytes Operator.table

end Search

mutual

def call? (α : Type) [Constant α] (bytes : List UInt8) : Option (Except ParseError (Tree α)) := do
  if bytes = [] then return .ok (.const Constant.zero)
  let s ← ofOctets? bytes
  if containsDigit s = false then return .error .noDigit
  round? α bytes
termination_by (bytes.length,1)

def round? (α : Type) [Constant α] (bytes : List UInt8) : Option (Except ParseError (Tree α)) := do
  match ← search? bytes Operator.table with
  | some cut =>
    let left ← operand? bytes 0 cut.point
    match ← call? α left with
    | .error fault => return .error fault
    | .ok first =>
      let right ← operand? bytes (cut.point + 1) bytes.length
      match ← call? α right with
      | .error fault => return .error fault
      | .ok second => return .ok (.binary cut.op first second)
  | none =>
    match outerPair? bytes with
    | some pair => round? α (← stripped? bytes pair)
    | none => return readLeaf α (← ofOctets? bytes)
termination_by (bytes.length,0)

end

section Run
variable {α : Type} [Constant α] {s : List Char}

theorem call_nil : call? α (octets []) = some (.ok (.const Constant.zero)) := by
  have empty : octets [] = [] := rfl
  rw [call?,if_pos empty]
  rfl

theorem call_digitless (nonempty : s ≠ []) (none : containsDigit s = false) :
    call? α (octets s) = some (.error .noDigit) := by
  have bytes : octets s ≠ [] := fun empty => nonempty (octets_nil empty)
  rw [call?,if_neg bytes,ofOctets_octets]
  simp [none]

theorem call_round (digit : containsDigit s = true) : call? α (octets s) = round? α (octets s) := by
  have bytes : octets s ≠ [] := fun empty => nonempty_digit digit (octets_nil empty)
  rw [call?,if_neg bytes,ofOctets_octets]
  simp [digit]

theorem operand_octets {bytes part : List UInt8} {first stop : Nat} (cut : slice? bytes first stop = some part)
    (shorter : part.length < bytes.length) : operand? bytes first stop = some ⟨part,shorter⟩ := by
  simp [operand?,cut,shorter]

theorem round_split {cut : Cut} {left right : Dissection} (found : outermost? s = some cut)
    (first : call? α (octets (s.take cut.point)) = some (left.tree α))
    (second : call? α (octets (s.drop (cut.point + 1))) = some (right.tree α)) :
    round? α (octets s) = some ((Dissection.split cut left right).tree α) := by
  have member := outermost_mem found
  have total : (octets s).length = (octets (s.take cut.point)).length + 1 + (octets (s.drop (cut.point + 1))).length :=
    byteLength_cut member
  have before := operand_octets (left_octets member) (by omega)
  have after := operand_octets (right_octets member) (by omega)
  rw [round?,search_outermost,outermost_octets,found,Dissection.tree]
  simp only [Option.map_some,Option.bind_eq_bind,Option.bind_some,before,first]
  cases left.tree α with
  | error fault => rfl
  | ok value =>
    simp only [after,second,Option.bind_some]
    cases right.tree α <;> rfl

theorem round_stripped {pair : Pair} (uncut : outermost? s = none) (found : outerPair? s = some pair) :
    round? α (octets s) = round? α (octets (strip s pair)) := by
  have size : (octets (strip s pair)).length + 2 = (octets s).length := byteLength_strip found
  have room : 2 ≤ (octets s).length := by omega
  have inner : stripped? (octets s) (pair.encoded s) = some ⟨octets (strip s pair),size⟩ := by
    simp [stripped?,room,strip_octets found,size]
  rw [round?,search_outermost,outermost_octets,uncut]
  simp [outerPair_octets,found,inner]

theorem round_leaf (uncut : outermost? s = none) (bare : outerPair? s = none) :
    round? α (octets s) = some (readLeaf α s) := by
  rw [round?,search_outermost,outermost_octets,uncut]
  simp [outerPair_octets,bare,ofOctets_octets]

-- The second half is about texts that a round starts on, which have a digit.
theorem run_dissect (s : List Char) : call? α (octets s) = some ((dissect s).tree α) ∧
    (containsDigit s = true → round? α (octets s) = some ((dissect s).tree α)) := by
  induction s using dissect_induction with
  | nil =>
    rw [dissect_nil]
    exact ⟨call_nil,fun digit => nomatch digit⟩
  | digitless s nonempty none =>
    rw [dissect_digitless nonempty none]
    exact ⟨call_digitless nonempty none,fun digit => by simp [none] at digit⟩
  | split s cut digit found left right =>
    rw [call_round digit,dissect_split digit found]
    have round := round_split found left.1 right.1
    exact ⟨round,fun _ => round⟩
  | stripped s pair digit uncut found inner =>
    rw [call_round digit,dissect_stripped digit uncut found]
    have round := (round_stripped uncut found).trans (inner.2 (containsDigit_strip found ▸ digit))
    exact ⟨round,fun _ => round⟩
  | leaf s digit uncut bare =>
    rw [call_round digit,dissect_leaf digit uncut bare]
    have round : round? α (octets s) = some (readLeaf α s) := round_leaf uncut bare
    exact ⟨round,fun _ => round⟩

end Run
end Checked

section Texts

inductive Visited (start : List UInt8) : List UInt8 → Prop where
  | start : Visited start start
  | left {bytes part : List UInt8} {cut : Cut} (outer : Visited start bytes) (found : outermost? bytes = some cut)
      (taken : slice? bytes 0 cut.point = some part) : Visited start part
  | right {bytes part : List UInt8} {cut : Cut} (outer : Visited start bytes) (found : outermost? bytes = some cut)
      (taken : slice? bytes (cut.point + 1) bytes.length = some part) : Visited start part
  | stripped {bytes inner : List UInt8} {pair : Pair} (outer : Visited start bytes) (uncut : outermost? bytes = none)
      (found : outerPair? bytes = some pair) (taken : strip? bytes pair = some inner) : Visited start inner

structure Sound (bytes : List UInt8) : Prop where
  encoded : ∃ s, octets s = bytes
  searched : ∀ op : Operator, ∀ place ∈ op.positions bytes.length, place < bytes.length
  divided : ∀ cut, outermost? bytes = some cut → cut.point < bytes.length ∧
    isBoundary bytes cut.point = true ∧ isBoundary bytes (cut.point + 1) = true ∧
    ∃ left right, slice? bytes 0 cut.point = some left ∧ left.length < bytes.length ∧
      slice? bytes (cut.point + 1) bytes.length = some right ∧ right.length < bytes.length
  enclosed : ∀ pair, outerPair? bytes = some pair → pair.opening < pair.closing ∧ pair.closing < bytes.length ∧
    isBoundary bytes pair.opening = true ∧ isBoundary bytes (pair.opening + 1) = true ∧
    isBoundary bytes pair.closing = true ∧ isBoundary bytes (pair.closing + 1) = true ∧
    2 ≤ bytes.length ∧ ∃ inner, strip? bytes pair = some inner ∧ inner.length + 2 = bytes.length

theorem divided_octets {s : List Char} {place : Cut} (found : outermost? (octets s) = some place) :
    ∃ cut ∈ cuts s, cut.encoded s = place := by
  rw [outermost_octets] at found
  obtain ⟨cut,first,same⟩ := Option.map_eq_some_iff.mp found
  exact ⟨cut,outermost_mem first,same⟩

theorem enclosed_octets {s : List Char} {places : Pair} (found : outerPair? (octets s) = some places) :
    ∃ pair, outerPair? s = some pair ∧ pair.encoded s = places := by
  rw [outerPair_octets] at found
  exact Option.map_eq_some_iff.mp found

theorem enclosed_strip {s : List Char} {places : Pair} (found : outerPair? (octets s) = some places) :
    strip? (octets s) places = some (strip (octets s) places) ∧ ∃ t, octets t = strip (octets s) places := by
  obtain ⟨pair,first,rfl⟩ := enclosed_octets found
  have bytes := octets_strip first
  refine ⟨?_,strip s pair,bytes⟩
  rw [← bytes]
  exact strip_octets first

theorem sound_octets (s : List Char) : Sound (octets s) := by
  refine ⟨⟨s,rfl⟩,fun op place member => Operator.mem_positions.mp member,?_,?_⟩
  · intro place found
    obtain ⟨cut,member,rfl⟩ := divided_octets found
    have total : (octets s).length = (octets (s.take cut.point)).length + 1 + (octets (s.drop (cut.point + 1))).length :=
      byteLength_cut member
    have left := left_octets member
    have right := right_octets member
    obtain ⟨_,_,here,_⟩ := slice_exact.mp left
    obtain ⟨bound,next,_⟩ := slice_exact.mp right
    exact ⟨bound,here,next,_,_,left,by omega,right,by omega⟩
  · intro places found
    obtain ⟨pair,first,rfl⟩ := enclosed_octets found
    have size : (octets (strip s pair)).length + 2 = (octets s).length := byteLength_strip first
    have inner := strip_octets first
    obtain ⟨_,_,_,before,between,after,_⟩ := strip_exact.mp inner
    obtain ⟨_,_,opening,_⟩ := slice_exact.mp before
    obtain ⟨order,opened,closing,_⟩ := slice_exact.mp between
    obtain ⟨bound,closed,_⟩ := slice_exact.mp after
    exact ⟨order,bound,opening,opened,closing,closed,by omega,_,inner,size⟩

theorem Visited.encoded {s : List Char} {bytes : List UInt8} (visited : Visited (octets s) bytes) :
    ∃ t, octets t = bytes := by
  induction visited with
  | start => exact ⟨s,rfl⟩
  | left outer found taken ih =>
    obtain ⟨t,rfl⟩ := ih
    obtain ⟨cut,member,rfl⟩ := divided_octets found
    exact ⟨_,Option.some.inj ((left_octets member).symm.trans taken)⟩
  | right outer found taken ih =>
    obtain ⟨t,rfl⟩ := ih
    obtain ⟨cut,member,rfl⟩ := divided_octets found
    exact ⟨_,Option.some.inj ((right_octets member).symm.trans taken)⟩
  | stripped outer uncut found taken ih =>
    obtain ⟨t,rfl⟩ := ih
    obtain ⟨pair,first,rfl⟩ := enclosed_octets found
    exact ⟨_,Option.some.inj ((strip_octets first).symm.trans taken)⟩

-- No step on the bytes of a text can fault, and the run ends as the one on its characters.
theorem parse_octets (α : Type) [Constant α] (s : List Char) :
    (∀ bytes, Visited (octets (removeBlanks s)) bytes → Sound bytes) ∧
      Checked.call? α (octets (removeBlanks s)) = some (parse α s) := by
  refine ⟨?_,(Checked.run_dissect (removeBlanks s)).1⟩
  intro bytes visited
  obtain ⟨t,rfl⟩ := visited.encoded
  exact sound_octets t

theorem parse_octets_arabic : Sound (octets ['٣','-','1']) ∧
    Checked.call? Operand (octets ['2','*','(','٣','-','1',')']) = some (.error (.invalidLiteral ['٣'])) := by
  have read : parse Operand ['2','*','(','٣',' ','-','1',')'] = .error (.invalidLiteral ['٣']) := by cbv
  have bytes : octets (removeBlanks ['2','*','(','٣',' ','-','1',')']) = octets ['2','*','(','٣','-','1',')'] := by decide
  obtain ⟨sound,run⟩ := parse_octets Operand ['2','*','(','٣',' ','-','1',')']
  rw [bytes] at sound run
  refine ⟨sound _ ?_,run.trans (congrArg some read)⟩
  have operand : Visited (octets ['2','*','(','٣','-','1',')']) (octets ['(','٣','-','1',')']) :=
    .right .start (show outermost? _ = some ⟨1,.mul⟩ by decide) (by decide)
  exact .stripped operand (by decide) (show outerPair? _ = some ⟨0,5⟩ by decide) (by decide)

end Texts
end Reckon
