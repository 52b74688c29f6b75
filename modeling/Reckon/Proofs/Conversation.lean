import Reckon.Session
import Reckon.Proofs.Encoding
import Reckon.Proofs.Leaves

namespace Reckon.Session
open Text

section Lines

-- A line ends at its line feed, and only the last one may lack it.
inductive Lines : List UInt8 → List (List UInt8) → Prop where
  | nil : Lines [] []
  | last {line : List UInt8} (nonempty : line ≠ []) (unbroken : 10 ∉ line) : Lines line [line]
  | cons {body rest : List UInt8} {later : List (List UInt8)} (unbroken : 10 ∉ body) (further : Lines rest later) :
      Lines (body ++ 10 :: rest) ((body ++ [10]) :: later)

theorem lines_unbroken {part : List UInt8} (nonempty : part ≠ []) (unbroken : 10 ∉ part) (rest : List UInt8) :
    lines (part ++ rest) = match lines rest with
      | [] => [part]
      | line :: later => (part ++ line) :: later := by
  induction part with
  | nil => exact absurd rfl nonempty
  | cons byte more ih =>
    obtain ⟨other,further⟩ := not_or.mp (mt List.mem_cons.mpr unbroken)
    rw [List.cons_append,lines,if_neg (Ne.symm other)]
    cases more with
    | nil => rfl
    | cons next more =>
      rw [ih (List.cons_ne_nil _ _) further]
      cases lines rest <;> rfl

theorem lines_broken {body : List UInt8} (unbroken : 10 ∉ body) (rest : List UInt8) :
    lines (body ++ 10 :: rest) = (body ++ [10]) :: lines rest := by
  have feed : lines (10 :: rest) = [10] :: lines rest := by rw [lines,if_pos rfl]
  cases body with
  | nil => exact feed
  | cons byte more => rw [lines_unbroken (List.cons_ne_nil _ _) unbroken,feed]

theorem lines_sound (input : List UInt8) : Lines input (lines input) := by
  by_cases broken : 10 ∈ input
  · obtain ⟨body,rest,parts,unbroken⟩ := List.eq_append_cons_of_mem broken
    have shorter : rest.length < input.length := by
      rw [parts,List.length_append,List.length_cons]
      omega
    rw [parts,lines_broken unbroken]
    exact .cons unbroken (lines_sound rest)
  · cases input with
    | nil => exact .nil
    | cons byte more =>
      have whole := lines_unbroken (List.cons_ne_nil byte more) broken []
      rw [List.append_nil] at whole
      rw [whole]
      exact .last (List.cons_ne_nil _ _) broken
termination_by input.length

theorem lines_exact {input : List UInt8} {ls : List (List UInt8)} : Lines input ls ↔ lines input = ls := by
  apply Iff.intro
  · intro cut
    induction cut with
    | nil => rfl
    | last nonempty unbroken => simpa [lines] using lines_unbroken nonempty unbroken []
    | cons unbroken further ih => rw [lines_broken unbroken,ih]
  · rintro rfl
    exact lines_sound input

theorem lines_nil {input : List UInt8} : lines input = [] ↔ input = [] := by
  apply Iff.intro
  · intro none
    cases lines_exact.mpr none
    rfl
  · rintro rfl
    rfl

theorem lines_append (front later : List UInt8) :
    lines (front ++ 10 :: later) = lines (front ++ [10]) ++ lines later := by
  induction front with
  | nil => simp [lines]
  | cons byte more ih =>
    simp only [List.cons_append,lines,ih]
    split
    · rfl
    · cases cut : lines (more ++ [10]) with
      | nil => exact absurd (lines_nil.mp cut) (by simp)
      | cons line further => rfl

theorem encode_unbroken {c : Char} (other : c ≠ '\n') : 10 ∉ String.utf8EncodeChar c := by
  intro member
  by_cases low : c.toNat < 0x80
  · rw [encode_low low] at member
    have same : (10 : UInt8).toNat = c.toNat := by
      rw [List.mem_singleton.mp member,UInt8.toNat_ofNat',Nat.mod_eq_of_lt (by omega)]
    exact other (Char.toNat_inj.mp same.symm)
  · obtain ⟨first,later,parts,start,further⟩ := encode_high (Nat.le_of_not_lt low)
    rw [parts] at member
    rcases List.mem_cons.mp member with rfl | behind
    · exact absurd start (by decide)
    · exact absurd (further 10 behind) (by decide)

theorem lines_octets (s : List Char) : ∃ texts : List (List Char), lines (octets s) = texts.map octets := by
  induction s with
  | nil => exact ⟨[],rfl⟩
  | cons c rest ih =>
    obtain ⟨texts,cut⟩ := ih
    rw [octets_cons]
    by_cases feed : c = '\n'
    · subst feed
      exact ⟨['\n'] :: texts,by rw [List.map_cons,← cut]; rfl⟩
    · have filled : String.utf8EncodeChar c ≠ [] := by
        obtain ⟨first,later,parts,_⟩ := encode_first c
        simp [parts]
      rw [lines_unbroken filled (encode_unbroken feed),cut]
      cases texts with
      | nil => exact ⟨[[c]],by simp [octets]⟩
      | cons text later => exact ⟨(c :: text) :: later,by simp [octets_cons]⟩

end Lines

section Loop

def reach (unread : List UInt8) : Nat :=
  match unread.findIdx? fun byte => byte = 10 with
  | some place => place + 1
  | none => unread.length

-- The input that is not read yet, and the one buffer for the texts of all lines.
structure Console where
  unread : List UInt8
  buffer : List Char

def Console.clear (c : Console) : Console := {c with buffer := []}

-- Bytes that are no text end the conversation.
def Console.read? (c : Console) : Option (Nat × Console) :=
  (ofOctets? (c.unread.take (reach c.unread))).map fun s =>
    (reach c.unread,⟨c.unread.drop (reach c.unread),c.buffer ++ s⟩)

theorem reach_le (unread : List UInt8) : reach unread ≤ unread.length := by
  unfold reach
  split
  · rename_i place found
    exact (List.findIdx?_eq_some_iff_getElem.mp found).1
  · exact Nat.le_refl _

theorem Console.read_shorter {c next : Console} {count : Nat} (found : c.read? = some (count + 1,next)) :
    next.unread.length < c.unread.length := by
  obtain ⟨s,_,same⟩ := Option.map_eq_some_iff.mp found
  obtain ⟨size,rfl⟩ := Prod.mk.inj same
  have bound := reach_le c.unread
  simp only [List.length_drop]
  omega

def Console.converse (c : Console) : Transcript :=
  match _found : c.clear.read? with
  | none => ⟨prompt,1⟩
  | some (0,_) => ⟨prompt,0⟩
  | some (_ + 1,next) =>
    let rest := next.converse
    ⟨prompt ++ (response next.buffer ++ ['\n']) ++ rest.output,rest.code⟩
termination_by c.unread.length
decreasing_by exact Console.read_shorter (c := c.clear) _found

theorem unbroken_find {line : List UInt8} (unbroken : 10 ∉ line) : (line.findIdx? fun byte => byte = 10) = none := by
  rw [List.findIdx?_eq_none_iff]
  intro byte member
  exact decide_eq_false fun same => unbroken (same ▸ member)

theorem reach_unbroken {line : List UInt8} (unbroken : 10 ∉ line) : reach line = line.length := by
  rw [reach,unbroken_find unbroken]

theorem reach_broken {body : List UInt8} (unbroken : 10 ∉ body) (rest : List UInt8) :
    reach ((body ++ [10]) ++ rest) = (body ++ [10]).length := by
  have found : (((body ++ [10]) ++ rest).findIdx? fun byte => byte = 10) = some body.length := by
    simp [List.findIdx?_append,unbroken_find unbroken,List.findIdx?_cons]
  simp only [reach,found,List.length_append,List.length_singleton]

theorem Console.converse_turn (c : Console) : c.converse = match c.clear.read? with
    | none => ⟨prompt,1⟩
    | some (0,_) => ⟨prompt,0⟩
    | some (_ + 1,next) => ⟨prompt ++ (response next.buffer ++ ['\n']) ++ next.converse.output,next.converse.code⟩ := by
  rw [Console.converse]
  split <;> rename_i found <;> rw [found]

theorem Console.converse_line {line rest : List UInt8} (nonempty : line ≠ [])
    (taken : reach (line ++ rest) = line.length) (buffer : List Char) :
    Console.converse ⟨line ++ rest,buffer⟩ = match ofOctets? line with
      | none => ⟨prompt,1⟩
      | some s =>
        let further := Console.converse ⟨rest,s⟩
        ⟨prompt ++ (response s ++ ['\n']) ++ further.output,further.code⟩ := by
  have read : (Console.clear ⟨line ++ rest,buffer⟩).read? = (ofOctets? line).map fun s => (line.length,⟨rest,s⟩) := by
    simp [Console.read?,Console.clear,taken]
  obtain ⟨count,size⟩ := Nat.exists_eq_succ_of_ne_zero (mt List.length_eq_zero_iff.mp nonempty)
  rw [converse_turn,read,size]
  cases ofOctets? line <;> rfl

theorem Console.converse_end (buffer : List Char) : Console.converse ⟨[],buffer⟩ = ⟨prompt,0⟩ := by
  have decoded : ofOctets? [] = some [] := ofOctets_octets []
  have read : (Console.clear ⟨[],buffer⟩).read? = some (0,⟨[],[]⟩) := by
    simp [Console.read?,Console.clear,reach,decoded]
  rw [converse_turn,read]

theorem Console.converse_lines {unread : List UInt8} {ls : List (List UInt8)} (cut : Lines unread ls) (buffer : List Char) :
    Console.converse ⟨unread,buffer⟩ = transcript ls := by
  induction cut generalizing buffer with
  | nil => exact converse_end buffer
  | @last line nonempty unbroken =>
    have taken : reach (line ++ []) = line.length := by rw [List.append_nil,reach_unbroken unbroken]
    have turn := converse_line nonempty taken buffer
    rw [List.append_nil] at turn
    rw [turn,transcript,answer?]
    cases ofOctets? line with
    | none => rfl
    | some s => simp [converse_end,transcript]
  | @cons body rest later unbroken further ih =>
    have parts : body ++ 10 :: rest = (body ++ [10]) ++ rest := by simp
    rw [parts,converse_line (by simp) (reach_broken unbroken rest),transcript,answer?]
    cases ofOctets? (body ++ [10]) with
    | none => rfl
    | some s => simp [ih]

end Loop

section Answers

def OneLine (s : List Char) : Prop := ∀ c ∈ s, c ≠ '\n' ∧ c ≠ '\r'

instance : DecidablePred OneLine := List.decidableBAll _

theorem oneLine_append {s t : List Char} : OneLine (s ++ t) ↔ OneLine s ∧ OneLine t := List.forall_mem_append

theorem oneLine_blankless {s : List Char} (clear : ∀ c ∈ s, isBlank c = false) : OneLine s := by
  intro c member
  constructor
  · rintro rfl
    cases isBlank_lineFeed.symm.trans (clear _ member)
  · rintro rfl
    cases isBlank_carriageReturn.symm.trans (clear _ member)

theorem placesText_oneLine {α : Type} [Scalar α] (count : Nat) (x : α) : OneLine (Scalar.placesText count x) := by
  have sign : OneLine (Scalar.signText x) := oneLine_blankless (Scalar.signText_blankless x)
  unfold Scalar.placesText
  split
  · decide
  · split
    · exact oneLine_append.mpr ⟨sign,by decide⟩
    · rw [← Decimal.literal_text]
      exact oneLine_append.mpr ⟨sign,oneLine_blankless (Literal.blankless _)⟩

theorem message_oneLine {s : List Char} {fault : ParseError} (refused : parse Float s = .error fault) :
    OneLine fault.message := by
  cases fault with
  | noDigit => decide
  | invalidLiteral quoted =>
    have clear : ∀ c ∈ quoted, isBlank c = false := by
      intro c member
      exact removeBlanks_clean ((leaf_sound _ quoted (quoted_leaf refused)).within.subset member)
    exact oneLine_append.mpr ⟨oneLine_append.mpr ⟨by decide,oneLine_blankless clear⟩,by decide⟩

theorem response_oneLine (line : List Char) : OneLine (response line) := by
  unfold response evaluate
  dsimp only
  split
  · decide
  · cases read : parse Float (trim line) with
    | error fault => exact oneLine_append.mpr ⟨by decide,message_oneLine read⟩
    | ok tree => exact placesText_oneLine places tree.eval

end Answers

section Transcript

def answered (texts : List (List Char)) : List Char :=
  texts.flatMap fun line => prompt ++ (response line ++ ['\n'])

theorem transcript_texts (texts : List (List Char)) (rest : List (List UInt8)) : transcript (texts.map octets ++ rest) =
    ⟨answered texts ++ (transcript rest).output,(transcript rest).code⟩ := by
  induction texts with
  | nil => rfl
  | cons line later ih =>
    rw [List.map_cons,List.cons_append,transcript,answer?,ofOctets_octets,ih]
    simp [answered]

theorem transcript_stop {rest : List (List UInt8)} (stop : ∀ line ∈ rest.head?, ∀ s, octets s ≠ line) :
    transcript rest = ⟨prompt,if rest = [] then 0 else 1⟩ := by
  cases rest with
  | nil => rfl
  | cons line later =>
    have none : ofOctets? line = none := by
      rw [Option.eq_none_iff_forall_ne_some]
      intro s decoded
      exact stop line rfl s (ofOctets_exact.mp decoded)
    rw [transcript,answer?,none]
    rfl

theorem texts_first (ls : List (List UInt8)) : ∃ (texts : List (List Char)) (rest : List (List UInt8)),
    ls = texts.map octets ++ rest ∧ ∀ line ∈ rest.head?, ∀ s, octets s ≠ line := by
  induction ls with
  | nil => exact ⟨[],[],rfl,by simp⟩
  | cons line later ih =>
    by_cases text : ∃ s, octets s = line
    · obtain ⟨s,rfl⟩ := text
      obtain ⟨texts,rest,rfl,stop⟩ := ih
      exact ⟨s :: texts,rest,rfl,stop⟩
    · refine ⟨[],line :: later,rfl,?_⟩
      intro first head s same
      exact text ⟨s,same.trans (Option.some.inj head).symm⟩

theorem run_append (s : List Char) : ∃ texts, ∀ later,
    run (octets (s ++ ['\n']) ++ later) = ⟨answered texts ++ (run later).output,(run later).code⟩ := by
  have feed : octets (s ++ ['\n']) = octets s ++ [10] := octets_append s ['\n']
  obtain ⟨texts,cut⟩ := lines_octets (s ++ ['\n'])
  refine ⟨texts,?_⟩
  intro later
  rw [feed] at cut ⊢
  rw [run,List.append_assoc,List.singleton_append,lines_append,cut,transcript_texts]
  rfl

end Transcript

end Reckon.Session
