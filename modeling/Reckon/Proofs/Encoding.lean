import Reckon.Proofs.Marks
import Reckon.Proofs.Stripping

namespace Reckon
open Text

section Characters

theorem special_low {c : Char} (special : glyph c ≠ .other) : c.toNat < 0x80 := by
  cases marked : glyph c with
  | opening => rw [glyph_opening.mp marked]; decide
  | closing => rw [glyph_closing.mp marked]; decide
  | operator op => rw [glyph_operator.mp marked]; cases op <;> decide
  | other => exact absurd marked special

theorem encode_low {c : Char} (low : c.toNat < 0x80) : String.utf8EncodeChar c = [UInt8.ofNat c.toNat] :=
  if_pos (Nat.le_of_lt_succ low)

theorem glyph_low {c : Char} (low : c.toNat < 0x80) : glyph (UInt8.ofNat c.toNat) = glyph c := by
  have value : (Char.ofUInt8 (UInt8.ofNat c.toNat)).toNat = c.toNat := by
    calc (Char.ofUInt8 (UInt8.ofNat c.toNat)).toNat
      _ = (UInt8.ofNat c.toNat).toNat := UInt8.toNat_toUInt32 _
      _ = c.toNat % 2 ^ 8 := UInt8.toNat_ofNat'
      _ = c.toNat := Nat.mod_eq_of_lt (by omega)
  exact congrArg glyph (Char.toNat_inj.mp value)

theorem glyph_high {byte : UInt8} (high : 0x80 ≤ byte.toNat) : glyph byte = .other := by
  by_contra special
  have value : (Char.ofUInt8 byte).toNat = byte.toNat := UInt8.toNat_toUInt32 byte
  have low : (Char.ofUInt8 byte).toNat < 0x80 := special_low special
  omega

theorem toNat_ofNat_ge {low n : Nat} (above : low ≤ n) (bound : n < 0x100) : low ≤ (UInt8.ofNat n).toNat := by
  rw [UInt8.toNat_ofNat',Nat.mod_eq_of_lt bound]
  exact above

theorem encode_high {c : Char} (high : 0x80 ≤ c.toNat) : ∃ first later, String.utf8EncodeChar c = first :: later ∧
    0xC0 ≤ first.toNat ∧ ∀ byte ∈ later, 0x80 ≤ byte.toNat := by
  have above : ¬c.val.toNat ≤ 0x7f := Nat.not_le_of_lt high
  have tail (n : Nat) : 0x80 ≤ (UInt8.ofNat (n % 64 + 128)).toNat := toNat_ofNat_ge (by omega) (by omega)
  unfold String.utf8EncodeChar
  simp only [if_neg above]
  split
  · exact ⟨_,_,rfl,toNat_ofNat_ge (by omega) (by omega),List.forall_mem_singleton.mpr (tail _)⟩
  · split
    · exact ⟨_,_,rfl,toNat_ofNat_ge (by omega) (by omega),
        List.forall_mem_cons.mpr ⟨tail _,List.forall_mem_singleton.mpr (tail _)⟩⟩
    · exact ⟨_,_,rfl,toNat_ofNat_ge (by omega) (by omega),
        List.forall_mem_cons.mpr ⟨tail _,List.forall_mem_cons.mpr ⟨tail _,List.forall_mem_singleton.mpr (tail _)⟩⟩⟩

theorem encode_first (c : Char) : ∃ first later, String.utf8EncodeChar c = first :: later ∧
    (first < 0x80 ∨ 0xC0 ≤ first) := by
  by_cases low : c.toNat < 0x80
  · refine ⟨_,_,encode_low low,.inl ?_⟩
    rw [UInt8.lt_iff_toNat_lt,UInt8.toNat_ofNat',Nat.mod_eq_of_lt (by omega)]
    exact low
  · obtain ⟨first,later,parts,start,_⟩ := encode_high (Nat.le_of_not_lt low)
    exact ⟨first,later,parts,.inr (UInt8.le_iff_toNat_le.mpr start)⟩

theorem encode_special {c : Char} (special : glyph c ≠ .other) :
    ∃ byte, String.utf8EncodeChar c = [byte] ∧ glyph byte = glyph c :=
  ⟨_,encode_low (special_low special),glyph_low (special_low special)⟩

theorem encode_plain {c : Char} (plain : glyph c = .other) : Plain (String.utf8EncodeChar c) := by
  by_cases low : c.toNat < 0x80
  · rw [encode_low low]
    exact plain_cons.mpr ⟨(glyph_low low).trans plain,plain_nil⟩
  · obtain ⟨first,later,parts,start,further⟩ := encode_high (Nat.le_of_not_lt low)
    rw [parts]
    refine plain_cons.mpr ⟨glyph_high (by omega),?_⟩
    intro byte member
    exact glyph_high (further byte member)

end Characters

section Octets

theorem octets_cons (c : Char) (s : List Char) : octets (c :: s) = String.utf8EncodeChar c ++ octets s := rfl

theorem octets_append (s t : List Char) : octets (s ++ t) = octets s ++ octets t := List.flatMap_append

theorem byteLength_append (s t : List Char) : byteLength (s ++ t) = byteLength s + byteLength t := by
  simp only [byteLength,octets_append,List.length_append]

theorem ofOctets_octets (s : List Char) : ofOctets? (octets s) = some s := by
  have valid : (octets s).toByteArray.IsValidUTF8 := ByteArray.isValidUTF8_utf8Encode
  have array : ByteArray.mk (octets s).toArray = (octets s).toByteArray := by
    apply ByteArray.ext
    rw [← Array.toList_inj,List.toList_data_toByteArray]
  have text : String.fromUTF8 (octets s).toByteArray valid = String.ofList s := by
    apply String.toByteArray_inj.mp
    rw [String.toByteArray_ofList]
    rfl
  unfold ofOctets? String.fromUTF8?
  rw [array,dif_pos valid,text]
  exact congrArg some String.toList_ofList

theorem octets_toList (text : String) : octets text.toList = text.toByteArray.data.toList := by
  rw [← String.ofList_toList (s := text),String.toByteArray_ofList,String.toList_ofList]
  simp [octets,List.utf8Encode]

theorem ofOctets_exact {bytes : List UInt8} {s : List Char} : ofOctets? bytes = some s ↔ octets s = bytes := by
  apply Iff.intro
  · intro decoded
    obtain ⟨text,read,rfl⟩ := Option.map_eq_some_iff.mp decoded
    unfold String.fromUTF8? at read
    split at read
    · cases read
      exact octets_toList _
    · cases read
  · rintro rfl
    exact ofOctets_octets s

theorem octets_nil {s : List Char} (empty : octets s = []) : s = [] := by
  have decoded := ofOctets_octets s
  rw [empty] at decoded
  exact Option.some.inj (decoded.symm.trans (ofOctets_octets []))

theorem count_octets {g : Glyph} (special : g ≠ .other) (s : List Char) :
    ((octets s).countP fun byte => glyph byte = g) = s.countP fun c => glyph c = g := by
  induction s with
  | nil => rfl
  | cons c rest ih =>
    rw [octets_cons,List.countP_append,List.countP_cons,ih,Nat.add_comm]
    by_cases marked : glyph c = .other
    · rw [plain_count (encode_plain marked) special]
      simp [marked,special.symm]
    · obtain ⟨byte,single,same⟩ := encode_special marked
      simp [single,same]

theorem openings_octets (s : List Char) : openings (octets s) = openings s := count_octets Glyph.noConfusion s
theorem closings_octets (s : List Char) : closings (octets s) = closings s := count_octets Glyph.noConfusion s

end Octets

section Places

theorem slice_exact {bytes part : List UInt8} {first stop : Nat} : slice? bytes first stop = some part ↔
    first ≤ stop ∧ isBoundary bytes first = true ∧ isBoundary bytes stop = true ∧ (bytes.take stop).drop first = part := by
  unfold slice?
  rw [Option.ite_none_right_eq_some,Option.some_inj,and_assoc,and_assoc]

theorem strip_exact {bytes inner : List UInt8} {pair : Pair} : strip? bytes pair = some inner ↔
    ∃ before between after, slice? bytes 0 pair.opening = some before ∧
      slice? bytes (pair.opening + 1) pair.closing = some between ∧
      slice? bytes (pair.closing + 1) bytes.length = some after ∧ before ++ between ++ after = inner := by
  simp [strip?,Option.bind_eq_some_iff]

theorem boundary_between (s t : List Char) : isBoundary (octets (s ++ t)) (byteLength s) = true := by
  have here : (octets (s ++ t))[byteLength s]? = (octets t).head? := by
    rw [octets_append,byteLength,List.getElem?_append_right (Nat.le_refl _),Nat.sub_self,List.head?_eq_getElem?]
  unfold isBoundary
  rw [here]
  cases t with
  | nil => simp [octets,byteLength]
  | cons c rest =>
    obtain ⟨first,later,parts,start⟩ := encode_first c
    rw [octets_cons,parts]
    rcases start with low | high
    · simp [low]
    · simp [high]

theorem slice_octets {s before inside after : List Char} (parts : s = before ++ (inside ++ after)) :
    slice? (octets s) (byteLength before) (byteLength before + byteLength inside) = some (octets inside) := by
  have ends : byteLength before + byteLength inside = byteLength (before ++ inside) := (byteLength_append ..).symm
  have whole : s = (before ++ inside) ++ after := by rw [parts,List.append_assoc]
  have first : isBoundary (octets s) (byteLength before) = true := by
    rw [parts]
    exact boundary_between before (inside ++ after)
  have stop : isBoundary (octets s) (byteLength (before ++ inside)) = true := by
    rw [whole]
    exact boundary_between (before ++ inside) after
  have upTo : (octets s).take (byteLength (before ++ inside)) = octets before ++ octets inside := by
    rw [whole,octets_append (before ++ inside),← octets_append before inside]
    exact List.take_left
  have kept : (octets before ++ octets inside).drop (byteLength before) = octets inside := List.drop_left
  unfold slice?
  rw [ends,if_pos ⟨by omega,first,stop⟩,upTo,kept]

theorem slice_front {s before after : List Char} (parts : s = before ++ after) :
    slice? (octets s) 0 (byteLength before) = some (octets before) := by
  have start : s = [] ++ (before ++ after) := parts
  simpa [byteLength,octets] using slice_octets start

theorem slice_back {s before after : List Char} (parts : s = before ++ after) :
    slice? (octets s) (byteLength before) (octets s).length = some (octets after) := by
  have rest : s = before ++ (after ++ []) := by rw [parts,List.append_nil]
  have total : (octets s).length = byteLength before + byteLength after := by
    rw [← byteLength_append,parts]
    rfl
  rw [total]
  exact slice_octets rest

end Places

section Marks

def Cut.encoded (s : List Char) (cut : Cut) : Cut := ⟨byteLength (s.take cut.point),cut.op⟩

def Pair.encoded (s : List Char) (pair : Pair) : Pair :=
  ⟨byteLength (s.take pair.opening),byteLength (s.take pair.closing)⟩

theorem cutsFrom_plain {σ : Type} [Symbolic σ] (depth : Int) (place : Nat) {s : List σ} (t : List σ) (plain : Plain s) :
    cutsFrom depth place (s ++ t) = cutsFrom depth (place + s.length) t := by
  simp only [cutsFrom_marks,marksFrom_append,marksFrom_plain _ _ plain,net_plain plain,Int.add_zero,List.nil_append]

-- The induction is on the text that is left, behind a part that has been passed already.
theorem cutsFrom_octets (depth : Int) (front s : List Char) : cutsFrom depth (byteLength front) (octets s) =
    (cutsFrom depth front.length s).map (Cut.encoded (front ++ s)) := by
  induction s generalizing depth front with
  | nil => rfl
  | cons c rest ih =>
    have passed : front ++ c :: rest = (front ++ [c]) ++ rest := by simp
    have length : (front ++ [c]).length = front.length + 1 := by simp
    have size : byteLength (front ++ [c]) = byteLength front + (String.utf8EncodeChar c).length := by
      rw [byteLength_append]
      simp [byteLength,octets]
    have later := fun depth => ih depth (front ++ [c])
    rw [octets_cons]
    by_cases marked : glyph c = .other
    · rw [cutsFrom_plain _ _ _ (encode_plain marked),← size,later,length,← passed]
      simp [cutsFrom,marked,Glyph.step]
    · obtain ⟨byte,single,same⟩ := encode_special marked
      rw [single] at size ⊢
      simp only [List.length_singleton,length,← passed] at size later
      cases kind : glyph c with
      | other => exact absurd kind marked
      | opening => simp [cutsFrom,same,kind,← size,later]
      | closing => simp [cutsFrom,same,kind,← size,later]
      | operator op => by_cases outside : depth = 0 <;> simp [cutsFrom,same,kind,outside,← size,later,Cut.encoded]

theorem Operator.choice_map {f : Cut → Cut} (kept : ∀ cut, (f cut).op = cut.op) (op : Operator) (places : List Cut) :
    op.choice? (places.map f) = (op.choice? places).map f := by
  unfold choice?
  cases direction : op.scan <;> simp [Direction.order,List.filter_map,Function.comp_def,kept]

theorem outermost_octets (s : List Char) : outermost? (octets s) = (outermost? s).map (Cut.encoded s) := by
  have places : cuts (octets s) = (cuts s).map (Cut.encoded s) := cutsFrom_octets 0 [] s
  unfold outermost?
  dsimp only
  rw [places,List.map_findSome?]
  congr 1
  funext op
  exact Operator.choice_map (f := Cut.encoded s) (fun _ => rfl) op (cuts s)

theorem octets_mark {s : List Char} {x : UInt8} {front back : List UInt8} (special : glyph x ≠ .other)
    (parts : octets s = front ++ x :: back) : ∃ before c after, s = before ++ c :: after ∧
      octets before = front ∧ octets after = back ∧ glyph c = glyph x := by
  induction s generalizing front with
  | nil => cases front <;> cases parts
  | cons c rest ih =>
    rw [octets_cons] at parts
    have beyond (more : List UInt8) (tail : octets rest = more ++ x :: back) : ∃ before d after,
        c :: rest = before ++ d :: after ∧ octets before = String.utf8EncodeChar c ++ more ∧
          octets after = back ∧ glyph d = glyph x := by
      obtain ⟨before,d,after,rfl,rfl,behind,same⟩ := ih tail
      exact ⟨c :: before,d,after,rfl,rfl,behind,same⟩
    rcases List.append_eq_append_iff.mp parts with ⟨more,rfl,tail⟩ | ⟨more,whole,tail⟩
    · exact beyond more tail
    · cases more with
      | nil => simpa [whole] using beyond [] tail.symm
      | cons y later =>
        obtain ⟨rfl,behind⟩ := List.cons.inj tail
        have marked : glyph c ≠ .other := fun plain => special (encode_plain plain x (by simp [whole]))
        obtain ⟨byte,single,same⟩ := encode_special marked
        rcases List.append_eq_singleton_iff.mp (whole.symm.trans single) with ⟨rfl,alone⟩ | ⟨_,nothing⟩
        · obtain ⟨rfl,rfl⟩ := List.cons.inj alone
          exact ⟨[],c,rest,rfl,rfl,behind.symm,same.symm⟩
        · cases nothing

end Marks

section Operands

theorem byteLength_special {c : Char} (special : glyph c ≠ .other) : byteLength [c] = 1 := by
  obtain ⟨byte,single,_⟩ := encode_special special
  simp [byteLength,octets,single]

variable {s : List Char} {cut : Cut}

theorem cut_parts (member : cut ∈ cuts s) : ∃ c, s = s.take cut.point ++ c :: s.drop (cut.point + 1) ∧
    byteLength (s.take cut.point ++ [c]) = byteLength (s.take cut.point) + 1 := by
  obtain ⟨front,c,back,rfl,marked,_,point⟩ := mem_cuts.mp member
  have single : byteLength [c] = 1 := byteLength_special (by simp [marked])
  refine ⟨c,by simp [point],?_⟩
  rw [byteLength_append,single]

theorem byteLength_cut (member : cut ∈ cuts s) :
    byteLength s = byteLength (s.take cut.point) + 1 + byteLength (s.drop (cut.point + 1)) := by
  obtain ⟨c,parts,size⟩ := cut_parts member
  rw [← size,← byteLength_append,List.append_assoc]
  exact congrArg byteLength parts

theorem left_octets (member : cut ∈ cuts s) :
    slice? (octets s) 0 (cut.encoded s).point = some (octets (s.take cut.point)) := by
  obtain ⟨c,parts,_⟩ := cut_parts member
  exact slice_front parts

theorem right_octets (member : cut ∈ cuts s) :
    slice? (octets s) ((cut.encoded s).point + 1) (octets s).length = some (octets (s.drop (cut.point + 1))) := by
  obtain ⟨c,parts,size⟩ := cut_parts member
  have front : s = (s.take cut.point ++ [c]) ++ s.drop (cut.point + 1) := by simpa using parts
  unfold Cut.encoded
  rw [← size]
  exact slice_back front

end Operands

section Pairs

variable {before inside after : List Char} {c d : Char}

theorem Pair.encoded_parts (opens : glyph c = .opening) : Pair.encoded (before ++ c :: (inside ++ d :: after))
    ⟨before.length,before.length + 1 + inside.length⟩ = ⟨byteLength before,byteLength before + 1 + byteLength inside⟩ := by
  have front : before ++ c :: (inside ++ d :: after) = ((before ++ [c]) ++ inside) ++ d :: after := by simp
  have length : ((before ++ [c]) ++ inside).length = before.length + 1 + inside.length := by
    simp only [List.length_append,List.length_singleton]
  have size : byteLength ((before ++ [c]) ++ inside) = byteLength before + 1 + byteLength inside := by
    rw [byteLength_append,byteLength_append,byteLength_special (by simp [opens])]
  unfold encoded
  dsimp only
  rw [List.take_left,← size,← length,front,List.take_left]

theorem outerPair_octets (s : List Char) : outerPair? (octets s) = (outerPair? s).map (Pair.encoded s) := by
  cases found : outerPair? s with
  | some pair =>
    obtain ⟨before,c,inside,d,after,rfl,rfl,opens,closes,noOpening,noClosing⟩ := outerPair_exact.mp found
    obtain ⟨x,first,opening⟩ := encode_special (c := c) (by simp [opens])
    obtain ⟨y,last,closing⟩ := encode_special (c := d) (by simp [closes])
    rw [Option.map_some,Pair.encoded_parts opens]
    refine outerPair_exact.mpr ⟨octets before,x,octets inside,y,octets after,?_,rfl,opening.trans opens,
      closing.trans closes,(openings_octets before).trans noOpening,(closings_octets after).trans noClosing⟩
    simp [octets_append,octets_cons,first,last]
  | none =>
    cases bytes : outerPair? (octets s) with
    | none => rfl
    | some pair =>
      obtain ⟨front,x,middle,y,back,parts,_,opens,closes,noOpening,noClosing⟩ := outerPair_exact.mp bytes
      obtain ⟨before,c,rest,rfl,rfl,tail,first⟩ := octets_mark (by simp [opens]) parts
      obtain ⟨inside,d,after,rfl,_,rfl,last⟩ := octets_mark (by simp [closes]) tail
      rw [openings_octets] at noOpening
      rw [closings_octets] at noClosing
      rw [outerPair_exact.mpr ⟨before,c,inside,d,after,rfl,rfl,first.trans opens,last.trans closes,noOpening,noClosing⟩]
        at found
      cases found

theorem byteLength_strip {s : List Char} {pair : Pair} (found : outerPair? s = some pair) :
    byteLength (strip s pair) + 2 = byteLength s := by
  obtain ⟨before,c,inside,d,after,rfl,rfl,opens,closes,_⟩ := outerPair_exact.mp found
  have opening : byteLength [c] = 1 := byteLength_special (by simp [opens])
  have closing : byteLength [d] = 1 := byteLength_special (by simp [closes])
  have parts : before ++ c :: (inside ++ d :: after) = before ++ ([c] ++ (inside ++ ([d] ++ after))) := by simp
  rw [strip_parts,parts]
  simp only [byteLength_append,opening,closing]
  omega

theorem strip_octets {s : List Char} {pair : Pair} (found : outerPair? s = some pair) :
    strip? (octets s) (pair.encoded s) = some (octets (strip s pair)) := by
  obtain ⟨before,c,inside,d,after,rfl,rfl,opens,closes,_⟩ := outerPair_exact.mp found
  generalize whole : before ++ c :: (inside ++ d :: after) = s
  have opened : byteLength (before ++ [c]) = byteLength before + 1 := by
    rw [byteLength_append,byteLength_special (by simp [opens])]
  have closed : byteLength ((before ++ [c]) ++ inside ++ [d]) = byteLength before + 1 + byteLength inside + 1 := by
    rw [byteLength_append,byteLength_append,opened,byteLength_special (by simp [closes])]
  have first : slice? (octets s) 0 (byteLength before) = some (octets before) := slice_front whole.symm
  have middle : slice? (octets s) (byteLength before + 1) (byteLength before + 1 + byteLength inside) =
      some (octets inside) := by
    have between : s = (before ++ [c]) ++ (inside ++ d :: after) := by simp [← whole]
    rw [← opened]
    exact slice_octets between
  have last : slice? (octets s) (byteLength before + 1 + byteLength inside + 1) (octets s).length =
      some (octets after) := by
    have rest : s = ((before ++ [c]) ++ inside ++ [d]) ++ after := by simp [← whole]
    rw [← closed]
    exact slice_back rest
  have parts : octets (before ++ (inside ++ after)) = octets before ++ octets inside ++ octets after := by
    rw [octets_append,octets_append,List.append_assoc]
  rw [← whole,Pair.encoded_parts opens,strip_parts,whole,parts]
  simp [strip?,first,middle,last]

theorem octets_strip {s : List Char} {pair : Pair} (found : outerPair? s = some pair) :
    octets (strip s pair) = strip (octets s) (pair.encoded s) := by
  obtain ⟨before,c,inside,d,after,rfl,rfl,opens,closes,_⟩ := outerPair_exact.mp found
  obtain ⟨x,first,_⟩ := encode_special (c := c) (by simp [opens])
  obtain ⟨y,last,_⟩ := encode_special (c := d) (by simp [closes])
  have bytes : octets (before ++ c :: (inside ++ d :: after)) =
      octets before ++ x :: (octets inside ++ y :: octets after) := by
    simp [octets_append,octets_cons,first,last]
  rw [Pair.encoded_parts opens,strip_parts,bytes,octets_append,octets_append]
  exact (strip_parts (octets before) (octets inside) (octets after) x y).symm

end Pairs
end Reckon
