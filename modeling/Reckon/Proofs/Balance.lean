import Mathlib.Data.List.Infix
import Reckon.Text

namespace Reckon
variable {σ : Type} [Symbolic σ]

def openings (s : List σ) : Nat := s.countP fun x => glyph x = .opening
def closings (s : List σ) : Nat := s.countP fun x => glyph x = .closing

def net (s : List σ) : Int := openings s - closings s

def Nonnegative (s : List σ) : Prop := ∀ front ∈ s.inits, closings front ≤ openings front

instance (s : List σ) : Decidable (Nonnegative s) :=
  inferInstanceAs (Decidable (∀ front ∈ s.inits, closings front ≤ openings front))

structure Balanced (s : List σ) : Prop where
  nonnegative : Nonnegative s
  totals : openings s = closings s

instance (s : List σ) : Decidable (Balanced s) :=
  decidable_of_iff (Nonnegative s ∧ openings s = closings s)
    ⟨fun both => ⟨both.1,both.2⟩,fun whole => ⟨whole.nonnegative,whole.totals⟩⟩

def Plain (s : List σ) : Prop := ∀ x ∈ s, glyph x = .other

instance : DecidablePred (Plain : List σ → Prop) := List.decidableBAll _

omit [Symbolic σ] in
theorem append_cons_cases {s t u v : List σ} {x y : σ} (same : s ++ x :: t = u ++ y :: v) :
    (∃ w, s = u ++ y :: w ∧ v = w ++ x :: t) ∨ (s = u ∧ x = y ∧ t = v) ∨
      ∃ w, u = s ++ x :: w ∧ t = w ++ y :: v := by
  rcases List.append_eq_append_iff.mp same with ⟨rest,longer,tail⟩ | ⟨rest,longer,tail⟩
  · cases rest with
    | nil =>
      obtain ⟨rfl,rfl⟩ := List.cons.inj tail
      exact .inr (.inl ⟨by simp [longer],rfl,rfl⟩)
    | cons c rest =>
      obtain ⟨rfl,later⟩ := List.cons.inj tail
      exact .inr (.inr ⟨rest,longer,later⟩)
  · cases rest with
    | nil =>
      obtain ⟨rfl,rfl⟩ := List.cons.inj tail
      exact .inr (.inl ⟨by simp [longer],rfl,rfl⟩)
    | cons c rest =>
      obtain ⟨rfl,later⟩ := List.cons.inj tail
      exact .inl ⟨rest,longer,later⟩

omit [Symbolic σ] in
theorem getElem?_parts {s : List σ} {place : Nat} {x : σ} (found : s[place]? = some x) :
    ∃ front back, s = front ++ x :: back ∧ front.length = place := by
  obtain ⟨bound,rfl⟩ := List.getElem?_eq_some_iff.mp found
  exact ⟨s.take place,s.drop (place + 1),by simp,by simp; omega⟩

@[simp] theorem net_nil : net ([] : List σ) = 0 := rfl

@[simp] theorem net_append (s t : List σ) : net (s ++ t) = net s + net t := by
  simp only [net,openings,closings,List.countP_append]
  omega

@[simp] theorem net_cons (x : σ) (s : List σ) : net (x :: s) = (glyph x).step + net s := by
  unfold net openings closings
  cases h : glyph x <;> simp [h,Glyph.step] <;> omega

theorem plain_nil : Plain ([] : List σ) := by
  intro x member
  cases member

theorem plain_cons {x : σ} {s : List σ} : Plain (x :: s) ↔ glyph x = .other ∧ Plain s := List.forall_mem_cons

theorem plain_count {s : List σ} (plain : Plain s) {g : Glyph} (special : g ≠ .other) :
    (s.countP fun x => glyph x = g) = 0 := by
  apply List.countP_eq_zero.mpr
  intro x member
  simp [plain x member,special.symm]

theorem openings_plain {s : List σ} (plain : Plain s) : openings s = 0 := plain_count plain (by decide)

theorem closings_plain {s : List σ} (plain : Plain s) : closings s = 0 := plain_count plain (by decide)

theorem net_plain {s : List σ} (plain : Plain s) : net s = 0 := by
  unfold net
  rw [openings_plain plain,closings_plain plain]
  rfl

def NonnegativeFrom (depth : Int) (s : List σ) : Prop := ∀ front, front <+: s → 0 ≤ depth + net front

theorem nonnegative_exact {s : List σ} : Nonnegative s ↔ NonnegativeFrom 0 s := by
  unfold Nonnegative NonnegativeFrom net
  apply Iff.intro
  · intro low front first
    have bound := low front ((List.mem_inits front s).mpr first)
    omega
  · intro low front member
    have bound := low front ((List.mem_inits front s).mp member)
    omega

theorem nonnegativeFrom_nil {depth : Int} : NonnegativeFrom depth ([] : List σ) ↔ 0 ≤ depth := by
  simp [NonnegativeFrom,List.prefix_nil]

theorem nonnegativeFrom_append {depth : Int} {s t : List σ} :
    NonnegativeFrom depth (s ++ t) ↔ NonnegativeFrom depth s ∧ NonnegativeFrom (depth + net s) t := by
  apply Iff.intro
  · intro low
    refine ⟨fun front first => low front (first.trans (List.prefix_append s t)),?_⟩
    intro front first
    have bound := low (s ++ front) ((List.prefix_append_right_inj s).mpr first)
    rw [net_append] at bound
    omega
  · intro given front first
    obtain ⟨left,right⟩ := given
    rcases List.prefix_or_prefix_of_prefix first (List.prefix_append s t) with inside | ⟨later,rfl⟩
    · exact left front inside
    · have bound := right later ((List.prefix_append_right_inj s).mp first)
      rw [net_append]
      omega

theorem nonnegativeFrom_cons {depth : Int} {x : σ} {s : List σ} :
    NonnegativeFrom depth (x :: s) ↔ 0 ≤ depth ∧ NonnegativeFrom (depth + (glyph x).step) s := by
  apply Iff.intro
  · intro low
    have here := low [] List.nil_prefix
    refine ⟨by simpa using here,?_⟩
    intro front first
    have bound := low (x :: front) ((List.prefix_cons_inj x).mpr first)
    rw [net_cons] at bound
    omega
  · intro given front first
    obtain ⟨here,later⟩ := given
    rcases List.prefix_cons_iff.mp first with rfl | ⟨rest,rfl,beyond⟩
    · simpa using here
    · have bound := later rest beyond
      rw [net_cons]
      omega

theorem NonnegativeFrom.mono {low high : Int} {s : List σ} (order : low ≤ high)
    (bound : NonnegativeFrom low s) : NonnegativeFrom high s := by
  intro front first
  have reached := bound front first
  omega

theorem nonnegativeFrom_plain {depth : Int} {s : List σ} (start : 0 ≤ depth) (plain : Plain s) :
    NonnegativeFrom depth s := by
  intro front first
  have flat : Plain front := fun x member => plain x (first.subset member)
  rw [net_plain flat]
  omega

theorem balanced_exact {s : List σ} : Balanced s ↔ NonnegativeFrom 0 s ∧ net s = 0 := by
  apply Iff.intro
  · intro given
    obtain ⟨low,totals⟩ := given
    refine ⟨nonnegative_exact.mp low,?_⟩
    unfold net
    omega
  · intro given
    obtain ⟨low,flat⟩ := given
    refine ⟨nonnegative_exact.mpr low,?_⟩
    unfold net at flat
    omega

theorem Balanced.flat {s : List σ} (balanced : Balanced s) : net s = 0 := (balanced_exact.mp balanced).2

theorem Balanced.low {s : List σ} (balanced : Balanced s) : NonnegativeFrom 0 s :=
  (balanced_exact.mp balanced).1

theorem balanced_plain {s : List σ} (plain : Plain s) : Balanced s :=
  balanced_exact.mpr ⟨nonnegativeFrom_plain (Int.le_refl 0) plain,net_plain plain⟩

theorem Balanced.append {s t : List σ} (left : Balanced s) (right : Balanced t) : Balanced (s ++ t) := by
  refine balanced_exact.mpr ⟨nonnegativeFrom_append.mpr ⟨left.low,?_⟩,?_⟩
  · rw [left.flat]
    exact right.low
  · rw [net_append,left.flat,right.flat]
    rfl

theorem Balanced.operator {s t : List σ} {x : σ} {op : Operator} (left : Balanced s)
    (marked : glyph x = .operator op) (right : Balanced t) : Balanced (s ++ x :: t) := by
  refine left.append (balanced_exact.mpr ⟨nonnegativeFrom_cons.mpr ⟨Int.le_refl 0,?_⟩,?_⟩)
  · simpa [marked,Glyph.step] using right.low
  · simp [marked,Glyph.step,right.flat]

theorem Balanced.bracketed {s : List σ} {x y : σ} (opens : glyph x = .opening)
    (closes : glyph y = .closing) (inner : Balanced s) : Balanced (x :: (s ++ [y])) := by
  have raised : NonnegativeFrom 1 s := inner.low.mono (by decide)
  refine balanced_exact.mpr ⟨nonnegativeFrom_cons.mpr ⟨Int.le_refl 0,?_⟩,?_⟩
  · refine nonnegativeFrom_append.mpr ⟨by simpa [opens,Glyph.step] using raised,?_⟩
    refine nonnegativeFrom_cons.mpr ⟨?_,?_⟩
    · simp [opens,Glyph.step,inner.flat]
    · simp [opens,closes,Glyph.step,inner.flat,nonnegativeFrom_nil]
  · simp [opens,closes,Glyph.step,inner.flat]

theorem Balanced.outside {before inside after : List σ} (whole : Balanced (before ++ (inside ++ after)))
    (noOpening : openings before = 0) (noClosing : closings after = 0) :
    closings before = 0 ∧ openings after = 0 ∧ Balanced inside := by
  obtain ⟨first,later⟩ := nonnegativeFrom_append.mp whole.low
  obtain ⟨second,third⟩ := nonnegativeFrom_append.mp later
  have flat := whole.flat
  simp only [net_append] at flat
  have left : 0 ≤ net before := by
    have bound := first before (List.prefix_refl before)
    omega
  have middle : 0 ≤ net before + net inside := by
    have bound := second inside (List.prefix_refl inside)
    omega
  have beforeAt : net before = -closings before := by unfold net; omega
  have afterAt : net after = openings after := by unfold net; omega
  have start : net before = 0 := by omega
  refine ⟨by omega,by omega,balanced_exact.mpr ⟨?_,by omega⟩⟩
  rw [start] at second
  exact second

section Blanks
open Text

theorem glyph_blank {c : Char} (blank : isBlank c = true) : glyph c = .other := by
  cases marked : glyph c with
  | other => rfl
  | opening =>
    obtain rfl := glyph_opening.mp marked
    cases blank
  | closing =>
    obtain rfl := glyph_closing.mp marked
    cases blank
  | operator op =>
    obtain rfl := glyph_operator.mp marked
    cases op <;> cases blank

theorem removeBlanks_marked {c : Char} (special : glyph c ≠ .other) (s : List Char) :
    removeBlanks (c :: s) = c :: removeBlanks s := by
  have clear : isBlank c = false := Bool.eq_false_iff.mpr fun blank => special (glyph_blank blank)
  simp [removeBlanks,clear]

theorem removeBlanks_append (s t : List Char) : removeBlanks (s ++ t) = removeBlanks s ++ removeBlanks t :=
  List.filter_append s t

theorem removeBlanks_enclosed (s : List Char) : removeBlanks ('(' :: (s ++ [')'])) = '(' :: (removeBlanks s ++ [')']) := by
  rw [removeBlanks_marked Glyph.noConfusion,removeBlanks_append,removeBlanks_marked Glyph.noConfusion]
  rfl

theorem removeBlanks_operator (s t : List Char) (op : Operator) :
    removeBlanks (s ++ op.symbol :: t) = removeBlanks s ++ op.symbol :: removeBlanks t := by
  rw [removeBlanks_append,removeBlanks_marked (by simp [glyph_symbol])]

theorem count_removeBlanks {g : Glyph} (special : g ≠ .other) (s : List Char) :
    ((removeBlanks s).countP fun c => glyph c = g) = s.countP fun c => glyph c = g := by
  unfold removeBlanks
  rw [List.countP_filter]
  refine List.countP_congr fun c _ => ?_
  cases blank : isBlank c with
  | false => simp
  | true => simp [glyph_blank blank,special.symm]

theorem openings_removeBlanks (s : List Char) : openings (removeBlanks s) = openings s :=
  count_removeBlanks Glyph.noConfusion s

theorem closings_removeBlanks (s : List Char) : closings (removeBlanks s) = closings s :=
  count_removeBlanks Glyph.noConfusion s

theorem net_removeBlanks (s : List Char) : net (removeBlanks s) = net s := by
  unfold net
  rw [openings_removeBlanks,closings_removeBlanks]

theorem NonnegativeFrom.removeBlanks {depth : Int} {s : List Char} (low : NonnegativeFrom depth s) :
    NonnegativeFrom depth (Text.removeBlanks s) := by
  intro front first
  obtain ⟨rest,parts⟩ := first
  obtain ⟨before,after,rfl,rfl,_⟩ := List.filter_eq_append_iff.mp parts.symm
  have bound := low before (List.prefix_append before after)
  rw [← net_removeBlanks before] at bound
  exact bound

theorem Balanced.removeBlanks {s : List Char} (balanced : Balanced s) : Balanced (Text.removeBlanks s) :=
  balanced_exact.mpr ⟨balanced.low.removeBlanks,(net_removeBlanks s).trans balanced.flat⟩

theorem removeBlanks_nonempty {s : List Char} (visible : ∃ c ∈ s, isBlank c = false) : removeBlanks s ≠ [] := by
  obtain ⟨c,member,clear⟩ := visible
  exact List.ne_nil_of_mem (List.mem_filter.mpr ⟨member,by simp [clear]⟩)

end Blanks
end Reckon
