import Mathlib.Data.List.Basic
import Mathlib.Data.List.TakeWhile
import OpSelect.SourceFile

/-!
Lines and columns against the bytes of a text. The line of an offset counts the newlines before it,
and its column counts bytes from behind the last of them. Nothing else goes into a position, so it
gives the offset back. Positions are ordered as the offsets are, but for the largest offset: on the
first line its column does not fit into 64 bits.
-/

namespace OpSelect

/-- The byte that ends a line. -/
def newlineByte : UInt8 := 10

/-- The line that holds the offset begins at `start`: at the beginning of the text or just behind a
newline, with no newline between there and the offset. -/
structure LineBegins (bytes : List UInt8) (offset start : Nat) : Prop where
  reached : start ≤ offset
  begins : start = 0 ∨ ∃ place, bytes[place]? = some newlineByte ∧ start = place + 1
  last : ∀ place, start ≤ place → place < offset → bytes[place]? ≠ some newlineByte

/-- Reading order: an earlier line, or the same line and an earlier column. -/
def Position.Before (p q : Position) : Prop :=
  p.line < q.line ∨ p.line = q.line ∧ p.column < q.column

theorem Position.Before.asymm {p q : Position} (h : p.Before q) : ¬ q.Before p := by
  unfold Before at *
  rw [UInt64.lt_iff_toNat_lt] at *
  omega

section Encoding

/-- No byte of another character is mistaken for a newline: those of a character past 127 are all
larger. -/
theorem newlineByte_mem_encode {c : Char} :
    newlineByte ∈ String.utf8EncodeChar c ↔ c = '\n' := by
  have byte {n : Nat} (h : n < 256) : newlineByte = UInt8.ofNat n ↔ 10 = n := by
    rw [← UInt8.toNat_inj, UInt8.toNat_ofNat_of_lt' h]
    rfl
  constructor
  · intro mem
    have small : c.val.toNat = 10 := by
      unfold String.utf8EncodeChar at mem
      dsimp only at mem
      split at mem
      · rwa [List.mem_singleton, byte (by omega), eq_comm] at mem
      all_goals
        split_ifs at mem <;>
          simp (disch := omega) only [List.mem_cons, List.not_mem_nil, or_false, byte] at mem <;>
          omega
    exact Char.ext (UInt32.toNat_inj.mp small)
  · rintro rfl
    decide

end Encoding

namespace SourceFile

/-- The bytes of the text in UTF-8. -/
def bytes (file : SourceFile) : List UInt8 := file.text.toUTF8.data.toList

theorem bytes_eq (file : SourceFile) :
    file.bytes = file.text.toList.flatMap String.utf8EncodeChar := by
  rw [bytes, String.toUTF8_eq_toByteArray]
  conv => lhs; rw [← String.ofList_toList (s := file.text)]
  rw [String.toByteArray_ofList, List.utf8Encode, List.data_toByteArray]

section Starts

variable {base offset start : Nat} {cs : List Char}

theorem starts_newline (base : Nat) (cs : List Char) :
    startsAfterNewlines base ('\n' :: cs) = (base + 1) :: startsAfterNewlines (base + 1) cs := rfl

theorem starts_other {c : Char} (other : c ≠ '\n') (base : Nat) (cs : List Char) :
    startsAfterNewlines base (c :: cs) = startsAfterNewlines (base + c.utf8Size) cs :=
  if_neg other

/-- A newline of the bytes stands behind another character or is that of a newline. -/
theorem getElem?_encode {c : Char} (other : c ≠ '\n') (place : Nat) :
    ((c :: cs).flatMap String.utf8EncodeChar)[place]? = some newlineByte ↔
      ∃ later, (cs.flatMap String.utf8EncodeChar)[later]? = some newlineByte ∧
        place = c.utf8Size + later := by
  rw [List.flatMap_cons, List.getElem?_append, String.length_utf8EncodeChar]
  split
  · rename_i inside
    constructor
    · intro found
      exact absurd (newlineByte_mem_encode.mp (List.mem_of_getElem? found)) other
    · rintro ⟨later, _, rfl⟩
      omega
  · rename_i outside
    constructor
    · exact fun found => ⟨_, found, by omega⟩
    · rintro ⟨later, found, rfl⟩
      rwa [Nat.add_sub_cancel_left]

/-- The starts are the offsets just behind the newlines. -/
theorem mem_startsAfterNewlines :
    start ∈ startsAfterNewlines base cs ↔
      ∃ place, (cs.flatMap String.utf8EncodeChar)[place]? = some newlineByte ∧
        start = base + place + 1 := by
  induction cs generalizing base with
  | nil => simp [startsAfterNewlines]
  | cons c cs ih =>
      by_cases newline : c = '\n'
      · subst newline
        have encoded : ('\n' :: cs).flatMap String.utf8EncodeChar =
            newlineByte :: cs.flatMap String.utf8EncodeChar := rfl
        rw [starts_newline, List.mem_cons, ih, encoded]
        constructor
        · rintro (rfl | ⟨place, found, rfl⟩)
          · exact ⟨0, rfl, rfl⟩
          · exact ⟨place + 1, found, by omega⟩
        · rintro ⟨place, found, rfl⟩
          cases place with
          | zero => exact .inl rfl
          | succ place => exact .inr ⟨place, found, by omega⟩
      · rw [starts_other newline, ih]
        simp only [getElem?_encode newline]
        constructor
        · rintro ⟨place, found, rfl⟩
          exact ⟨_, ⟨place, found, rfl⟩, by omega⟩
        · rintro ⟨_, ⟨place, found, rfl⟩, rfl⟩
          exact ⟨place, found, by omega⟩

theorem pairwise_startsAfterNewlines (base : Nat) (cs : List Char) :
    (startsAfterNewlines base cs).Pairwise (· < ·) := by
  induction cs generalizing base with
  | nil => exact .nil
  | cons c cs ih =>
      by_cases newline : c = '\n'
      · subst newline
        rw [starts_newline]
        refine List.pairwise_cons.mpr ⟨fun later mem => ?_, ih _⟩
        obtain ⟨place, _, rfl⟩ := mem_startsAfterNewlines.mp mem
        omega
      · rw [starts_other newline]
        exact ih _

/-- The starts up to an offset are as many as the newlines before it. -/
theorem length_starts (base offset : Nat) (cs : List Char) :
    ((startsAfterNewlines base cs).takeWhile (· ≤ offset)).length =
      ((cs.flatMap String.utf8EncodeChar).take (offset - base)).count newlineByte := by
  induction cs generalizing base with
  | nil => simp [startsAfterNewlines]
  | cons c cs ih =>
      by_cases newline : c = '\n'
      · subst newline
        have encoded : ('\n' :: cs).flatMap String.utf8EncodeChar =
            newlineByte :: cs.flatMap String.utf8EncodeChar := rfl
        rw [starts_newline, encoded, List.takeWhile_cons]
        by_cases reached : base + 1 ≤ offset
        · obtain ⟨rest, rfl⟩ := Nat.exists_eq_add_of_le reached
          have more : base + 1 + rest - base = rest + 1 := by omega
          rw [if_pos (decide_eq_true reached), List.length_cons, ih, more, List.take_succ_cons,
            List.count_cons_self, Nat.add_sub_cancel_left]
        · have none : offset - base = 0 := by omega
          simp [reached, none]
      · have clear : ((String.utf8EncodeChar c).take (offset - base)).count newlineByte = 0 :=
          List.count_eq_zero.mpr fun mem =>
            newline (newlineByte_mem_encode.mp (List.mem_of_mem_take mem))
        rw [starts_other newline, ih, List.flatMap_cons, List.take_append, List.count_append, clear,
          Nat.zero_add, String.length_utf8EncodeChar, Nat.sub_sub]

end Starts

section Lines

variable {file : SourceFile} {offset other : UInt64}

theorem mem_lineStarts {start : Nat} :
    start ∈ file.lineStarts ↔
      start = 0 ∨ ∃ place, file.bytes[place]? = some newlineByte ∧ start = place + 1 := by
  rw [lineStarts, List.mem_cons, mem_startsAfterNewlines, bytes_eq]
  simp only [Nat.zero_add]

theorem pairwise_lineStarts (file : SourceFile) : file.lineStarts.Pairwise (· < ·) := by
  refine List.pairwise_cons.mpr ⟨fun start mem => ?_, pairwise_startsAfterNewlines 0 _⟩
  obtain ⟨place, _, rfl⟩ := mem_startsAfterNewlines.mp mem
  omega

/-- The line that begins at `start` holds the offset: the lines that follow begin behind it. -/
structure Holds (file : SourceFile) (offset : UInt64) (before : List Nat) (start : Nat)
    (after : List Nat) : Prop where
  starts : file.lineStarts = before ++ start :: after
  reached : start ≤ offset.toNat
  beyond : ∀ later ∈ after, offset.toNat < later
  position : file.lineCol offset = ⟨before.length + 1, .ofNat (offset.toNat - start) + 1⟩

/-- Every offset is held by a line, one past the end of the text too. -/
theorem exists_holds (file : SourceFile) (offset : UInt64) :
    ∃ before start after, file.Holds offset before start after := by
  have split := List.takeWhile_append_dropWhile (p := (· ≤ offset.toNat)) (l := file.lineStarts)
  have first : 0 ∈ file.lineStarts.takeWhile (· ≤ offset.toNat) := by simp [lineStarts]
  obtain ⟨before, start, reached⟩ :
      ∃ before start, file.lineStarts.takeWhile (· ≤ offset.toNat) = before ++ [start] :=
    (List.eq_nil_or_concat' _).resolve_left (List.ne_nil_of_mem first)
  refine ⟨before, start, file.lineStarts.dropWhile (· ≤ offset.toNat), ?_, ?_, ?_, ?_⟩
  · rw [reached, List.append_assoc] at split
    exact split.symm
  · have mem : start ∈ file.lineStarts.takeWhile (· ≤ offset.toNat) := by simp [reached]
    have holds := List.mem_takeWhile_imp mem
    exact of_decide_eq_true holds
  · -- the first start that is left is beyond the offset, and the others are larger
    have sorted := file.pairwise_lineStarts.sublist (List.dropWhile_sublist (· ≤ offset.toNat))
    have stopped := List.head?_dropWhile_not (· ≤ offset.toNat) file.lineStarts
    cases left : file.lineStarts.dropWhile (· ≤ offset.toNat) with
    | nil => exact fun _ mem => absurd mem List.not_mem_nil
    | cons next others =>
        rw [left] at sorted stopped
        have beyond : offset.toNat < next := by simpa using stopped
        refine List.forall_mem_cons.mpr ⟨beyond, fun later mem => ?_⟩
        exact Nat.lt_trans beyond (List.rel_of_pairwise_cons sorted mem)
  · simp [lineCol, reached]

variable {before before' after after' : List Nat} {start start' : Nat}

theorem Holds.lineBegins (h : file.Holds offset before start after) :
    LineBegins file.bytes offset.toNat start := by
  refine ⟨h.reached, ?_, fun place behind ahead newline => ?_⟩
  · exact mem_lineStarts.mp (by simp [h.starts])
  · have mem : place + 1 ∈ file.lineStarts := mem_lineStarts.mpr (.inr ⟨place, newline, rfl⟩)
    have sorted := file.pairwise_lineStarts
    rw [h.starts] at mem sorted
    rcases List.mem_append.mp mem with earlier | here
    · have := (List.pairwise_append.mp sorted).2.2 _ earlier start List.mem_cons_self
      omega
    · rcases List.mem_cons.mp here with same | later
      · omega
      · have := h.beyond _ later
        omega

/-- A line that begins after the one of an offset begins behind the offset. -/
theorem Holds.lt_start (h : file.Holds offset before start after)
    (k : file.Holds other before' start' after') (lines : before.length < before'.length) :
    offset.toNat < start' := by
  have found : file.lineStarts[before'.length]? = some start' := by simp [k.starts]
  obtain ⟨more, far⟩ := Nat.exists_eq_add_of_lt lines
  have place : before'.length - before.length = more + 1 := by omega
  rw [h.starts, List.getElem?_append_right lines.le, place, List.getElem?_cons_succ] at found
  exact h.beyond start' (List.mem_of_getElem? found)

theorem Holds.start_eq (h : file.Holds offset before start after)
    (k : file.Holds other before' start' after') (lines : before.length = before'.length) :
    start = start' := by
  have same := h.starts.symm.trans k.starts
  exact (List.cons.inj (List.append_inj same lines).2).1

theorem line_eq (file : SourceFile) (offset : UInt64) :
    (file.lineCol offset).line = 1 + (file.bytes.take offset.toNat).count newlineByte := by
  have counted := length_starts 0 offset.toNat file.text.toList
  rw [lineCol, lineStarts, List.takeWhile_cons, if_pos (by simp), List.length_cons, counted,
    bytes_eq, Nat.sub_zero, Nat.add_comm]

/-- The offset is the largest and no newline is before it. Its column would be `2 ^ 64`. -/
def Overflows (file : SourceFile) (offset : UInt64) : Prop :=
  offset.toNat + 1 = UInt64.size ∧ newlineByte ∉ file.bytes.take offset.toNat

instance (file : SourceFile) (offset : UInt64) : Decidable (file.Overflows offset) :=
  inferInstanceAs (Decidable (_ ∧ _))

/-- Only the first line is long enough for a column that does not fit. -/
theorem Holds.overflows_iff (h : file.Holds offset before start after) :
    file.Overflows offset ↔ offset.toNat - start + 1 = UInt64.size := by
  have below := offset.toNat_lt_size
  have reached := h.reached
  constructor
  · rintro ⟨largest, clear⟩
    rcases h.lineBegins.begins with rfl | ⟨place, newline, rfl⟩
    · exact largest
    · refine absurd (List.mem_iff_getElem?.mpr ⟨place, ?_⟩) clear
      rw [List.getElem?_take_of_lt (by omega), newline]
  · intro long
    obtain rfl : start = 0 := by omega
    refine ⟨by omega, fun mem => ?_⟩
    obtain ⟨place, found⟩ := List.mem_iff_getElem?.mp mem
    rw [List.getElem?_take] at found
    split at found
    · rename_i ahead
      exact h.lineBegins.last place (Nat.zero_le _) ahead found
    · cases found

theorem Holds.toNat_column (h : file.Holds offset before start after) :
    (file.lineCol offset).column.toNat =
      if file.Overflows offset then 0 else offset.toNat - start + 1 := by
  have below := offset.toNat_lt_size
  rw [h.position, UInt64.toNat_add, UInt64.toNat_ofNat_of_lt' (by omega)]
  split
  · rename_i overflows
    rw [UInt64.toNat_one, h.overflows_iff.mp overflows]
    rfl
  · rename_i fits
    rw [h.overflows_iff] at fits
    exact Nat.mod_eq_of_lt (show _ < UInt64.size by rw [UInt64.toNat_one]; omega)

/-- Positions follow the offsets. -/
theorem lineCol_before (fits : ¬ file.Overflows other) (lt : offset < other) :
    (file.lineCol offset).Before (file.lineCol other) := by
  obtain ⟨before, start, after, h⟩ := file.exists_holds offset
  obtain ⟨before', start', after', k⟩ := file.exists_holds other
  have atStart := h.reached
  have atStart' := k.reached
  have column := h.toNat_column
  have column' := k.toNat_column
  rw [UInt64.lt_iff_toNat_lt] at lt
  rw [Position.Before, UInt64.lt_iff_toNat_lt, column', if_neg fits, column]
  rw [h.position, k.position]
  rcases Nat.lt_trichotomy before.length before'.length with less | same | more
  · exact .inl (Nat.succ_lt_succ less)
  · obtain rfl := h.start_eq k same
    refine .inr ⟨congrArg Nat.succ same, ?_⟩
    split <;> omega
  · have := k.lt_start h more
    omega

theorem lt_iff_before (fits : ¬ file.Overflows offset) (fits' : ¬ file.Overflows other) :
    offset < other ↔ (file.lineCol offset).Before (file.lineCol other) := by
  refine ⟨lineCol_before fits', fun ordered => ?_⟩
  by_contra behind
  rcases UInt64.lt_or_eq_of_le (UInt64.not_lt.mp behind) with more | rfl
  · exact ordered.asymm (lineCol_before fits more)
  · exact ordered.asymm ordered

/-- The column that does not fit is zero, before all others. -/
theorem before_of_overflows (overflows : file.Overflows offset) (ne : other ≠ offset) :
    (file.lineCol offset).Before (file.lineCol other) := by
  obtain ⟨before, start, after, h⟩ := file.exists_holds offset
  obtain ⟨before', start', after', k⟩ := file.exists_holds other
  obtain ⟨largest, clear⟩ := overflows
  have less : other.toNat < offset.toNat := by
    have below := other.toNat_lt_size
    have apart : other.toNat ≠ offset.toNat := fun same => ne (UInt64.toNat_inj.mp same)
    omega
  have fits : ¬ file.Overflows other := fun again => by
    have := again.1
    omega
  have none : newlineByte ∉ file.bytes.take other.toNat :=
    fun mem => clear (List.take_subset_take_left _ less.le mem)
  right
  constructor
  · rw [line_eq, line_eq, List.count_eq_zero.mpr clear, List.count_eq_zero.mpr none]
  · rw [UInt64.lt_iff_toNat_lt, h.toNat_column, k.toNat_column, if_pos ⟨largest, clear⟩,
      if_neg fits]
    omega

/-- The offset from its line's start and its column. In 64 bits this holds of every column. -/
theorem Holds.offset_eq (h : file.Holds offset before start after) :
    offset = .ofNat start + ((file.lineCol offset).column - 1) := by
  rw [h.position, UInt64.add_sub_cancel, ← UInt64.ofNat_add, Nat.add_sub_cancel' h.reached,
    UInt64.ofNat_toNat]

theorem Holds.getElem?_lineStarts (h : file.Holds offset before start after) :
    file.lineStarts[(file.lineCol offset).line - 1]? = some start := by
  simp [h.position, h.starts]

theorem lineCol_injective (file : SourceFile) : Function.Injective file.lineCol := by
  intro offset other same
  obtain ⟨before, start, after, h⟩ := file.exists_holds offset
  obtain ⟨before', start', after', k⟩ := file.exists_holds other
  have found := h.getElem?_lineStarts
  rw [same, k.getElem?_lineStarts] at found
  rw [h.offset_eq, k.offset_eq, same, Option.some.inj found]

/-- A letter of two bytes, an empty line, a newline at the end and an offset far behind it. -/
example : [0, 2, 3, 4, 5, 6, 90].map (SourceFile.lineCol ⟨"unit", "é\n\nx\n"⟩) =
    [⟨1, 1⟩, ⟨1, 3⟩, ⟨2, 1⟩, ⟨3, 1⟩, ⟨3, 2⟩, ⟨4, 1⟩, ⟨4, 85⟩] := by
  decide +kernel

end Lines
end SourceFile
end OpSelect
