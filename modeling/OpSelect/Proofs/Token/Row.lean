import OpSelect.Proofs.Token.Munch

/-!
Spans within a text. The tokens of a text stand in a row: none is empty, none overlaps the next, and
each begins and ends between two characters. What is reported on a text that has no tokens lies
within it as well.
-/

namespace OpSelect

/-- Spans one after the other between two offsets. None is empty, none overlaps the next, and each
begins and ends at an allowed offset. -/
def InRow (allowed : Nat → Prop) : Nat → List Span → Nat → Prop
  | low, [], high => low ≤ high
  | low, span :: spans, high =>
      low ≤ span.start ∧ span.start < span.stop ∧ allowed span.start ∧ allowed span.stop ∧
        InRow allowed span.stop spans high

namespace InRow

variable {allowed : Nat → Prop} {low low' middle high high' : Nat} {spans more : List Span}

theorem le (row : InRow allowed low spans high) : low ≤ high := by
  induction spans generalizing low with
  | nil => exact row
  | cons span spans ih =>
      obtain ⟨after, nonempty, _, _, rest⟩ := row
      have := ih rest
      omega

theorem widen (row : InRow allowed low spans high) (lower : low' ≤ low) (higher : high ≤ high') :
    InRow allowed low' spans high' := by
  induction spans generalizing low low' with
  | nil => exact lower.trans (row.trans higher)
  | cons span spans ih =>
      obtain ⟨after, nonempty, start, stop, rest⟩ := row
      exact ⟨lower.trans after, nonempty, start, stop, ih rest (Nat.le_refl _)⟩

theorem append (row : InRow allowed low spans middle) (next : InRow allowed middle more high) :
    InRow allowed low (spans ++ more) high := by
  induction spans generalizing low with
  | nil => exact next.widen row (Nat.le_refl _)
  | cons span spans ih =>
      obtain ⟨after, nonempty, start, stop, rest⟩ := row
      exact ⟨after, nonempty, start, stop, ih rest⟩

theorem of_mem (row : InRow allowed low spans high) {span : Span} (mem : span ∈ spans) :
    low ≤ span.start ∧ span.start < span.stop ∧ span.stop ≤ high ∧
      allowed span.start ∧ allowed span.stop := by
  induction spans generalizing low with
  | nil => cases mem
  | cons first spans ih =>
      obtain ⟨after, nonempty, start, stop, rest⟩ := row
      cases mem with
      | head => exact ⟨after, nonempty, rest.le, start, stop⟩
      | tail _ mem =>
          obtain ⟨after', nonempty', within, start', stop'⟩ := ih rest mem
          exact ⟨by omega, nonempty', within, start', stop'⟩

end InRow

/-- The offset is one between two characters of the text, or at one of its ends. -/
abbrev Boundary (source : String) (offset : Nat) : Prop := String.Pos.Raw.IsValid source ⟨offset⟩

/-- The span is a part of the text. -/
structure Span.FitsIn (source : String) (span : Span) : Prop where
  ordered : span.start ≤ span.stop
  inside : span.stop ≤ source.utf8ByteSize
  start : Boundary source span.start
  stop : Boundary source span.stop

/-- All places that a diagnostic points to. -/
def Diagnostic.spans (d : Diagnostic) : List Span := d.span :: d.remarks.map Remark.span

theorem InRow.fitsIn {source : String} {low high : Nat} {spans : List Span} {span : Span}
    (row : InRow (Boundary source) low spans high) (mem : span ∈ spans) : span.FitsIn source := by
  obtain ⟨_, nonempty, _, start, stop⟩ := row.of_mem mem
  exact ⟨Nat.le_of_lt nonempty, stop.le_rawEndPos, start, stop⟩

theorem utf8ByteSize_ofList (text : List Char) :
    (String.ofList text).utf8ByteSize = byteSize text := by
  induction text with
  | nil => rfl
  | cons c text ih =>
      rw [String.ofList_cons, String.utf8ByteSize_append, ih, byteSize, String.utf8ByteSize_singleton]

theorem boundary_of_append {source : String} {before after : List Char}
    (h : source.toList = before ++ after) : Boundary source (byteSize before) := by
  rw [Boundary, String.Pos.Raw.isValid_iff_exists_append]
  refine ⟨String.ofList before, String.ofList after, ?_, ?_⟩
  · rw [← String.ofList_append, ← h, String.ofList_toList]
  · rw [← utf8ByteSize_ofList]
    rfl

theorem byteSize_pos {text : List Char} (h : text ≠ []) : 0 < byteSize text := by
  cases text with
  | nil => exact absurd rfl h
  | cons c text => exact Nat.lt_of_lt_of_le c.utf8Size_pos (Nat.le_add_right _ _)

/-- The tokens of the pieces of a text stand in a row, and the reports lie within the text, by
induction on the pieces. -/
theorem tokensFrom_inRow {source : String} {before : List Char} {pieces : List Lexeme}
    (split : source.toList = before ++ pieces.flatMap Lexeme.text)
    (nonempty : ∀ piece ∈ pieces, piece.text ≠ []) :
    InRow (Boundary source) (byteSize before)
      ((tokensFrom (byteSize before) pieces).1.map Token.span) source.utf8ByteSize ∧
    ∀ d ∈ (tokensFrom (byteSize before) pieces).2, ∀ span ∈ d.spans, span.FitsIn source := by
  induction pieces generalizing before with
  | nil =>
      refine ⟨?_, nofun⟩
      exact (boundary_of_append split).le_rawEndPos
  | cons piece pieces ih =>
      obtain ⟨text, cls⟩ := piece
      obtain ⟨some_, others⟩ := List.forall_mem_cons.mp nonempty
      rw [List.flatMap_cons, ← List.append_assoc] at split
      obtain ⟨row, reports⟩ := ih split others
      rw [byteSize_append] at row reports
      have wider := byteSize_pos some_
      have start : Boundary source (byteSize before) := by
        rw [List.append_assoc] at split
        exact boundary_of_append split
      have stop : Boundary source (byteSize before + byteSize text) := by
        rw [← byteSize_append]
        exact boundary_of_append split
      cases cls with
      | skipped => exact ⟨row.widen (Nat.le_add_right _ _) (Nat.le_refl _), reports⟩
      | token kind => exact ⟨⟨Nat.le_refl _, Nat.lt_add_of_pos_right wider, start, stop, row⟩, reports⟩
      | bad =>
          refine ⟨row.widen (Nat.le_add_right _ _) (Nat.le_refl _), ?_⟩
          refine List.forall_mem_cons.mpr ⟨List.forall_mem_singleton.mpr ?_, reports⟩
          exact ⟨Nat.le_add_right _ _, stop.le_rawEndPos, start, stop⟩

theorem text_ne_nil_of_mem {cs : List Char} {piece : Lexeme} (mem : piece ∈ lexemes cs) :
    piece.text ≠ [] := by
  fun_induction lexemes cs with
  | case1 => cases mem
  | case2 c rest n cls _ ih =>
      cases mem with
      | head => exact List.cons_ne_nil _ _
      | tail _ mem => exact ih mem

section Tokenize

variable {source : String}

theorem lexemes_inRow (source : String) :
    InRow (Boundary source) 0 ((tokensFrom 0 (lexemes source.toList)).1.map Token.span)
      source.utf8ByteSize ∧
    ∀ d ∈ (tokensFrom 0 (lexemes source.toList)).2, ∀ span ∈ d.spans, span.FitsIn source := by
  have split : source.toList = [] ++ (lexemes source.toList).flatMap Lexeme.text :=
    (flatMap_lexemes _).symm
  exact tokensFrom_inRow split fun piece mem => text_ne_nil_of_mem mem

theorem tokens_inRow {tokens : List Token} (h : tokenize source = .ok tokens) :
    InRow (Boundary source) 0 (tokens.map Token.span) source.utf8ByteSize := by
  unfold tokenize at h
  split at h
  · rename_i found
    cases h
    simpa [found] using (lexemes_inRow source).1
  · cases h

theorem reports_fitIn {diagnostics : List Diagnostic} (h : tokenize source = .error diagnostics) :
    ∀ d ∈ diagnostics, ∀ span ∈ d.spans, span.FitsIn source := by
  unfold tokenize at h
  split at h
  · cases h
  · rename_i found
    cases h
    simpa [found] using (lexemes_inRow source).2

end Tokenize
end OpSelect
