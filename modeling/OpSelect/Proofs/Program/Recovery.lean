import Mathlib.Data.List.Pairwise
import Mathlib.Data.List.TakeWhile
import OpSelect.Proofs.Program.Placement

/-!
Which bad lines are reported. A line that is no line of the grammar is complained about, at a place
on it, and reading goes on behind it if the line can be read from some later token on. If it cannot,
reading ends there and no line behind it is reported. So the complaints are those about the bad
lines up to the first that cannot be recovered from. They are one for each such line, in the order
of the text, and never about a line that can be read.
-/

namespace OpSelect

/-- Behind the last token of the line. -/
def Cursor.endOfLine (c : Cursor) : Cursor := go c.stop c.rest
where
  go (stop : Nat) : List Token → Cursor
    | [] => ⟨stop, []⟩
    | t :: rest => if t.kind = .newline then ⟨stop, t :: rest⟩ else go t.span.stop rest

namespace Cursor

variable {allowed : Nat → Prop} {size : Nat} {c d : Cursor}

theorem endOfLine_of_ends (h : EndsLine c.rest) : c.endOfLine = c := by
  obtain ⟨stop, rest⟩ := c
  cases rest with
  | nil => rfl
  | cons t rest => exact if_pos (h t rfl)

theorem endOfLine_cons {stop : Nat} {t : Token} {rest : List Token} (plain : t.kind ≠ .newline) :
    (Cursor.mk stop (t :: rest)).endOfLine = (Cursor.mk t.span.stop rest).endOfLine :=
  if_neg plain

theorem reaches_endOfLine (c : Cursor) : c.Reaches c.endOfLine := by
  obtain ⟨stop, rest⟩ := c
  induction rest generalizing stop with
  | nil => exact .refl _
  | cons t rest ih =>
      by_cases newline : t.kind = .newline
      · rw [endOfLine_of_ends (endsLine_cons newline rest)]
        exact .refl _
      · rw [endOfLine_cons newline]
        exact .step newline (ih _)

theorem Reaches.endOfLine_eq (h : c.Reaches d) : d.endOfLine = c.endOfLine := by
  induction h with
  | refl => rfl
  | step plain _ ih => exact ih.trans (endOfLine_cons plain).symm

theorem endsLine_endOfLine (c : Cursor) : EndsLine c.endOfLine.rest := by
  obtain ⟨stop, rest⟩ := c
  induction rest generalizing stop with
  | nil => nofun
  | cons t rest ih =>
      by_cases newline : t.kind = .newline
      · have ends := endsLine_cons newline rest
        rw [endOfLine_of_ends ends]
        exact ends
      · rw [endOfLine_cons newline]
        exact ih _

end Cursor

/-- A line that is not empty: its tokens, and the part of the text from the first of them to the
newline behind the line, or to the end of its last token. -/
structure SourceLine where
  tokens : List Token
  extent : Span
deriving DecidableEq

theorem Cursor.length_endOfLine (c : Cursor) : c.endOfLine.rest.length ≤ c.rest.length := by
  have reached := c.reaches_endOfLine
  generalize c.endOfLine = d at reached
  induction reached with
  | refl => exact Nat.le_refl _
  | step _ _ ih => exact Nat.le_succ_of_le ih

/-- The lines of a file that are not empty. -/
def sourceLines : List Token → List SourceLine
  | [] => []
  | t :: rest =>
      if t.kind = .newline then sourceLines rest
      else
        let last := (Cursor.mk t.span.stop rest).endOfLine
        have : (Cursor.mk t.span.stop rest).endOfLine.rest.length ≤ rest.length :=
          Cursor.length_endOfLine _
        ⟨t :: rest.takeWhile (·.kind ≠ .newline), ⟨t.span.start, last.start⟩⟩ ::
          sourceLines last.rest
termination_by tokens => tokens.length

/-- The span lies on the line. -/
def SourceLine.Covers (line : SourceLine) (span : Span) : Prop :=
  line.extent.start ≤ span.start ∧ span.start ≤ span.stop ∧ span.stop ≤ line.extent.stop

instance (line : SourceLine) (span : Span) : Decidable (line.Covers span) :=
  inferInstanceAs (Decidable (_ ∧ _ ∧ _))

/-- The tokens make up a file without mistakes. -/
def accepts (tokens : List Token) : Bool := (parseTokens tokens).isOk

/-- From some token on, the tokens make up a file without mistakes. -/
def recovers (tokens : List Token) : Bool :=
  tokens.tails.any fun kept => !kept.isEmpty && accepts kept

/-- The bad lines that are reported: those up to the first that cannot be recovered from. -/
def reported : List SourceLine → List SourceLine
  | [] => []
  | line :: rest =>
      if accepts line.tokens then reported rest
      else if recovers line.tokens then line :: reported rest
      else [line]

section Segments

variable {segment tail : List Token}

theorem takeWhile_segment (plain : ∀ t ∈ segment, t.kind ≠ .newline) (ends : EndsLine tail) :
    (segment ++ tail).takeWhile (fun t => decide (t.kind ≠ .newline)) = segment := by
  rw [List.takeWhile_append_of_pos (by simpa using plain)]
  cases tail with
  | nil => simp
  | cons t tail => simp [ends t rfl]

/-- The line reader and the whole file agree on a line. -/
theorem accepts_segment (plain : ∀ t ∈ segment, t.kind ≠ .newline) (nonempty : segment ≠ [])
    (ends : EndsLine tail) (stop : Nat) :
    accepts segment = (Grammar.line.run ⟨stop, segment ++ tail⟩).result.isSome := by
  have mem : segment ∈ lineTokens segment := by
    have whole := lineTokens_append plain nonempty (show EndsLine [] from nofun)
    rw [List.append_nil] at whole
    rw [whole]
    exact List.mem_cons_self
  rw [← Option.isSome_map (f := Prod.fst), line_in_place mem stop ends, accepts]
  cases parseTokens segment <;> rfl

theorem recovers_cons (t : Token) (tokens : List Token) :
    recovers (t :: tokens) = (accepts (t :: tokens) || recovers tokens) := by
  simp [recovers]

theorem isSome_retry_cons {t : Token} (plain : t.kind ≠ .newline) (rest : List Token) :
    (Reading.retry (t :: rest)).isSome =
      ((Grammar.line.run ⟨t.span.stop, rest⟩).result.isSome || (Reading.retry rest).isSome) := by
  rw [Reading.retry, if_neg plain]
  split
  · rename_i found
    rw [found]
    rfl
  · rename_i failed
    rw [failed]
    rfl

/-- Recovery succeeds if the line is accepted from some later token on. -/
theorem isSome_retry {t : Token} (plain : ∀ u ∈ t :: segment, u.kind ≠ .newline)
    (ends : EndsLine tail) :
    (Reading.retry (t :: segment ++ tail)).isSome = recovers segment := by
  induction segment generalizing t with
  | nil =>
      have failed := Grammar.staysOnLine_line ⟨0, []⟩ t.span.stop tail ends
      rw [Reader.result_of_end] at failed
      rw [List.cons_append, isSome_retry_cons (plain t List.mem_cons_self), failed]
      cases tail with
      | nil => rfl
      | cons u tail => simp [Reading.retry, ends u rfl, recovers]
  | cons u segment ih =>
      obtain ⟨first, others⟩ := List.forall_mem_cons.mp plain
      rw [recovers_cons, accepts_segment others (List.cons_ne_nil _ _) ends t.span.stop,
        List.cons_append, isSome_retry_cons first, ih others]

end Segments

namespace Complaint

/-- The complaint is about this place. -/
def At (k : Complaint) (d : Cursor) : Prop :=
  k.span = (d.miss .unnamed).span ∧ k.found = (d.miss .unnamed).found

/-- The complaint, if there is one, is about a place on the line. -/
def OnLine (complaint : Option Complaint) (c : Cursor) : Prop :=
  ∀ k ∈ complaint, ∃ d, c.Reaches d ∧ k.At d

variable {allowed : Nat → Prop} {size : Nat} {c d : Cursor} {complaint : Option Complaint}

theorem span_miss (d : Cursor) (e : Expectation) : (d.miss e).span = (d.miss .unnamed).span := by
  obtain ⟨stop, rest⟩ := d
  cases rest <;> rfl

theorem found_miss (d : Cursor) (e : Expectation) : (d.miss e).found = (d.miss .unnamed).found := by
  obtain ⟨stop, rest⟩ := d
  cases rest <;> rfl

theorem at_miss (d : Cursor) (e : Expectation) :
    At ⟨(d.miss e).span, (d.miss e).found, [e]⟩ d := ⟨span_miss d e, found_miss d e⟩

theorem start_miss (d : Cursor) (e : Expectation) : (d.miss e).span.start = d.start := by
  obtain ⟨stop, rest⟩ := d
  cases rest <;> rfl

/-- A complaint is about the place of a miss, unless it was about a place at least as far on. -/
theorem place_of_note {m : Miss} {k : Complaint} (h : k ∈ note complaint m) :
    k.span = m.span ∧ k.found = m.found ∨
      ∃ before ∈ complaint, k.span = before.span ∧ k.found = before.found ∧
        m.span.start ≤ before.span.start := by
  cases complaint with
  | none =>
      cases h
      exact .inl ⟨rfl, rfl⟩
  | some before =>
      simp only [note, Option.mem_def] at h
      split at h
      · cases h
        exact .inl ⟨rfl, rfl⟩
      · rename_i further
        refine .inr ⟨before, rfl, ?_⟩
        split at h
        · cases h
          exact ⟨rfl, rfl, Nat.le_of_not_lt further⟩
        · split at h <;> cases h <;> exact ⟨rfl, rfl, Nat.le_of_not_lt further⟩

theorem OnLine.note (on : OnLine complaint c) (reached : c.Reaches d) (e : Expectation) :
    OnLine (note complaint (d.miss e)) c := by
  intro k mem
  rcases place_of_note mem with ⟨span, found⟩ | ⟨before, earlier, span, found, _⟩
  · exact ⟨d, reached, span.trans (span_miss d e), found.trans (found_miss d e)⟩
  · obtain ⟨d', reached', at_⟩ := on before earlier
    exact ⟨d', reached', span.trans at_.1, found.trans at_.2⟩

theorem OnLine.noteAll (on : OnLine complaint c) {misses : List Miss}
    (reached : ∀ m ∈ misses, ∃ d e, c.Reaches d ∧ m = d.miss e) :
    OnLine (noteAll complaint misses) c := by
  induction misses generalizing complaint with
  | nil => exact on
  | cons m misses ih =>
      obtain ⟨⟨d, e, reached', rfl⟩, others⟩ := List.forall_mem_cons.mp reached
      exact ih (on.note reached' e) others

/-- What a line leaves to the next is a complaint about the start of the next line. -/
theorem OnLine.next (on : OnLine complaint c) (laid : c.Laid allowed size) :
    ∀ k ∈ Complaint.noteAll complaint (Reading.newlines c.endOfLine).misses,
      k.At (Reading.newlines c.endOfLine).cursor := by
  intro k mem
  rw [Reading.misses_newlines] at mem
  rcases place_of_note mem with ⟨span, found⟩ | ⟨before, earlier, span, found, further⟩
  · exact ⟨span.trans (span_miss _ _), found.trans (found_miss _ _)⟩
  · obtain ⟨d, reached, at_⟩ := on before earlier
    have laid_d := laid.reached reached
    have toEnd := d.reaches_endOfLine
    rw [reached.endOfLine_eq] at toEnd
    rw [start_miss, at_.1, start_miss] at further
    -- the next line begins further on, unless the input ends here
    by_cases atEnd : c.endOfLine.rest = []
    · rw [Reading.newlines_of_end atEnd] at further ⊢
      rcases laid_d.eq_or_start_lt toEnd with same | before
      · rw [same]
        exact ⟨span.trans at_.1, found.trans at_.2⟩
      · have stops := (laid_d.reached toEnd).stop_le_start
        omega
    · have gap := Reading.start_lt_newlines (laid_d.reached toEnd) c.endsLine_endOfLine atEnd
      have order := (laid_d.le_of_reaches toEnd).2
      omega

theorem span_diagnostic (k : Complaint) :
    k.diagnostic.span =
      if k.found = some .newline then ⟨k.span.start, k.span.start⟩ else k.span := by
  simp only [diagnostic]
  split <;> rfl

theorem spans_diagnostic (k : Complaint) : k.diagnostic.spans = [k.diagnostic.span] := by
  simp only [diagnostic]
  split <;> rfl

/-- The diagnostic of a complaint about a place on the line lies on it. -/
theorem covers_of_at {k : Complaint} (laid : c.Laid allowed size) (reached : c.Reaches d)
    (at_ : k.At d) (tokens : List Token) :
    (SourceLine.mk tokens ⟨c.start, c.endOfLine.start⟩).Covers k.diagnostic.span ∧
      allowed k.diagnostic.span.start ∧ allowed k.diagnostic.span.stop := by
  have laid_d := laid.reached reached
  have after : c.start ≤ d.start := (laid.le_of_reaches reached).2
  have span := span_diagnostic k
  rw [at_.1, at_.2] at span
  rw [← reached.endOfLine_eq]
  obtain ⟨stop, rest⟩ := d
  cases rest with
  | nil =>
      rw [show k.diagnostic.span = ⟨stop, stop⟩ from span]
      exact ⟨⟨after, Nat.le_refl _, Nat.le_refl _⟩, laid_d.stop, laid_d.stop⟩
  | cons t rest =>
      by_cases newline : t.kind = .newline
      · rw [Cursor.endOfLine_of_ends (endsLine_cons newline rest),
          span.trans (if_pos (congrArg some newline))]
        exact ⟨⟨after, Nat.le_refl _, Nat.le_refl _⟩, laid_d.allowed_start, laid_d.allowed_start⟩
      · have toEnd := Cursor.reaches_endOfLine ⟨t.span.stop, rest⟩
        have inside := (laid_d.next.le_of_reaches toEnd).1.trans
          (laid_d.next.reached toEnd).stop_le_start
        rw [Cursor.endOfLine_cons newline,
          span.trans (if_neg fun eq => newline (Option.some.inj eq))]
        exact ⟨⟨after, Nat.le_of_lt laid_d.row.2.1, inside⟩, laid_d.allowed_start,
          laid_d.next.stop⟩

/-- A complaint on the line is one whose diagnostic lies on it. -/
theorem OnLine.covers (on : OnLine complaint c) (laid : c.Laid allowed size)
    (complained : complaint ≠ none) (tokens : List Token) :
    ∃ k, complaint = some k ∧
      (SourceLine.mk tokens ⟨c.start, c.endOfLine.start⟩).Covers k.diagnostic.span ∧
      allowed k.diagnostic.span.start ∧ allowed k.diagnostic.span.stop := by
  obtain ⟨k, said⟩ := Option.ne_none_iff_exists'.mp complained
  obtain ⟨place, reached, at_⟩ := on k said
  exact ⟨k, said, covers_of_at laid reached at_ tokens⟩

end Complaint

theorem sourceLines_newline {t : Token} (newline : t.kind = .newline) (tokens : List Token) :
    sourceLines (t :: tokens) = sourceLines tokens := by
  rw [sourceLines, if_pos newline]

theorem sourceLines_newlines (c : Cursor) :
    sourceLines (Reading.newlines c).cursor.rest = sourceLines c.rest := by
  refine Reading.newlines_induction (P := fun c d => sourceLines d.rest = sourceLines c.rest)
    (fun _ => rfl) ?_ c
  intro stop t rest d newline ih
  exact ih.trans (sourceLines_newline newline rest).symm

/-- The first of the lines at a cursor, and how the readers of lines find it. -/
theorem sourceLines_cons {c : Cursor} (start : ∀ t ∈ c.rest.head?, t.kind ≠ .newline)
    (nonempty : c.rest ≠ []) :
    ∃ tokens,
      sourceLines c.rest =
        ⟨tokens, ⟨c.start, c.endOfLine.start⟩⟩ :: sourceLines c.endOfLine.rest ∧
      accepts tokens = (Grammar.line.run c).result.isSome ∧
      recovers tokens =
        ((Grammar.line.run c).result.isSome || (Reading.retry c.rest).isSome) := by
  obtain ⟨stop, tokens⟩ := c
  obtain ⟨segment, tail, rfl, some_, plain, ends⟩ := exists_first_line nonempty start
  cases segment with
  | nil => exact absurd rfl some_
  | cons t segment =>
      obtain ⟨first, others⟩ := List.forall_mem_cons.mp plain
      have accepted := accepts_segment plain some_ ends stop
      refine ⟨t :: segment, ?_, accepted, ?_⟩
      · change sourceLines (t :: (segment ++ tail)) = _
        rw [sourceLines, if_neg first, takeWhile_segment others ends, List.cons_append,
          Cursor.endOfLine_cons first]
        rfl
      · rw [recovers_cons, accepted, isSome_retry plain ends]

/-- A line is read to its end. -/
theorem endOfLine_of_line {c d : Cursor} {statements : List (Located Statement)}
    (found : (Grammar.line.run c).result = some (statements, d)) : d = c.endOfLine := by
  have line : Grammar.line.Places (fun _ => True) 0 _ _ := Grammar.places_line
  rw [← (line.reaches found).endOfLine_eq, Cursor.endOfLine_of_ends]
  rw [Grammar.line_result] at found
  obtain ⟨_, ends⟩ := Option.filter_eq_some_iff.mp found
  intro t first
  obtain ⟨rest, split⟩ := List.head?_eq_some_iff.mp first
  by_contra plain
  simp [Grammar.lineEnd, split, plain] at ends

namespace Reading

variable {allowed : Nat → Prop} {size : Nat}

theorem onLine_attempt {c : Cursor} {complaint : Option Complaint}
    (handed : ∀ k ∈ complaint, k.At c) :
    Complaint.OnLine (Complaint.noteAll complaint (Grammar.line.run c).misses) c := by
  have line : Grammar.line.Places (fun _ => True) 0 _ _ := Grammar.places_line
  have on : Complaint.OnLine complaint c := fun k mem => ⟨c, .refl c, handed k mem⟩
  exact on.noteAll fun m => line.misses

/-- Whether a line is read or recovered, the next one begins behind its end. -/
theorem laid_next {c : Cursor} (laid : c.Laid allowed size) :
    (newlines c.endOfLine).cursor.Laid allowed size :=
  (laid_newlines (laid.reached c.reaches_endOfLine)).1

/-- Recovery goes to the end of the line, and what it misses is on the line. -/
theorem onLine_retry {c d : Cursor} {statements : List (Located Statement)} {misses : List Miss}
    (retried : retry c.rest = some (statements, d, misses)) :
    d = c.endOfLine ∧ Complaint.OnLine (Complaint.noteAll none misses) c := by
  have line : Grammar.line.Places (fun _ => True) 0 _ _ := Grammar.places_line
  obtain ⟨e, reached, read⟩ := reaches_of_retry retried
  refine ⟨(endOfLine_of_line (by rw [read])).trans reached.endOfLine_eq, ?_⟩
  refine Complaint.OnLine.noteAll (fun k mem => absurd mem (Option.not_mem_none k)) ?_
  intro m mem
  obtain ⟨place, expected, reached', eq⟩ := line.misses (by rw [read]; exact mem)
  exact ⟨place, expected, reached.trans reached', eq⟩

/-- There is one complaint for each line that is reported, and it lies on that line. -/
theorem complaints_lines {c : Cursor} {complaint : Option Complaint} (laid : c.Laid allowed size)
    (start : ∀ t ∈ c.rest.head?, t.kind ≠ .newline) (handed : ∀ k ∈ complaint, k.At c) :
    List.Forall₂ (fun line k => line.Covers k.diagnostic.span ∧
        allowed k.diagnostic.span.start ∧ allowed k.diagnostic.span.stop)
      (reported (sourceLines c.rest)) (lines c complaint).complaints := by
  fun_induction lines c complaint with
  | case1 c complaint attempt noted first d found _ _ gap rest ih =>
      obtain ⟨tokens, lines, accepted, _⟩ := sourceLines_cons start (Reader.ne_nil found)
      have good : accepts tokens = true :=
        accepted.trans (Option.isSome_iff_exists.mpr ⟨_, found⟩)
      have on : Complaint.OnLine noted c := onLine_attempt handed
      obtain rfl := endOfLine_of_line found
      rw [lines, reported, if_pos good, ← sourceLines_newlines]
      exact ih (laid_next laid) (lineTokens_newlines _).2 (on.next laid)
  | case2 c complaint attempt noted failed first d misses retried _ _ gap rest ih =>
      obtain ⟨tokens, lines, bad, goesOn⟩ := sourceLines_cons start (ne_nil_of_retry retried)
      rw [show (Grammar.line.run c).result = none from failed] at bad goesOn
      rw [retried] at goesOn
      have on : Complaint.OnLine noted c := onLine_attempt handed
      obtain ⟨k, said, covered⟩ := on.covers laid
        (Complaint.noteAll_ne_none (Grammar.complains_line c failed)) tokens
      obtain ⟨rfl, left⟩ := onLine_retry retried
      rw [lines, reported, if_neg (by simp [bad]), if_pos (by simp [goesOn]),
        ← sourceLines_newlines]
      change List.Forall₂ _ _ ((noted.toList ++ rest.recovered) ++ rest.final.toList)
      rw [said, List.append_assoc]
      refine .cons covered (ih (laid_next laid) (lineTokens_newlines _).2 ?_)
      rw [Complaint.noteAll, List.foldl_append]
      exact left.next laid
  | case3 c complaint attempt noted failed noRetry final =>
      by_cases atEnd : c.rest = []
      · simp [sourceLines, reported, complaints, final, atEnd]
      · obtain ⟨tokens, lines, bad, stuck⟩ := sourceLines_cons start atEnd
        rw [show (Grammar.line.run c).result = none from failed] at bad stuck
        rw [noRetry] at stuck
        have on : Complaint.OnLine noted c := onLine_attempt handed
        obtain ⟨k, said, covered⟩ := (on.note (.refl c) .endOfInput).covers laid
          (Complaint.note_ne_none noted _) tokens
        have last : final = some k := by
          obtain ⟨t, rest, split⟩ := List.exists_cons_of_ne_nil atEnd
          simp [final, split, said]
        rw [lines, reported, if_neg (by simp [bad]), if_neg (by simp [stuck])]
        change List.Forall₂ _ _ ([] ++ final.toList)
        rw [last]
        exact .cons covered .nil

theorem complaints_ofTokens {tokens : List Token} (zero : allowed 0)
    (row : InRow allowed 0 (tokens.map Token.span) size) :
    List.Forall₂ (fun line k => line.Covers k.diagnostic.span ∧
        allowed k.diagnostic.span.start ∧ allowed k.diagnostic.span.stop)
      (reported (sourceLines tokens)) (ofTokens tokens).complaints := by
  have laid : Cursor.Laid allowed size ⟨0, tokens⟩ := ⟨zero, row⟩
  rw [show sourceLines tokens = _ from (sourceLines_newlines ⟨0, tokens⟩).symm]
  refine complaints_lines (laid_newlines laid).1 (lineTokens_newlines _).2 ?_
  rw [misses_newlines]
  rintro k ⟨⟩
  exact Complaint.at_miss _ _

end Reading

/-- The lines of a file stand one behind the other, with room for a newline between them. By
induction on the lines; where a newline comes next, they begin behind it. -/
theorem sourceLines_ordered {allowed : Nat → Prop} {size stop : Nat} {tokens : List Token}
    (laid : Cursor.Laid allowed size ⟨stop, tokens⟩) :
    (∀ line ∈ sourceLines tokens, Cursor.start ⟨stop, tokens⟩ ≤ line.extent.start ∧
      (EndsLine tokens → Cursor.start ⟨stop, tokens⟩ < line.extent.start)) ∧
    (sourceLines tokens).Pairwise fun line later => line.extent.stop < later.extent.start := by
  fun_induction sourceLines tokens generalizing stop with
  | case1 => exact ⟨fun _ mem => absurd mem List.not_mem_nil, .nil⟩
  | case2 t rest newline ih =>
      obtain ⟨starts, ordered⟩ := ih laid.next
      refine ⟨fun line mem => ?_, ordered⟩
      have after : t.span.stop ≤ line.extent.start :=
        laid.next.stop_le_start.trans (starts line mem).1
      have nonempty : t.span.start < t.span.stop := laid.row.2.1
      exact ⟨nonempty.le.trans after, fun _ => nonempty.trans_le after⟩
  | case3 t rest plain last shorter =>
      rename_i ih
      have toEnd := Cursor.reaches_endOfLine ⟨t.span.stop, rest⟩
      have laid' := laid.next.reached toEnd
      have behind : t.span.stop ≤ last.start :=
        (laid.next.le_of_reaches toEnd).1.trans laid'.stop_le_start
      have nonempty : t.span.start < t.span.stop := laid.row.2.1
      obtain ⟨starts, ordered⟩ := ih laid'
      constructor
      · intro line mem
        have unended : ¬ EndsLine (t :: rest) := fun ends => plain (ends t rfl)
        refine ⟨?_, fun ends => absurd ends unended⟩
        cases mem with
        | head => exact Nat.le_refl _
        | tail _ mem => exact (nonempty.le.trans behind).trans (starts line mem).1
      · refine List.pairwise_cons.mpr ⟨fun line mem => ?_, ordered⟩
        exact (starts line mem).2 (Cursor.endsLine_endOfLine _)

theorem tokens_ne_nil_of_mem {tokens : List Token} {line : SourceLine}
    (mem : line ∈ sourceLines tokens) : line.tokens ≠ [] := by
  fun_induction sourceLines tokens with
  | case1 => cases mem
  | case2 t rest newline ih => exact ih mem
  | case3 t rest plain last shorter ih =>
      cases mem with
      | head => exact List.cons_ne_nil _ _
      | tail _ mem => exact ih mem

theorem recovers_of_accepts {tokens : List Token} (nonempty : tokens ≠ [])
    (good : accepts tokens = true) : recovers tokens = true := by
  obtain ⟨t, rest, rfl⟩ := List.exists_cons_of_ne_nil nonempty
  rw [recovers_cons, good]
  rfl

section Reported

variable {earlier later : List SourceLine} {line : SourceLine}

theorem mem_reported (each : ∀ other ∈ earlier, recovers other.tokens = true)
    (bad : accepts line.tokens = false) : line ∈ reported (earlier ++ line :: later) := by
  induction earlier with
  | nil =>
      rw [List.nil_append, reported, if_neg (by simp [bad])]
      split <;> exact List.mem_cons_self
  | cons other earlier ih =>
      obtain ⟨first, others⟩ := List.forall_mem_cons.mp each
      rw [List.cons_append, reported, if_pos first]
      split
      · exact ih others
      · exact List.mem_cons_of_mem _ (ih others)

theorem reported_ne_nil {lines : List SourceLine} (mem : line ∈ lines)
    (bad : accepts line.tokens = false) : reported lines ≠ [] := by
  induction lines with
  | nil => cases mem
  | cons first lines ih =>
      rw [reported]
      split
      · rename_i good
        cases mem with
        | head => simp [bad] at good
        | tail _ mem => exact ih mem
      · split <;> exact List.cons_ne_nil _ _

/-- Nothing is reported behind a line that cannot be recovered from. -/
theorem mem_of_mem_reported {stuck : SourceLine} (mem : stuck ∈ earlier)
    (bad : accepts stuck.tokens = false) (unread : recovers stuck.tokens = false) :
    ∀ other ∈ reported (earlier ++ later), other ∈ earlier := by
  induction earlier with
  | nil => cases mem
  | cons first earlier ih =>
      intro other found
      rw [List.cons_append, reported] at found
      cases mem with
      | head =>
          rw [if_neg (by simp [bad]), if_neg (by simp [unread]), List.mem_singleton] at found
          exact found ▸ List.mem_cons_self
      | tail _ mem =>
          have others := ih mem
          split at found
          · exact List.mem_cons_of_mem _ (others other found)
          · split at found
            · rcases List.mem_cons.mp found with rfl | found
              · exact List.mem_cons_self
              · exact List.mem_cons_of_mem _ (others other found)
            · exact List.mem_singleton.mp found ▸ List.mem_cons_self

end Reported

section Parse

variable {source : String} {tokens : List Token} (h : tokenize source = .ok tokens)

include h

theorem parse_of_tokens : parse source = parseTokens tokens := by
  rw [parse, h]
  rfl

/-- The diagnostics of a file are one for each line that is reported, in order and on that line. -/
theorem forall₂_diagnostics {diagnostics : List Diagnostic}
    (refused : parse source = .error diagnostics) :
    List.Forall₂ (fun line d => line.Covers d.span ∧ ∀ span ∈ d.spans, span.FitsIn source)
      (reported (sourceLines tokens)) diagnostics := by
  have each := Reading.complaints_ofTokens String.Pos.Raw.isValid_zero (tokens_inRow h)
  rw [parse_of_tokens h, parseTokens] at refused
  cases found : (Reading.ofTokens tokens).complaints with
  | nil => simp [found] at refused
  | cons k more =>
      rw [found] at refused each
      cases refused
      rw [List.forall₂_map_right_iff]
      refine each.imp fun line k ⟨covers, start, stop⟩ => ⟨covers, ?_⟩
      rw [k.spans_diagnostic]
      exact List.forall_mem_singleton.mpr ⟨covers.2.1, stop.le_rawEndPos, start, stop⟩

/-- A file with a bad line is refused. -/
theorem exists_diagnostics {line : SourceLine} (mem : line ∈ sourceLines tokens)
    (bad : accepts line.tokens = false) : ∃ diagnostics, parse source = .error diagnostics := by
  have each := Reading.complaints_ofTokens String.Pos.Raw.isValid_zero (tokens_inRow h)
  rw [parse_of_tokens h, parseTokens]
  cases found : (Reading.ofTokens tokens).complaints with
  | nil =>
      rw [found, List.forall₂_nil_right_iff] at each
      exact absurd each (reported_ne_nil mem bad)
  | cons k more => exact ⟨_, rfl⟩

end Parse

/-- A bad line is reported if and only if every line before it can be read from some token on to
its end. Behind a line that cannot, no line is reported. -/
theorem bad_line_reported_iff {source : String} {tokens : List Token}
    {earlier later : List SourceLine} {line : SourceLine} (lexes : tokenize source = .ok tokens)
    (split : sourceLines tokens = earlier ++ line :: later) (bad : accepts line.tokens = false) :
    ∃ diagnostics, parse source = .error diagnostics ∧
      ((∃ d ∈ diagnostics, line.Covers d.span) ↔
        ∀ other ∈ earlier, recovers other.tokens = true) := by
  have mem : line ∈ sourceLines tokens := by simp [split]
  obtain ⟨diagnostics, refused⟩ := exists_diagnostics lexes mem bad
  have each := forall₂_diagnostics lexes refused
  have laid : Cursor.Laid (Boundary source) source.utf8ByteSize ⟨0, tokens⟩ :=
    ⟨String.Pos.Raw.isValid_zero, tokens_inRow lexes⟩
  have ordered := (sourceLines_ordered laid).2
  rw [split] at each ordered
  refine ⟨diagnostics, refused, ?_, ?_⟩
  · rintro ⟨d, said, covers⟩ stuck before
    by_contra unread
    have unread : recovers stuck.tokens = false := by simpa using unread
    have isBad : accepts stuck.tokens = false := by
      have nonempty := tokens_ne_nil_of_mem (split ▸ List.mem_append_left _ before)
      exact Bool.eq_false_iff.mpr fun good => by simp [recovers_of_accepts nonempty good] at unread
    obtain ⟨other, found, covers', _⟩ := exists_mem_of_forall₂ each.flip said
    have between := (List.pairwise_append.mp ordered).2.2 other
      (mem_of_mem_reported before isBad unread other found) line List.mem_cons_self
    obtain ⟨after, _, _⟩ := covers
    obtain ⟨_, nonneg, within⟩ := covers'
    omega
  · intro recover
    obtain ⟨d, said, covers, _⟩ := exists_mem_of_forall₂ each (mem_reported recover bad)
    exact ⟨d, said, covers⟩

/-- A line that cannot be read, but for the instruction at its end, before another such line. -/
def recoverableText : String := "x = ] y\nx = ]\n"

def recoverableLine : SourceLine :=
  ⟨[⟨.word "x", ⟨0, 1⟩⟩, ⟨.mark .equals, ⟨2, 3⟩⟩, ⟨.mark .closeBracket, ⟨4, 5⟩⟩,
    ⟨.word "y", ⟨6, 7⟩⟩], ⟨0, 7⟩⟩

def nextLine : SourceLine :=
  ⟨[⟨.word "x", ⟨8, 9⟩⟩, ⟨.mark .equals, ⟨10, 11⟩⟩, ⟨.mark .closeBracket, ⟨12, 13⟩⟩], ⟨8, 13⟩⟩

/-- Recovery gets to the next line, so that line is reported too. -/
theorem next_line_reported :
    accepts recoverableLine.tokens = false ∧ accepts nextLine.tokens = false ∧
    ∃ diagnostics, parse recoverableText = .error diagnostics ∧
      ∃ d ∈ diagnostics, nextLine.Covers d.span := by
  have lexes : tokenize recoverableText = .ok (recoverableLine.tokens ++ ⟨.newline, ⟨7, 8⟩⟩ ::
      nextLine.tokens ++ [⟨.newline, ⟨13, 14⟩⟩]) := by decide +kernel
  have split : sourceLines (recoverableLine.tokens ++ ⟨.newline, ⟨7, 8⟩⟩ ::
      nextLine.tokens ++ [⟨.newline, ⟨13, 14⟩⟩]) = [recoverableLine] ++ nextLine :: [] := by
    decide +kernel
  have bad : accepts nextLine.tokens = false := by decide +kernel
  obtain ⟨diagnostics, refused, covered⟩ := bad_line_reported_iff lexes split bad
  refine ⟨by decide +kernel, bad, diagnostics, refused, covered.mpr ?_⟩
  decide +kernel

/-- A line of which no part can be read, before a line that cannot be read either. -/
def unrecoverableText : String := "goto\nx = ]\n"

def lostLine : SourceLine :=
  ⟨[⟨.word "x", ⟨5, 6⟩⟩, ⟨.mark .equals, ⟨7, 8⟩⟩, ⟨.mark .closeBracket, ⟨9, 10⟩⟩], ⟨5, 10⟩⟩

/-- The second line is bad, and the only diagnostic is not on it. -/
theorem lost_line_unreported :
    (∃ tokens first, tokenize unrecoverableText = .ok tokens ∧
      sourceLines tokens = [first, lostLine]) ∧
    accepts lostLine.tokens = false ∧
    ∃ d, parse unrecoverableText = .error [d] ∧ ¬ lostLine.Covers d.span := by
  refine ⟨⟨[⟨.mark .gotoWord, ⟨0, 4⟩⟩, ⟨.newline, ⟨4, 5⟩⟩] ++ lostLine.tokens ++
    [⟨.newline, ⟨10, 11⟩⟩], ⟨[⟨.mark .gotoWord, ⟨0, 4⟩⟩], ⟨0, 4⟩⟩, ?_, ?_⟩, ?_, ?_⟩
  · decide +kernel
  · decide +kernel
  · decide +kernel
  · refine ⟨.error ⟨4, 4⟩ "invalid syntax: expected something else, found newline", ?_, ?_⟩
    · decide +kernel
    · decide

section Diagnostics

variable {line other : SourceLine} {lines : List SourceLine} {tokens : List Token}

/-- Reports follow the lines of the file and pass over some. -/
theorem reported_sublist (lines : List SourceLine) : (reported lines).Sublist lines := by
  fun_induction reported lines with
  | case1 => exact .slnil
  | case2 line rest good ih => exact ih.cons line
  | case3 line rest bad goesOn ih => exact ih.cons_cons line
  | case4 line rest bad stuck => exact (List.nil_sublist rest).cons_cons line

theorem bad_of_mem_reported (mem : line ∈ reported lines) : accepts line.tokens = false := by
  fun_induction reported lines with
  | case1 => cases mem
  | case2 first rest good ih => exact ih mem
  | case3 first rest bad goesOn ih =>
      cases mem with
      | head => simpa using bad
      | tail _ mem => exact ih mem
  | case4 first rest bad stuck =>
      rw [List.mem_singleton.mp mem]
      simpa using bad

theorem plain_of_mem_sourceLines (mem : line ∈ sourceLines tokens) :
    ∀ t ∈ line.tokens, t.kind ≠ .newline := by
  fun_induction sourceLines tokens with
  | case1 => cases mem
  | case2 t rest newline ih => exact ih mem
  | case3 t rest plain last shorter ih =>
      cases mem with
      | head =>
          refine List.forall_mem_cons.mpr ⟨plain, fun u inside => ?_⟩
          simpa using List.mem_takeWhile_imp inside
      | tail _ mem => exact ih mem

/-- The line reader finds no line in the tokens of this one, wherever they stand. -/
def SourceLine.Rejected (line : SourceLine) : Prop :=
  ∀ stop, (Grammar.line.run ⟨stop, line.tokens⟩).result = none

theorem rejected_of_bad (mem : line ∈ sourceLines tokens) (bad : accepts line.tokens = false) :
    line.Rejected := by
  intro stop
  have same := accepts_segment (plain_of_mem_sourceLines mem) (tokens_ne_nil_of_mem mem)
    (show EndsLine [] from nofun) stop
  rw [List.append_nil, bad] at same
  exact Option.not_isSome_iff_eq_none.mp (by simp [← same])

/-- The lines do not touch. -/
def SourceLine.Apart (line other : SourceLine) : Prop :=
  line.extent.stop < other.extent.start ∨ other.extent.stop < line.extent.start

instance : Std.Symm SourceLine.Apart := ⟨fun _ _ => Or.symm⟩

theorem SourceLine.Apart.not_covers {span : Span} (h : line.Apart other)
    (covers : line.Covers span) : ¬ other.Covers span := by
  rintro ⟨start', _, stop'⟩
  obtain ⟨start, nonneg, stop⟩ := covers
  rcases h with before | after
  · omega
  · omega

/-- A span lies on one line of a file at most. -/
theorem line_of_covers {allowed : Nat → Prop} {size : Nat} {span : Span}
    (laid : Cursor.Laid allowed size ⟨0, tokens⟩) (mem : line ∈ sourceLines tokens)
    (mem' : other ∈ sourceLines tokens) (covers : line.Covers span)
    (covers' : other.Covers span) : line = other := by
  have apart : (sourceLines tokens).Pairwise SourceLine.Apart :=
    (sourceLines_ordered laid).2.imp .inl
  by_contra different
  exact (apart.forall mem mem' different).not_covers covers covers'

theorem diagnostics_ne_nil {diagnostics : List Diagnostic}
    (refused : parseTokens tokens = .error diagnostics) : diagnostics ≠ [] := by
  rw [parseTokens] at refused
  cases found : (Reading.ofTokens tokens).complaints with
  | nil => simp [found] at refused
  | cons k more =>
      rw [found] at refused
      cases refused
      exact List.cons_ne_nil _ _

end Diagnostics

/-- A text that has tokens and is refused gets at least one diagnostic. Each lies on a line that
the line reader rejects by itself, no two of them lie on one line, and they come in the order of
the text. -/
theorem diagnostics_on_rejected_lines {source : String} {tokens : List Token}
    {diagnostics : List Diagnostic} (lexes : tokenize source = .ok tokens)
    (refused : parse source = .error diagnostics) :
    diagnostics ≠ [] ∧
      (∀ d ∈ diagnostics, ∃ line ∈ sourceLines tokens, line.Covers d.span ∧ line.Rejected) ∧
      (diagnostics.Pairwise fun d e =>
        ∀ line ∈ sourceLines tokens, ¬ (line.Covers d.span ∧ line.Covers e.span)) ∧
      diagnostics.Pairwise fun d e => d.span.start < e.span.start := by
  have laid : Cursor.Laid (Boundary source) source.utf8ByteSize ⟨0, tokens⟩ :=
    ⟨String.Pos.Raw.isValid_zero, tokens_inRow lexes⟩
  have each := forall₂_diagnostics lexes refused
  have inFile := reported_sublist (sourceLines tokens)
  have ordered := (sourceLines_ordered laid).2.sublist inFile
  refine ⟨diagnostics_ne_nil (parse_of_tokens lexes ▸ refused), fun d said => ?_, ?_, ?_⟩
  · obtain ⟨line, mem, covers, _⟩ := exists_mem_of_forall₂ each.flip said
    exact ⟨line, inFile.subset mem, covers,
      rejected_of_bad (inFile.subset mem) (bad_of_mem_reported mem)⟩
  · refine pairwise_of_forall₂ each ordered ?_
    rintro first mem second mem' d e ⟨coversD, _⟩ ⟨coversE, _⟩ follows line inText ⟨onD, onE⟩
    -- the line of both spans would be the one reported for each of them
    obtain rfl := line_of_covers laid inText (inFile.subset mem) onD coversD
    exact (SourceLine.Apart.not_covers (.inl follows) onE) coversE
  · refine pairwise_of_forall₂ each ordered ?_
    rintro first - second - d e ⟨⟨_, nonneg, before⟩, _⟩ ⟨⟨behind, _, _⟩, _⟩ follows
    omega

/-- A good line between two bad ones, of which the first has an instruction at its end. -/
def twoMistakes : String := "x = ] y\nnoop\ngoto\n"

/-- The two bad lines get a diagnostic each, the good line gets none. -/
theorem diagnostics_of_twoMistakes :
    ∃ tokens first last, tokenize twoMistakes = .ok tokens ∧
      parse twoMistakes = .error [first, last] ∧
      (∃ line ∈ sourceLines tokens, line.Covers first.span ∧ line.Rejected) ∧
      first.span.start < last.span.start := by
  have lexes : tokenize twoMistakes = .ok [⟨.word "x", ⟨0, 1⟩⟩, ⟨.mark .equals, ⟨2, 3⟩⟩,
      ⟨.mark .closeBracket, ⟨4, 5⟩⟩, ⟨.word "y", ⟨6, 7⟩⟩, ⟨.newline, ⟨7, 8⟩⟩,
      ⟨.word "noop", ⟨8, 12⟩⟩, ⟨.newline, ⟨12, 13⟩⟩, ⟨.mark .gotoWord, ⟨13, 17⟩⟩,
      ⟨.newline, ⟨17, 18⟩⟩] := by decide +kernel
  have refused : parse twoMistakes = .error
      [.error ⟨4, 5⟩ "invalid syntax: unexpected ']'",
        .error ⟨17, 17⟩ "invalid syntax: expected something else, found newline"] := by
    decide +kernel
  obtain ⟨_, onLines, _, ordered⟩ := diagnostics_on_rejected_lines lexes refused
  exact ⟨_, _, _, lexes, refused, onLines _ List.mem_cons_self,
    (List.pairwise_cons.mp ordered).1 _ List.mem_cons_self⟩

end OpSelect
