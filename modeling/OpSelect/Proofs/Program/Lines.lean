import OpSelect.Proofs.Program.Outcome
import OpSelect.Proofs.Program.Spelling

/-!
A file is read line by line. No reader of the grammar looks past the end of a line, so what comes
behind it, and where the line begins, has no part in what is read. The file is accepted if each of
its lines is accepted as a file of its own, and then its statements are theirs, one line after the
other. Recovery never makes a bad file good: a line that fails leaves a complaint, whatever is read
after it.
-/

namespace OpSelect

/-- A line may end before these tokens. -/
def EndsLine (tail : List Token) : Prop := ∀ t ∈ tail.head?, t.kind = .newline

theorem endsLine_cons {t : Token} (newline : t.kind = .newline) (tail : List Token) :
    EndsLine (t :: tail) := by
  rintro _ ⟨⟩
  exact newline

/-- The cursor with more tokens behind those still to be read. -/
def Cursor.before (c : Cursor) (tail : List Token) : Cursor := ⟨c.stop, c.rest ++ tail⟩

/-- The sweeper finds the same whatever comes behind the line. -/
def Sweeper.StaysOnLine {β : Type} (q : Sweeper β) : Prop :=
  ∀ c tail, EndsLine tail →
    (q.run (c.before tail)).value = (q.run c).value ∧
      (q.run (c.before tail)).cursor = (q.run c).cursor.before tail

namespace Reader

variable {α β : Type} {p : Reader α} {q : Reader β}

/-- The reader reads the same whatever comes behind the line, and wherever the text before it
ends. -/
def StaysOnLine (p : Reader α) : Prop :=
  ∀ c stop tail, EndsLine tail →
    (p.run ⟨stop, c.rest ++ tail⟩).result = (p.run c).result.map fun (a, d) => (a, d.before tail)

theorem ne_nil {c : Cursor} {out : α × Cursor} (found : (p.run c).result = some out) :
    c.rest ≠ [] := by
  intro none
  have shorter := p.shortens _ _ _ found
  rw [none] at shorter
  cases shorter

theorem result_of_end (p : Reader α) (stop : Nat) : (p.run ⟨stop, []⟩).result = none :=
  Option.eq_none_iff_forall_not_mem.mpr fun _ found => ne_nil found rfl

theorem staysOnLine_accept {e : Expectation} {f : TokenKind → Option α} (h : f .newline = none) :
    (accept e f).StaysOnLine := by
  rintro ⟨start, tokens⟩ stop tail ends
  cases tokens with
  | nil =>
      cases tail with
      | nil => rfl
      | cons t more =>
          rw [List.nil_append, accept_result_cons, ends t rfl, h]
          rfl
  | cons t tokens =>
      rw [List.cons_append, accept_result_cons, accept_result_cons, Option.map_map]
      rfl

theorem staysOnLine_token {kind : TokenKind} (h : kind ≠ .newline) :
    (token kind).StaysOnLine :=
  staysOnLine_accept (if_neg h.symm)

theorem staysOnLine_mark (m : Mark) : (mark m).StaysOnLine := staysOnLine_token nofun

namespace StaysOnLine

theorem map (h : p.StaysOnLine) (f : α → β) : (p.map f).StaysOnLine := by
  intro c stop tail ends
  rw [map_result, map_result, h c stop tail ends, Option.map_map, Option.map_map]
  rfl

theorem andThen (h : p.StaysOnLine) (k : q.StaysOnLine) : (p.andThen q).StaysOnLine := by
  intro c stop tail ends
  rw [andThen_result, andThen_result, h c stop tail ends]
  cases (p.run c).result with
  | none => rfl
  | some out =>
      obtain ⟨a, d⟩ := out
      have second := k d d.stop tail ends
      change (q.run ⟨d.stop, d.rest ++ tail⟩).result.map _ = ((q.run d).result.map _).map _
      rw [second, Option.map_map, Option.map_map]
      rfl

theorem left (h : p.StaysOnLine) (k : q.StaysOnLine) : (p.left q).StaysOnLine :=
  (h.andThen k).map _

theorem right (h : p.StaysOnLine) (k : q.StaysOnLine) : (p.right q).StaysOnLine :=
  (h.andThen k).map _

theorem orElse {p q : Reader α} (h : p.StaysOnLine) (k : q.StaysOnLine) :
    (p <|> q).StaysOnLine := by
  intro c stop tail ends
  rw [orElse_result, orElse_result, h c stop tail ends, k c stop tail ends]
  cases (p.run c).result with
  | none => rfl
  | some out => rfl

/-- A reader that succeeds has taken a token of the line, so the span begins there. -/
theorem located (h : p.StaysOnLine) : p.located.StaysOnLine := by
  rintro ⟨start, tokens⟩ stop tail ends
  rw [located_result, located_result, h ⟨start, tokens⟩ stop tail ends]
  cases tokens with
  | nil =>
      rw [p.result_of_end]
      rfl
  | cons t tokens =>
      rw [Option.map_map, Option.map_map]
      rfl

theorem followedBy {q : Sweeper β} (h : p.StaysOnLine) (k : q.StaysOnLine) :
    (p.followedBy q).StaysOnLine := by
  intro c stop tail ends
  rw [followedBy_result, followedBy_result, h c stop tail ends]
  cases (p.run c).result with
  | none => rfl
  | some out =>
      obtain ⟨a, d⟩ := out
      obtain ⟨value, cursor⟩ := k d tail ends
      dsimp only [Option.map]
      rw [value, cursor]

theorem optional (h : p.StaysOnLine) : p.optional.StaysOnLine := by
  intro c tail ends
  have same := h c c.stop tail ends
  simp only [Reader.optional]
  rw [Cursor.before, same]
  cases (p.run c).result with
  | none => exact ⟨rfl, rfl⟩
  | some out => exact ⟨rfl, rfl⟩

theorem many (h : p.StaysOnLine) : p.many.StaysOnLine := by
  intro c tail ends
  change (p.repeatedly (c.before tail)).value = (p.repeatedly c).value ∧
    (p.repeatedly (c.before tail)).cursor = (p.repeatedly c).cursor.before tail
  fun_induction repeatedly p c with
  | case1 c failed =>
      have fails : (p.run (c.before tail)).result = none := by
        rw [Cursor.before, h c c.stop tail ends, failed]
        rfl
      obtain ⟨cursor, value⟩ := repeatedly_of_none fails
      exact ⟨value, cursor⟩
  | case2 c a d found shorter others ih =>
      have finds : (p.run (c.before tail)).result = some (a, d.before tail) := by
        rw [Cursor.before, h c c.stop tail ends, found]
        rfl
      obtain ⟨cursor, value⟩ := repeatedly_of_some finds
      rw [value, cursor]
      exact ⟨congrArg (a :: ·) ih.1, ih.2⟩

theorem separatedBy (h : p.StaysOnLine) (k : q.StaysOnLine) : (p.separatedBy q).StaysOnLine :=
  (h.followedBy (k.right h).many).map _

end StaysOnLine
end Reader

namespace Grammar

open Reader

theorem staysOnLine_keyword (text : String) : (keyword text).StaysOnLine := staysOnLine_token nofun

theorem staysOnLine_directive (name : String) : (directive name).StaysOnLine :=
  staysOnLine_token nofun

theorem staysOnLine_name : name.StaysOnLine := staysOnLine_accept rfl

theorem staysOnLine_atom : atom.StaysOnLine := by
  apply StaysOnLine.orElse
  · exact staysOnLine_accept rfl
  · exact (staysOnLine_mark _).right (staysOnLine_accept rfl)

theorem staysOnLine_keyGroup : keyGroup.StaysOnLine := by
  apply StaysOnLine.left
  · apply (staysOnLine_mark _).right
    exact staysOnLine_atom.located.separatedBy (staysOnLine_mark _)
  · exact staysOnLine_mark _

theorem staysOnLine_operand : operand.StaysOnLine :=
  ((staysOnLine_atom.followedBy staysOnLine_keyGroup.many).map _).located

theorem staysOnLine_value : value.StaysOnLine := by
  have operand := staysOnLine_operand
  unfold value
  apply StaysOnLine.orElse
  · exact ((staysOnLine_mark _).right (StaysOnLine.located (staysOnLine_accept rfl))).map _
  apply StaysOnLine.orElse
  · exact ((staysOnLine_keyword _).right staysOnLine_name).map _
  apply StaysOnLine.orElse
  · exact ((staysOnLine_keyword _).right operand).map _
  apply StaysOnLine.orElse
  · exact ((staysOnLine_keyword _).right operand).map _
  apply StaysOnLine.orElse
  · exact ((operand.andThen (staysOnLine_accept rfl)).andThen operand).map _
  apply StaysOnLine.orElse
  · exact operand.map _
  · exact (StaysOnLine.andThen (staysOnLine_accept rfl) operand).map _

theorem staysOnLine_condition : condition.StaysOnLine := by
  have operand := staysOnLine_operand
  apply StaysOnLine.orElse
  · exact ((operand.andThen (staysOnLine_accept rfl)).andThen operand).map _
  · exact operand.map _

theorem staysOnLine_conditional : conditional.StaysOnLine := by
  apply StaysOnLine.map
  apply StaysOnLine.andThen
  · apply StaysOnLine.left
    · apply StaysOnLine.andThen
      · exact ((staysOnLine_mark _).map _).orElse ((staysOnLine_mark _).map _)
      · exact staysOnLine_condition
    · exact staysOnLine_mark _
  · exact staysOnLine_name

theorem staysOnLine_instruction : instruction.StaysOnLine := by
  have word (m : Mark) (text : String) : ((mark m).map fun _ => text).StaysOnLine :=
    (staysOnLine_mark m).map _
  have mnemonic : mnemonic.StaysOnLine :=
    staysOnLine_name.orElse ((word _ _).orElse ((word _ _).orElse (word _ _)))
  apply StaysOnLine.map
  apply mnemonic.followedBy
  exact (staysOnLine_operand.separatedBy (staysOnLine_mark _)).optional

theorem staysOnLine_statement : statement.StaysOnLine := by
  have name := staysOnLine_name
  unfold statement
  apply StaysOnLine.orElse
  · exact ((staysOnLine_directive _).right name).map _
  apply StaysOnLine.orElse
  · exact (staysOnLine_directive _).map _
  apply StaysOnLine.orElse
  · exact (((staysOnLine_directive _).right name).andThen name).map _
  apply StaysOnLine.orElse
  · exact ((staysOnLine_mark _).right name).map _
  apply StaysOnLine.orElse
  · exact staysOnLine_conditional
  apply StaysOnLine.orElse
  · exact ((staysOnLine_keyword _).right name).map _
  apply StaysOnLine.orElse
  · exact ((staysOnLine_operand.left (staysOnLine_mark _)).andThen staysOnLine_value).map _
  · exact staysOnLine_instruction

theorem staysOnLine_labelled : labelled.StaysOnLine := by
  apply StaysOnLine.orElse
  · apply StaysOnLine.map
    apply StaysOnLine.followedBy
    · exact ((staysOnLine_name.left (staysOnLine_mark _)).map _).located
    · exact staysOnLine_statement.located.optional
  · exact staysOnLine_statement.located.map _

theorem line_result (c : Cursor) :
    (line.run c).result = (labelled.run c).result.filter fun (_, d) => (lineEnd d).1 := by
  cases first : (labelled.run c).result with
  | none => simp [line, first]
  | some out => simp [line, first, Option.filter]

theorem lineEnd_before (c : Cursor) {tail : List Token} (ends : EndsLine tail) :
    (lineEnd (c.before tail)).1 = (lineEnd c).1 := by
  obtain ⟨stop, tokens⟩ := c
  cases tokens with
  | nil =>
      cases tail with
      | nil => rfl
      | cons t tail => simp [Cursor.before, lineEnd, ends t rfl]
  | cons t tokens =>
      by_cases newline : t.kind = .newline <;> simp [Cursor.before, lineEnd, newline]

theorem staysOnLine_line : line.StaysOnLine := by
  intro c stop tail ends
  rw [line_result, line_result, staysOnLine_labelled c stop tail ends]
  cases (labelled.run c).result with
  | none => rfl
  | some out =>
      obtain ⟨statements, d⟩ := out
      have same := lineEnd_before d ends
      cases atEnd : (lineEnd d).1 with
      | true => simp [Option.filter, atEnd, same]
      | false => simp [Option.filter, atEnd, same]

end Grammar

section Segments

variable {segment tail tokens : List Token}

/-- The lines of a file that are not empty. -/
def lineTokens (tokens : List Token) : List (List Token) :=
  (tokens.splitOnP fun t => t.kind = .newline).filter (!·.isEmpty)

theorem lineTokens_newline {t : Token} (newline : t.kind = .newline) (tokens : List Token) :
    lineTokens (t :: tokens) = lineTokens tokens := by
  unfold lineTokens
  rw [← List.nil_append (t :: tokens), List.splitOnP_append_cons _ _ (by simpa using newline)]
  rfl

theorem lineTokens_append (plain : ∀ t ∈ segment, t.kind ≠ .newline) (nonempty : segment ≠ [])
    (ends : EndsLine tail) : lineTokens (segment ++ tail) = segment :: lineTokens tail := by
  have kept : (!segment.isEmpty) = true := by simpa using nonempty
  have plain' : ∀ t ∈ segment, decide (t.kind = .newline) = false := by simpa using plain
  cases tail with
  | nil =>
      rw [List.append_nil, lineTokens, List.splitOnP_eq_singleton plain', List.filter_cons,
        if_pos kept]
      rfl
  | cons t tail =>
      have newline : t.kind = .newline := ends t rfl
      rw [lineTokens_newline newline, lineTokens,
        List.splitOnP_append_cons_of_forall_mem plain' t (by simpa using newline),
        List.filter_cons, if_pos kept, lineTokens]

/-- The lines of a file that is written line by line. -/
theorem map_lineTokens {lines : List (List TokenKind)}
    (plain : ∀ line ∈ lines, line ≠ [] ∧ .newline ∉ line)
    (written : tokens.map Token.kind = lines.flatMap (· ++ [.newline])) :
    (lineTokens tokens).map (List.map Token.kind) = lines := by
  induction lines generalizing tokens with
  | nil =>
      rw [List.map_eq_nil_iff.mp written]
      rfl
  | cons line lines ih =>
      obtain ⟨⟨nonempty, noNewline⟩, others⟩ := List.forall_mem_cons.mp plain
      rw [List.flatMap_cons, List.append_assoc, List.singleton_append] at written
      obtain ⟨segment, tail, rfl, rfl, later⟩ := List.map_eq_append_iff.mp written
      obtain ⟨t, tail, rfl, newline, rest⟩ := List.map_eq_cons_iff.mp later
      have ends := endsLine_cons newline tail
      have plain' : ∀ t ∈ segment, t.kind ≠ .newline := by
        intro t mem isNewline
        exact noNewline (isNewline ▸ List.mem_map_of_mem mem)
      rw [lineTokens_append plain' (by simpa using nonempty) ends, lineTokens_newline newline,
        List.map_cons, ih others rest]

theorem mem_lineTokens (mem : segment ∈ lineTokens tokens) :
    segment ≠ [] ∧ ∀ t ∈ segment, t.kind ≠ .newline := by
  obtain ⟨piece, nonempty⟩ := List.mem_filter.mp mem
  refine ⟨by simpa using nonempty, ?_⟩
  clear mem nonempty
  induction tokens generalizing segment with
  | nil =>
      rw [List.splitOnP_nil, List.mem_singleton] at piece
      rw [piece]
      nofun
  | cons t tokens ih =>
      rw [List.splitOnP_cons_eq_if_modifyHead] at piece
      by_cases newline : t.kind = .newline
      · rw [if_pos (by simpa using newline), List.mem_cons] at piece
        cases piece with
        | inl empty =>
            rw [empty]
            nofun
        | inr later => exact ih later
      · rw [if_neg (by simpa using newline)] at piece
        obtain ⟨first, others, pieces⟩ := List.exists_cons_of_ne_nil (List.splitOnP_ne_nil _ tokens)
        rw [pieces, List.modifyHead_cons, List.mem_cons] at piece
        cases piece with
        | inl joined =>
            rw [joined]
            exact List.forall_mem_cons.mpr ⟨newline, ih (pieces ▸ List.mem_cons_self)⟩
        | inr later => exact ih (pieces ▸ List.mem_cons_of_mem _ later)

theorem exists_segment (tokens : List Token) :
    ∃ segment tail, tokens = segment ++ tail ∧ (∀ t ∈ segment, t.kind ≠ .newline) ∧
      EndsLine tail := by
  induction tokens with
  | nil => exact ⟨[], [], rfl, nofun, nofun⟩
  | cons t tokens ih =>
      by_cases newline : t.kind = .newline
      · refine ⟨[], t :: tokens, rfl, nofun, ?_⟩
        rintro _ ⟨⟩
        exact newline
      · obtain ⟨segment, tail, rfl, plain, ends⟩ := ih
        exact ⟨t :: segment, tail, rfl, List.forall_mem_cons.mpr ⟨newline, plain⟩, ends⟩

/-- The first line of a file that does not begin with a newline. -/
theorem exists_first_line (nonempty : tokens ≠ [])
    (start : ∀ t ∈ tokens.head?, t.kind ≠ .newline) :
    ∃ segment tail, tokens = segment ++ tail ∧ segment ≠ [] ∧
      (∀ t ∈ segment, t.kind ≠ .newline) ∧ EndsLine tail := by
  cases tokens with
  | nil => exact absurd rfl nonempty
  | cons t tokens =>
      obtain ⟨segment, tail, rfl, plain, ends⟩ := exists_segment tokens
      exact ⟨t :: segment, tail, rfl, List.cons_ne_nil _ _,
        List.forall_mem_cons.mpr ⟨start t rfl, plain⟩, ends⟩

/-- A line is without newlines, so it is read to its end or not at all. -/
theorem Grammar.rest_of_line {stop : Nat} {statements : List (Located Statement)} {d : Cursor}
    (plain : ∀ t ∈ segment, t.kind ≠ .newline)
    (found : (line.run ⟨stop, segment⟩).result = some (statements, d)) : d.rest = [] := by
  obtain ⟨taken, split, _, ended⟩ := line_read found
  cases ended with
  | inl none => exact List.map_eq_nil_iff.mp none
  | inr more =>
      obtain ⟨rest, newline⟩ := more
      have inside : TokenKind.newline ∈ segment.map Token.kind := by
        change TokenKind.newline ∈ Cursor.kinds ⟨stop, segment⟩
        rw [split, newline]
        simp
      obtain ⟨t, mem, isNewline⟩ := List.mem_map.mp inside
      exact absurd isNewline (plain t mem)

end Segments

/-- What a line on its own says. -/
def Grammar.lineStatements? (segment : List Token) : Option (List (Located Statement)) :=
  (line.run ⟨0, segment⟩).result.map Prod.fst

namespace Reading

/-- The file is read without complaints, and these are its statements. -/
def Accepts (r : Reading) (statements : List (Located Statement)) : Prop :=
  r.complaints = [] ∧ statements = r.statements

/-- The newlines at the cursor are empty lines, and none is left. -/
theorem lineTokens_newlines (c : Cursor) :
    lineTokens (newlines c).cursor.rest = lineTokens c.rest ∧
      ∀ t ∈ (newlines c).cursor.rest.head?, t.kind ≠ .newline := by
  unfold newlines
  fun_induction Reader.repeatedly (Reader.token .newline) c with
  | case1 c failed =>
      refine ⟨rfl, ?_⟩
      intro t first newline
      obtain ⟨stop, tokens⟩ := c
      obtain ⟨more, rfl⟩ := List.head?_eq_some_iff.mp first
      simp [Reader.token, newline] at failed
  | case2 c a d found shorter others ih =>
      obtain ⟨stop, tokens⟩ := c
      cases tokens with
      | nil => cases found
      | cons t tokens =>
          by_cases newline : t.kind = .newline
          · simp only [Reader.token, Reader.accept_result_cons, newline, if_true,
              Option.map_some, Option.some.injEq, Prod.mk.injEq] at found
            obtain ⟨_, rfl⟩ := found
            exact ⟨ih.1.trans (lineTokens_newline newline tokens).symm, ih.2⟩
          · simp [Reader.token, newline] at found

section

variable {c : Cursor} (start : ∀ t ∈ c.rest.head?, t.kind ≠ .newline)

include start

/-- The first of the lines at a cursor is what the line reader reads there. -/
theorem lineTokens_cons (nonempty : c.rest ≠ []) :
    ∃ segment tail, lineTokens c.rest = segment :: lineTokens tail ∧
      (∀ statements d, (Grammar.line.run c).result = some (statements, d) → d.rest = tail) ∧
      (Grammar.line.run c).result.map Prod.fst = Grammar.lineStatements? segment := by
  obtain ⟨segment, tail, split, some_, plain, ends⟩ := exists_first_line nonempty start
  have same := Grammar.staysOnLine_line ⟨0, segment⟩ c.stop tail ends
  rw [← split] at same
  refine ⟨segment, tail, ?_, ?_, ?_⟩
  · rw [split]
    exact lineTokens_append plain some_ ends
  · intro statements d found
    rw [same] at found
    obtain ⟨⟨_, e⟩, alone, eq⟩ := Option.map_eq_some_iff.mp found
    cases eq
    change e.rest ++ tail = tail
    rw [Grammar.rest_of_line plain alone, List.nil_append]
  · rw [same, Option.map_map]
    rfl

/-- A file whose first line cannot be read has no statements for its lines. -/
theorem not_lines_of_failed (nonempty : c.rest ≠ []) (failed : (Grammar.line.run c).result = none)
    (parts : List (List (Located Statement))) :
    ¬ List.Forall₂ (fun segment part => Grammar.lineStatements? segment = some part)
      (lineTokens c.rest) parts := by
  obtain ⟨segment, tail, lines, _, same⟩ := lineTokens_cons start nonempty
  rw [lines]
  intro each
  cases each with
  | cons first others =>
      rw [← same, failed] at first
      cases first

end

theorem ne_nil_of_retry {tokens : List Token}
    {found : List (Located Statement) × Cursor × List Miss} (retried : retry tokens = some found) :
    tokens ≠ [] := by
  rintro rfl
  cases retried

/-- The statements of the lines are those of the first and then those of the others. -/
theorem exists_parts_cons {segment : List Token} {segments : List (List Token)}
    {first statements : List (Located Statement)}
    (alone : Grammar.lineStatements? segment = some first) :
    (∃ parts, List.Forall₂ (fun segment part => Grammar.lineStatements? segment = some part)
        (segment :: segments) parts ∧ statements = parts.flatten) ↔
      ∃ others, statements = first ++ others ∧
        ∃ parts, List.Forall₂ (fun segment part => Grammar.lineStatements? segment = some part)
          segments parts ∧ others = parts.flatten := by
  constructor
  · rintro ⟨_, each, rfl⟩
    cases each with
    | cons one others =>
        rw [alone] at one
        cases one
        exact ⟨_, rfl, _, others, rfl⟩
  · rintro ⟨_, rfl, parts, each, rfl⟩
    exact ⟨first :: parts, .cons alone each, rfl⟩

/-- Lines are accepted if each is, whatever complaint was handed over. -/
theorem accepts_lines {c : Cursor} (start : ∀ t ∈ c.rest.head?, t.kind ≠ .newline)
    (complaint : Option Complaint) (statements : List (Located Statement)) :
    (lines c complaint).Accepts statements ↔
      ∃ parts, List.Forall₂ (fun segment part => Grammar.lineStatements? segment = some part)
        (lineTokens c.rest) parts ∧ statements = parts.flatten := by
  fun_induction lines c complaint generalizing statements with
  | case1 c complaint attempt noted first d found _ _ gap rest ih =>
      obtain ⟨segment, tail, split, after, same⟩ := lineTokens_cons start (Reader.ne_nil found)
      have alone : Grammar.lineStatements? segment = some first := by
        rw [← same]
        exact congrArg _ found
      obtain ⟨gap_lines, gap_start⟩ := lineTokens_newlines d
      specialize ih gap_start
      rw [gap_lines, after first d found] at ih
      rw [split, exists_parts_cons alone]
      constructor
      · rintro ⟨good, rfl⟩
        exact ⟨_, rfl, (ih _).mp ⟨good, rfl⟩⟩
      · rintro ⟨others, rfl, parts⟩
        obtain ⟨good, rfl⟩ := (ih others).mpr parts
        exact ⟨good, rfl⟩
  | case2 c complaint attempt noted failed first d misses retried _ _ gap rest _ =>
      have complained : noted ≠ none :=
        Complaint.noteAll_ne_none (Grammar.complains_line c failed)
      refine iff_of_false ?_ ?_
      · rintro ⟨good, _⟩
        simp only [complaints, List.append_eq_nil_iff, Option.toList_eq_nil_iff] at good
        exact complained good.1.1
      · rintro ⟨parts, each, _⟩
        exact not_lines_of_failed start (ne_nil_of_retry retried) failed parts each
  | case3 c complaint attempt noted failed noRetry final =>
      by_cases atEnd : c.rest = []
      · simp [Accepts, complaints, final, atEnd, lineTokens]
      · have complained : final ≠ none := by
          obtain ⟨t, more, rest⟩ := List.exists_cons_of_ne_nil atEnd
          simp only [final, rest]
          exact Complaint.note_ne_none noted _
        refine iff_of_false ?_ ?_
        · rintro ⟨good, _⟩
          simp only [complaints, List.nil_append, Option.toList_eq_nil_iff] at good
          exact complained good
        · rintro ⟨parts, each, _⟩
          exact not_lines_of_failed start atEnd failed parts each

end Reading

theorem parseTokens_eq_ok_lines {tokens : List Token} {statements : List (Located Statement)} :
    parseTokens tokens = .ok statements ↔
      ∃ parts, List.Forall₂ (fun segment part => Grammar.lineStatements? segment = some part)
        (lineTokens tokens) parts ∧ statements = parts.flatten := by
  obtain ⟨lines, start⟩ := Reading.lineTokens_newlines ⟨0, tokens⟩
  change _ = lineTokens tokens at lines
  rw [parseTokens_eq_ok, ← lines]
  exact Reading.accepts_lines start _ statements

section Alone

variable {tokens segment : List Token} (mem : segment ∈ lineTokens tokens)

include mem

/-- A line of a file, read as a file of its own. -/
theorem parseTokens_line (part : List (Located Statement)) :
    parseTokens segment = .ok part ↔ Grammar.lineStatements? segment = some part := by
  obtain ⟨nonempty, plain⟩ := mem_lineTokens mem
  have single : lineTokens segment = [segment] := by
    have whole := lineTokens_append plain nonempty (show EndsLine [] from nofun)
    rwa [List.append_nil] at whole
  rw [parseTokens_eq_ok_lines, single]
  constructor
  · rintro ⟨_, each, rfl⟩
    cases each with
    | cons first others =>
        cases others
        simpa using first
  · intro alone
    exact ⟨[part], .cons alone .nil, by simp⟩

theorem toOption_parseTokens_line :
    (parseTokens segment).toOption = Grammar.lineStatements? segment := by
  cases result : parseTokens segment with
  | ok part => exact ((parseTokens_line mem part).mp result).symm
  | error diagnostics =>
      cases alone : Grammar.lineStatements? segment with
      | none => rfl
      | some part =>
          rw [(parseTokens_line mem part).mpr alone] at result
          cases result

/-- A line says in its place what it says on its own. -/
theorem line_in_place (stop : Nat) {tail : List Token} (ends : EndsLine tail) :
    (Grammar.line.run ⟨stop, segment ++ tail⟩).result.map Prod.fst =
      (parseTokens segment).toOption := by
  rw [Grammar.staysOnLine_line ⟨0, segment⟩ stop tail ends, Option.map_map,
    toOption_parseTokens_line mem]
  rfl

end Alone

/-- A file is accepted if each line that is not empty is, as a file of its own, and its statements
with their spans are those of its lines in order. What the text before and behind a line is has no
part in what the line says. -/
theorem parseTokens_compositional (tokens : List Token) :
    (∀ statements, parseTokens tokens = .ok statements ↔
      ∃ parts, List.Forall₂ (fun line part => parseTokens line = .ok part) (lineTokens tokens)
        parts ∧ statements = parts.flatten) ∧
    ∀ line ∈ lineTokens tokens, ∀ stop tail, EndsLine tail →
      (Grammar.line.run ⟨stop, line ++ tail⟩).result.map Prod.fst =
        (parseTokens line).toOption := by
  refine ⟨fun statements => ?_, fun line mem stop tail ends => line_in_place mem stop ends⟩
  rw [parseTokens_eq_ok_lines]
  refine exists_congr fun parts => and_congr_left fun _ => ?_
  constructor
  · intro each
    have within := (List.forall₂_and_left _ _).mpr ⟨fun _ mem => mem, each⟩
    exact within.imp fun line part ⟨mem, alone⟩ => (parseTokens_line mem part).mpr alone
  · intro each
    have within := (List.forall₂_and_left _ _).mpr ⟨fun _ mem => mem, each⟩
    exact within.imp fun line part ⟨mem, parsed⟩ => (parseTokens_line mem part).mp parsed

/-- A label, with a jump to it below a gap. -/
def jumpBack : List Token :=
  [⟨.word "L", ⟨0, 1⟩⟩, ⟨.mark .colon, ⟨1, 2⟩⟩, ⟨.newline, ⟨2, 3⟩⟩, ⟨.newline, ⟨3, 4⟩⟩,
   ⟨.mark .gotoWord, ⟨4, 8⟩⟩, ⟨.word "L", ⟨9, 10⟩⟩]

/-- The jump is the one that its line has alone, also in front of another line. -/
theorem parseTokens_compositional_jumpBack :
    parseTokens jumpBack = .ok [⟨.label "L", ⟨0, 2⟩⟩, ⟨.jump "L", ⟨4, 10⟩⟩] ∧
    (Grammar.line.run ⟨3, jumpBack.drop 4 ++ jumpBack.drop 3⟩).result.map Prod.fst =
      some [⟨.jump "L", ⟨4, 10⟩⟩] := by
  have lines : lineTokens jumpBack = [jumpBack.take 2, jumpBack.drop 4] := by decide +kernel
  have label : parseTokens (jumpBack.take 2) = .ok [⟨.label "L", ⟨0, 2⟩⟩] := by decide +kernel
  have jump : parseTokens (jumpBack.drop 4) = .ok [⟨.jump "L", ⟨4, 10⟩⟩] := by decide +kernel
  obtain ⟨whole, inPlace⟩ := parseTokens_compositional jumpBack
  rw [lines] at whole inPlace
  constructor
  · exact (whole _).mpr ⟨_, .cons label (.cons jump .nil), rfl⟩
  · rw [inPlace _ (by simp) 3 _ (by simp [EndsLine, jumpBack]), jump]
    rfl

end OpSelect
