import OpSelect.Catalog.BuiltIn
import OpSelect.Proofs.Lowering.Compiled
import OpSelect.Proofs.Lowering.Simulation
import OpSelect.Proofs.Program.Recovery

/-!
Where diagnostics point. Lowering remembers the places of labels and of the open subroutine, and all
that it remembers or reports is the place of a statement, an operand or a key. So every span that
compiling a text gives back is a part of that text.
-/

namespace OpSelect

/-- All places that lowering remembers. -/
def Lowering.spans (σ : Lowering) : List Span :=
  σ.openSub.toList.map Prod.snd ++ σ.labelRefs.map Prod.snd

namespace Lowering

section Ends

variable {K : Span → Prop} {σ : Lowering}

theorem spans_undefinedLabels (within : ∀ span ∈ σ.spans, K span) :
    ∀ d ∈ σ.undefinedLabels, ∀ span ∈ d.spans, K span := by
  intro d mem
  obtain ⟨⟨name, id⟩, _, isSaid⟩ := List.mem_filterMap.mp mem
  obtain ⟨⟨id', place⟩, found, rfl⟩ := Option.map_eq_some_iff.mp isSaid
  refine List.forall_mem_singleton.mpr (within place (List.mem_append_right _ ?_))
  exact List.mem_map_of_mem (List.mem_of_find?_eq_some found)

theorem spans_unclosed (within : ∀ span ∈ σ.spans, K span) :
    ∀ d ∈ σ.unclosed, ∀ span ∈ d.spans, K span := by
  intro d mem
  obtain ⟨⟨name, place⟩, isOpen, rfl⟩ := List.mem_map.mp mem
  refine List.forall_mem_singleton.mpr (within place (List.mem_append_left _ ?_))
  exact List.mem_map_of_mem isOpen

theorem spans_note {place : Span} (id : SymbolId) (within : ∀ span ∈ σ.spans, K span)
    (here : K place) : ∀ span ∈ (σ.note id place).spans, K span := by
  unfold note
  split
  · exact within
  · obtain ⟨opened, mentioned⟩ := List.forall_mem_append.mp within
    rw [spans, List.map_append]
    refine List.forall_mem_append.mpr ⟨opened, ?_⟩
    exact List.forall_mem_append.mpr ⟨mentioned, List.forall_mem_singleton.mpr here⟩

end Ends
end Lowering

def Stop.diagnostics : Stop → List Diagnostic
  | reported diagnostics => diagnostics
  | misuse _ => []

theorem Diagnostic.Moved.spans {K : Span → Prop} {d e : Diagnostic}
    (h : d.Moved (fun p q => q = p ∧ K p) e) : ∀ span ∈ d.spans, K span := by
  refine List.forall_mem_cons.mpr ⟨h.span.2, List.forall_mem_map.mpr ?_⟩
  exact forall_of_forall₂ h.remarks.flip fun _ _ _ moved => moved.span.2

namespace Simulation

variable {K : Span → Prop}

/-- A run and itself, where all places are of a kind. -/
def pointing (K : Span → Prop) : Simulation where
  state σ τ := τ = σ ∧ ∀ span ∈ σ.spans, K span
  place p q := q = p ∧ K p
  context := Eq
  stop stop _ := ∀ d ∈ stop.diagnostics, ∀ span ∈ d.spans, K span

theorem sameSelector_pointing : (pointing K).SameSelector where
  selector start := by rw [start.1]
  withSelector := by
    rintro σ _ ⟨rfl, within⟩ selector
    exact ⟨rfl, within⟩
  note := by
    rintro σ _ p _ ⟨rfl, within⟩ ⟨rfl, here⟩ id
    exact ⟨rfl, Lowering.spans_note id within here⟩
  opened := by
    rintro σ _ ⟨rfl, within⟩
    refine opened_self fun sub isOpen => ⟨rfl, within sub.2 ?_⟩
    exact List.mem_append_left _ (List.mem_map_of_mem (Option.mem_toList.mpr isOpen))
  withOpened := by
    rintro σ _ ⟨rfl, within⟩ opened other related
    obtain rfl := related.eq fun _ _ place => place.1
    refine ⟨rfl, List.forall_mem_append.mpr ⟨?_, (List.forall_mem_append.mp within).2⟩⟩
    cases related with
    | none => exact List.forall_mem_nil _
    | some related => exact List.forall_mem_singleton.mpr related.2.2
  report moved := List.forall_mem_singleton.mpr moved.spans

theorem executes_pointing : (pointing K).Executes :=
  sameSelector_pointing.executes rfl fun _ => List.forall_mem_nil _

end Simulation

/-- What lowering reports or warns about is a place of a statement. -/
theorem spans_lower {K : Span → Prop} {statements : List (Located Statement)}
    (h : ∀ s ∈ statements, ∀ span ∈ Statement.spans s, K span) (selector : Selector) :
    (∀ diagnostics, lower statements selector = .error (.reported diagnostics) →
      ∀ d ∈ diagnostics, ∀ span ∈ d.spans, K span) ∧
    ∀ lowered, lower statements selector = .ok lowered →
      ∀ d ∈ lowered.warnings, ∀ span ∈ d.spans, K span := by
  have moved : Statement.AllMoved (Simulation.pointing K).place statements statements :=
    List.forall₂_same.mpr fun s mem =>
      Statement.moved_self fun span inside => ⟨rfl, h s mem span inside⟩
  have run := Simulation.executes_pointing.relates_run moved { selector } _ ⟨rfl, nofun⟩
  cases ran : (statements.forM Lowering.statement).run { selector } with
  | error stop =>
      rw [ran] at run
      obtain ⟨_, _, pointed⟩ := run.resolve_left id
      rw [lower_of_stop ran]
      refine ⟨?_, nofun⟩
      rintro diagnostics ⟨⟩
      exact pointed
  | ok out =>
      rw [ran] at run
      obtain ⟨_, _, _, _, _, within⟩ := run
      rw [lower_of_run ran]
      cases labels : out.2.undefinedLabels with
      | nil =>
          refine ⟨nofun, ?_⟩
          rintro lowered ⟨⟩
          exact Lowering.spans_unclosed within
      | cons first more =>
          refine ⟨?_, nofun⟩
          rintro diagnostics ⟨⟩
          exact labels ▸ Lowering.spans_undefinedLabels within

section Parse

variable {source : String}

/-- The statements of a text stand in a row, and so do their operands and the keys of these. -/
theorem parse_placed {statements : List (Located Statement)} (h : parse source = .ok statements) :
    InRow (Boundary source) 0 (statements.map Located.span) source.utf8ByteSize ∧
      ∀ s ∈ statements, Statement.Placed (Boundary source) s := by
  cases lexed : tokenize source with
  | error diagnostics =>
      rw [parse, lexed] at h
      cases h
  | ok tokens =>
      rw [parse_of_tokens lexed] at h
      obtain ⟨_, rfl⟩ := parseTokens_eq_ok.mp h
      have laid : Cursor.Laid (Boundary source) source.utf8ByteSize ⟨0, tokens⟩ :=
        ⟨String.Pos.Raw.isValid_zero, tokens_inRow lexed⟩
      obtain ⟨laid', after⟩ := Reading.laid_newlines laid
      obtain ⟨row, placed⟩ := Reading.statements_lines laid'
        (Complaint.noteAll none (Reading.newlines ⟨0, tokens⟩).misses)
      exact ⟨row.widen after (Nat.le_refl _), placed⟩

theorem parse_reports {diagnostics : List Diagnostic} (h : parse source = .error diagnostics) :
    ∀ d ∈ diagnostics, ∀ span ∈ d.spans, span.FitsIn source := by
  cases lexed : tokenize source with
  | error reports =>
      rw [parse, lexed] at h
      cases h
      exact reports_fitIn lexed
  | ok tokens =>
      intro d mem
      obtain ⟨line, _, _, fits⟩ := exists_mem_of_forall₂ (forall₂_diagnostics lexed h).flip mem
      exact fits

/-- The statement, its operands and their keys are parts of the text. -/
theorem Statement.Placed.fitsIn {s : Located Statement}
    (placed : Statement.Placed (Boundary source) s) (here : s.span.FitsIn source) :
    ∀ span ∈ Statement.spans s, span.FitsIn source := by
  refine List.forall_mem_cons.mpr ⟨here, fun span mem => ?_⟩
  obtain ⟨o, isOperand, mem⟩ := List.mem_flatMap.mp mem
  cases mem with
  | head => exact placed.row.fitsIn (List.mem_map_of_mem isOperand)
  | tail _ mem => exact (placed.keys o isOperand).fitsIn mem

end Parse

/-- Spans are parts of the text. In a text that can be read, the statements stand in a row, the
operands of each statement stand in a row within it, and the keys of each operand stand in a row
within the operand. All that compiling reports or warns about, with any catalog and any settings,
points to parts of the text as well. -/
theorem spans_fitIn (source : String) :
    (∀ statements, parse source = .ok statements →
      InRow (Boundary source) 0 (statements.map Located.span) source.utf8ByteSize ∧
      ∀ s ∈ statements, Statement.Placed (Boundary source) s ∧
        ∀ span ∈ Statement.spans s, span.FitsIn source) ∧
    ∀ catalog config,
      (∀ diagnostics, compile catalog config source = .error (.reported diagnostics) →
        ∀ d ∈ diagnostics, ∀ span ∈ d.spans, span.FitsIn source) ∧
      ∀ lowered, compile catalog config source = .ok lowered →
        ∀ d ∈ lowered.warnings, ∀ span ∈ d.spans, span.FitsIn source := by
  have read : ∀ statements, parse source = .ok statements →
      InRow (Boundary source) 0 (statements.map Located.span) source.utf8ByteSize ∧
      ∀ s ∈ statements, Statement.Placed (Boundary source) s ∧
        ∀ span ∈ Statement.spans s, span.FitsIn source := by
    intro statements parsed
    obtain ⟨row, placed⟩ := parse_placed parsed
    refine ⟨row, fun s mem => ⟨placed s mem, ?_⟩⟩
    exact (placed s mem).fitsIn (row.fitsIn (List.mem_map_of_mem mem))
  refine ⟨read, fun catalog config => ?_⟩
  unfold compile
  cases Selector.start catalog config with
  | error error => exact ⟨nofun, nofun⟩
  | ok selector =>
      cases parsed : parse source with
      | error reports =>
          refine ⟨?_, nofun⟩
          rintro _ ⟨⟩
          exact parse_reports parsed
      | ok statements =>
          have within : ∀ s ∈ statements, ∀ span ∈ Statement.spans s, span.FitsIn source :=
            fun s mem => ((read statements parsed).2 s mem).2
          obtain ⟨reports, warnings⟩ := spans_lower within selector
          dsimp only
          cases lowered : lower statements selector with
          | error stop =>
              refine ⟨?_, ?_⟩
              · cases stop with
                | reported diagnostics =>
                    rintro _ ⟨⟩
                    exact reports diagnostics lowered
                | misuse misuse => nofun
              · cases stop <;> nofun
          | ok result =>
              refine ⟨nofun, ?_⟩
              rintro _ ⟨⟩
              exact warnings result lowered

/-- A subroutine within another, behind a key with a character of two bytes. -/
def nestedText : String := ".sub m\n$P1[\"é\"] = $I0\n.sub n\n"

/-- A subroutine that is not closed. -/
def unclosedText : String := "# é\n.sub m\n"

/-- The report on the inner subroutine points to the outer one as well. -/
theorem spans_fitIn_subroutines :
    (∃ statements, parse nestedText = .ok statements ∧
      statements.map Located.span = [⟨0, 6⟩, ⟨7, 22⟩, ⟨23, 29⟩] ∧
      InRow (Boundary nestedText) 0 [⟨0, 6⟩, ⟨7, 22⟩, ⟨23, 29⟩] nestedText.utf8ByteSize) ∧
    (∃ d, compile .builtIn {} nestedText = .error (.reported [d]) ∧
      d.spans = [⟨23, 29⟩, ⟨0, 6⟩] ∧ ∀ span ∈ d.spans, span.FitsIn nestedText) ∧
    ∃ lowered, compile .builtIn {} unclosedText = .ok lowered ∧
      lowered.warnings.map Diagnostic.spans = [[⟨5, 11⟩]] ∧
      ∀ d ∈ lowered.warnings, ∀ span ∈ d.spans, span.FitsIn unclosedText := by
  obtain ⟨read, compiled⟩ := spans_fitIn nestedText
  refine ⟨?_, ?_, ?_⟩
  · obtain ⟨statements, parsed, places⟩ : ∃ statements, parse nestedText = .ok statements ∧
        statements.map Located.span = [⟨0, 6⟩, ⟨7, 22⟩, ⟨23, 29⟩] :=
      map_eq_ok.mp (by decide +kernel)
    exact ⟨statements, parsed, places, places ▸ (read statements parsed).1⟩
  · let d := ((Diagnostic.error ⟨23, 29⟩ "'.sub n' starts inside '.sub m'").withRemark ⟨0, 6⟩
      "still open").withHelp "close the previous subroutine with '.end'"
    have reported : compile .builtIn {} nestedText = .error (.reported [d]) := by decide +kernel
    exact ⟨d, reported, rfl, (compiled .builtIn {}).1 [d] reported d List.mem_cons_self⟩
  · obtain ⟨lowered, compiled, places⟩ : ∃ lowered,
        compile .builtIn {} unclosedText = .ok lowered ∧
        lowered.warnings.map Diagnostic.spans = [[⟨5, 11⟩]] :=
      map_eq_ok.mp (by decide +kernel)
    exact ⟨lowered, compiled, places,
      ((spans_fitIn unclosedText).2 .builtIn {}).2 lowered compiled⟩

end OpSelect
