import OpSelect.Catalog.BuiltIn
import OpSelect.Proofs.Lowering.Compiled
import OpSelect.Proofs.Lowering.Simulation
import OpSelect.Proofs.Program.Regrouping

/-!
Lowering without places. Spans are handed through to the diagnostics, and nothing is decided by
them: a run is simulated by the run of the statements without their spans, which comes to the same
result or to the same diagnostics, their spans erased. Two texts with the same statements therefore
compile alike, and these are texts with the same keys in other brackets.
-/

namespace OpSelect

def Diagnostic.unplaced (d : Diagnostic) : Diagnostic :=
  { d with span := ⟨0, 0⟩, remarks := d.remarks.map fun r => ⟨⟨0, 0⟩, r.message⟩ }

def Stop.unplaced : Stop → Stop
  | reported diagnostics => reported (diagnostics.map Diagnostic.unplaced)
  | misuse m => misuse m

def Lowered.unplaced (l : Lowered) : Lowered :=
  { l with warnings := l.warnings.map Diagnostic.unplaced }

namespace Lowering

def unplaced (σ : Lowering) : Lowering where
  selector := σ.selector
  openSub := σ.openSub.map fun (name, _) => (name, ⟨0, 0⟩)
  labelRefs := σ.labelRefs.map fun (id, _) => (id, ⟨0, 0⟩)

theorem unplaced_note (σ : Lowering) (id : SymbolId) (span : Span) :
    (σ.note id span).unplaced = σ.unplaced.note id ⟨0, 0⟩ := by
  have mentioned : (σ.unplaced.labelRefs.any (·.1 == id)) = σ.labelRefs.any (·.1 == id) := by
    rw [unplaced, List.any_map]
    rfl
  unfold note
  rw [mentioned]
  split
  · rfl
  · simp [unplaced]

theorem undefinedLabels_unplaced (σ : Lowering) :
    σ.unplaced.undefinedLabels = σ.undefinedLabels.map Diagnostic.unplaced := by
  unfold undefinedLabels
  rw [List.map_filterMap]
  refine List.filterMap_congr fun entry _ => ?_
  obtain ⟨name, id⟩ := entry
  dsimp only [unplaced]
  rw [List.find?_map, Option.map_map, Option.map_map]
  rfl

theorem unclosed_unplaced (σ : Lowering) :
    σ.unplaced.unclosed = σ.unclosed.map Diagnostic.unplaced := by
  unfold unclosed unplaced
  cases σ.openSub with
  | none => rfl
  | some sub => rfl

end Lowering

section Moved

/-- A place, and none. -/
abbrev Span.Erased (_ erased : Span) : Prop := erased = ⟨0, 0⟩

theorem Operand.moved_unplaced (o : Located Operand) :
    o.Moved Span.Erased (Operand.Moved Span.Erased) (o.unplaced Operand.unplaced) := by
  refine ⟨⟨rfl, List.forall₂_map_right_iff.mpr ?_⟩, rfl⟩
  exact List.forall₂_same.mpr fun _ _ => ⟨rfl, rfl⟩

theorem Statement.form_unplaced {s : Statement} {f : Form} (isForm : s.form = some f) :
    s.unplaced.form =
      some ⟨f.mnemonic, f.operands.map (Located.unplaced Operand.unplaced), f.targets⟩ := by
  cases s with
  | openSub | closeSub | declare | label => cases isForm
  | instruction | jump | call =>
      cases isForm
      rfl
  | branch negated condition => cases condition <;> cases isForm <;> rfl
  | assign target value => cases value <;> cases isForm <;> rfl

theorem Statement.moved_unplaced (s : Located Statement) :
    s.Moved Span.Erased (Statement.Moved Span.Erased) (s.unplaced Statement.unplaced) := by
  obtain ⟨s, span⟩ := s
  refine ⟨?_, rfl⟩
  have operands (operands : List (Located Operand)) :
      Operand.AllMoved Span.Erased operands (operands.map (Located.unplaced Operand.unplaced)) :=
    List.forall₂_map_right_iff.mpr (List.forall₂_same.mpr fun o _ => Operand.moved_unplaced o)
  have form {f : Form} (isForm : s.form = some f)
      (apart : ∀ target source, s ≠ .assign target (.operand source))
      (apart' : ∀ target source, s.unplaced ≠ .assign target (.operand source)) :
      Statement.Moved Span.Erased s s.unplaced :=
    .form isForm (form_unplaced isForm) apart apart' ⟨rfl, operands f.operands, rfl⟩
  cases s with
  | openSub | closeSub | declare | label => exact .bare rfl (by simp)
  | instruction | jump | call | branch => exact form rfl (by simp) (by simp [unplaced])
  | assign target value =>
      cases value with
      | operand source => exact .copy (operands [target, source])
      | new type => exact .create (Operand.moved_unplaced target) ⟨rfl, rfl⟩
      | binary | unary | addr | defined | clone =>
          exact form rfl (by simp) (by simp [unplaced, Value.unplaced])

theorem Diagnostic.Moved.eq_unplaced {d e : Diagnostic} (h : d.Moved Span.Erased e) :
    e = d.unplaced := by
  have remarks : d.remarks.map (fun r => ⟨⟨0, 0⟩, r.message⟩) = e.remarks := by
    refine map_eq_of_forall₂ (h.remarks.flip.imp fun q r moved => ?_)
    rw [← moved.span, ← moved.message]
  rw [h.rest, h.span, ← remarks]
  rfl

end Moved

namespace Simulation

/-- A run, and the run without places. -/
def erasing : Simulation where
  state σ τ := τ = σ.unplaced
  place := Span.Erased
  context := Eq
  stop stop other := other = stop.unplaced

theorem sameSelector_erasing : erasing.SameSelector where
  selector := by
    rintro σ _ rfl
    rfl
  withSelector := by
    rintro σ _ rfl selector
    rfl
  note := by
    rintro σ _ p _ rfl rfl id
    exact (σ.unplaced_note id p).symm
  opened := by
    rintro σ _ rfl
    dsimp only [Lowering.unplaced]
    cases σ.openSub with
    | none => exact .none
    | some sub => exact .some ⟨rfl, rfl⟩
  withOpened := by
    rintro σ _ rfl opened other related
    rw [related.map_eq (f := fun _ => ⟨0, 0⟩) fun _ _ erased => erased]
    rfl
  report moved := congrArg (Stop.reported [·]) moved.eq_unplaced

theorem executes_erasing : erasing.Executes :=
  sameSelector_erasing.executes rfl fun _ => rfl

end Simulation

/-- Lowering commutes with the erasure of spans. -/
theorem lower_unplaced (statements : List (Located Statement)) (selector : Selector) :
    lower (statements.map (Located.unplaced Statement.unplaced)) selector =
      match lower statements selector with
      | .ok lowered => .ok lowered.unplaced
      | .error stop => .error stop.unplaced := by
  have moved : Statement.AllMoved Span.Erased statements
      (statements.map (Located.unplaced Statement.unplaced)) :=
    List.forall₂_map_right_iff.mpr (List.forall₂_same.mpr fun s _ => Statement.moved_unplaced s)
  have run := Simulation.executes_erasing.relates_run moved { selector } { selector } rfl
  cases ran : (statements.forM Lowering.statement).run { selector } with
  | error stop =>
      rw [ran] at run
      obtain ⟨_, ran', rfl⟩ := run.resolve_left id
      rw [lower_of_stop ran, lower_of_stop ran']
  | ok out =>
      rw [ran] at run
      obtain ⟨_, _, ran', _, rfl⟩ := run
      rw [lower_of_run ran, lower_of_run ran', out.2.undefinedLabels_unplaced,
        out.2.unclosed_unplaced]
      cases out.2.undefinedLabels with
      | nil | cons => rfl

section Compiling

def CompileError.unplaced : CompileError → CompileError
  | config error => config error
  | reported diagnostics => reported (diagnostics.map Diagnostic.unplaced)
  | misuse m => misuse m

/-- What becomes of a compilation without its spans. -/
def unplacedOutcome : Except CompileError Lowered → Except CompileError Lowered
  | .ok lowered => .ok lowered.unplaced
  | .error error => .error error.unplaced

/-- Texts with the same statements come to the same end. -/
theorem compile_unplaced {source other : String} {statements others : List (Located Statement)}
    (parsed : parse source = .ok statements) (parsed' : parse other = .ok others)
    (same : others.map (Located.unplaced Statement.unplaced) =
      statements.map (Located.unplaced Statement.unplaced))
    (catalog : Catalog) (config : Config) :
    unplacedOutcome (compile catalog config other) =
      unplacedOutcome (compile catalog config source) := by
  unfold compile
  cases Selector.start catalog config with
  | error error => rfl
  | ok selector =>
      have first := lower_unplaced statements selector
      have second := lower_unplaced others selector
      rw [same, first] at second
      rw [parsed, parsed']
      dsimp only
      generalize lower statements selector = run, lower others selector = run' at second
      match run, run' with
      | .ok lowered, .ok lowered' => exact congrArg Except.ok (Except.ok.inj second).symm
      | .ok _, .error _ | .error _, .ok _ => cases second
      | .error (.misuse _), .error (.misuse _) =>
          cases second
          rfl
      | .error (.reported _), .error (.reported _) =>
          have reports := Stop.reported.inj (Except.error.inj second)
          exact congrArg (fun ds => Except.error (CompileError.reported ds)) reports.symm
      | .error (.reported _), .error (.misuse _) | .error (.misuse _), .error (.reported _) =>
          cases second

/-- Both spellings of keys mean the same. However the semicolons of a text are split, it has the
same statements up to spans; where it compiles, it compiles to the same unit, and so with the same
listing, records and symbols; where it is read and does not compile, the diagnostics are the same
up to spans. -/
theorem key_spellings_agree (catalog : Catalog) (config : Config) (source : String)
    (chosen : Nat → Bool) :
    (∀ statements, parse source = .ok statements →
      ∃ statements', parse (splitKeys chosen source) = .ok statements' ∧
        statements'.map (Located.unplaced Statement.unplaced) =
          statements.map (Located.unplaced Statement.unplaced)) ∧
    (∀ lowered, compile catalog config source = .ok lowered →
      ∃ lowered', compile catalog config (splitKeys chosen source) = .ok lowered' ∧
        lowered'.unit = lowered.unit ∧
        lowered'.warnings.map Diagnostic.unplaced = lowered.warnings.map Diagnostic.unplaced) ∧
    ∀ statements error, parse source = .ok statements →
      compile catalog config source = .error error →
      ∃ error', compile catalog config (splitKeys chosen source) = .error error' ∧
        error'.unplaced = error.unplaced := by
  have outcome {statements : List (Located Statement)} (parsed : parse source = .ok statements) :
      unplacedOutcome (compile catalog config (splitKeys chosen source)) =
        unplacedOutcome (compile catalog config source) := by
    obtain ⟨others, parsed', same⟩ := parse_splitKeys parsed chosen
    exact compile_unplaced parsed parsed' same catalog config
  refine ⟨fun statements parsed => parse_splitKeys parsed chosen, ?_, ?_⟩
  · intro lowered compiled
    obtain ⟨statements, state, run⟩ := compile_eq_ok_iff.mp compiled
    have same := outcome run.parsed
    rw [compiled] at same
    cases other : compile catalog config (splitKeys chosen source) with
    | error error =>
        rw [other] at same
        cases same
    | ok lowered' =>
        rw [other] at same
        obtain ⟨unit, warnings⟩ := Lowered.mk.inj (Except.ok.inj same)
        exact ⟨lowered', rfl, unit, warnings⟩
  · intro statements error parsed failed
    have same := outcome parsed
    rw [failed] at same
    cases other : compile catalog config (splitKeys chosen source) with
    | ok lowered =>
        rw [other] at same
        cases same
    | error error' =>
        rw [other] at same
        exact ⟨error', rfl, Except.error.inj same⟩

def groupedSource : String := "x: $I0 = $P0[1;\"a;b\" ;-2] # 1;2\n$P1[x;$P0] = 3\n"

def groupedListing : String := "x:\n    set $I0, $P0[1;\"a;b\";-2]\n    set $P1[x;$P0], 3\n"

theorem compile_groupedSource :
    ∃ lowered, compile .builtIn {} groupedSource = .ok lowered ∧
      lowered.unit.listing = groupedListing :=
  map_eq_ok.mp (by decide +kernel)

/-- An integer register with keys. -/
def refusedSource : String := "$P0[1;2] = $I0[3;4]\n"

def refusal (span : Span) : CompileError :=
  .reported [(SelectError.illegalKeyedOperand "$I0" .integer).diagnostic span]

theorem compile_refusedSource :
    (∃ statements, parse refusedSource = .ok statements ∧ statements.length = 1) ∧
      compile .builtIn {} refusedSource = .error (refusal ⟨0, 19⟩) :=
  ⟨map_eq_ok.mp (by decide +kernel), by decide +kernel⟩

/-- Two of the three semicolons between keys are split, not those of a string and of a comment. The
text compiles as before, and what is refused is refused in the same words. -/
theorem key_spellings_agree_grouped :
    splitKeys [10, 23].contains groupedSource =
        "x: $I0 = $P0[1][\"a;b\" ;-2] # 1;2\n$P1[x][$P0] = 3\n" ∧
      (∃ lowered, compile .builtIn {} (splitKeys [10, 23].contains groupedSource) = .ok lowered ∧
        lowered.unit.listing = groupedListing) ∧
      ∃ error, compile .builtIn {} (splitKeys [3].contains refusedSource) = .error error ∧
        error.unplaced = refusal ⟨0, 0⟩ := by
  obtain ⟨lowered, compiled, listing⟩ := compile_groupedSource
  obtain ⟨⟨statements, parsed, _⟩, refused⟩ := compile_refusedSource
  have accepts := (key_spellings_agree .builtIn {} groupedSource [10, 23].contains).2.1
  have rejects := (key_spellings_agree .builtIn {} refusedSource [3].contains).2.2
  refine ⟨by decide +kernel, ?_, rejects statements _ parsed refused⟩
  obtain ⟨lowered', compiled', unit, _⟩ := accepts lowered compiled
  exact ⟨lowered', compiled', unit ▸ listing⟩

end Compiling

end OpSelect
