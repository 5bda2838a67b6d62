import OpSelect.Proofs.Lowering.Compiled
import OpSelect.Proofs.Lowering.Reference

/-!
Labels of a whole file. Each statement is a step that meets its references in the order of the
text and may define a label. So at the end of the file the state of lowering knows which labels
are undefined, and the main result follows: either there are none, and label instructions and
addresses correspond, or each of them is reported at its first reference.
-/

namespace OpSelect

/-- A word that is spelled like a machine register mentions no label. -/
def Atom.references (span : Span) : Atom → List Reference
  | .word name => if (machineRegister? name).isNone then [{ name, span }] else []
  | .integer _ | .float _ | .string _ | .register _ | .typeName _ => []

def Atom.allReferences (atoms : List (Located Atom)) : List Reference :=
  atoms.flatMap fun a => a.node.references a.span

/-- The container comes before its keys and is referred to at the whole operand. -/
def Operand.references (o : Located Operand) : List Reference :=
  o.node.base.references o.span ++ Atom.allReferences o.node.keys

/-- The target of a jump is referred to at the whole statement. -/
def Reference.target (span : Span) (name : String) : Reference :=
  { name, span, isTarget := true }

def Value.references (span : Span) : Value → List Reference
  | .operand source | .unary _ source | .defined source | .clone source =>
      Operand.references source
  | .binary _ lhs rhs => Operand.references lhs ++ Operand.references rhs
  | .addr label => [.target span label]
  | .new _ => []

def Condition.references : Condition → List Reference
  | .truth operand => Operand.references operand
  | .compare _ lhs rhs => Operand.references lhs ++ Operand.references rhs

/-- The references of a statement, in the order of the text. -/
def Statement.references (s : Located Statement) : List Reference :=
  match s.node with
  | .openSub _ | .closeSub | .declare .. | .label _ => []
  | .instruction _ operands => operands.flatMap Operand.references
  | .assign target value => Operand.references target ++ value.references s.span
  | .jump name | .call name => [.target s.span name]
  | .branch _ condition name => condition.references ++ [.target s.span name]

namespace Lowering

variable {σ τ υ : Lowering} {refs others : List Reference} {defs : List String} {id : SymbolId}
  {s : Located Statement} {r : Request} {asked : Option Request}

/-- From `σ` to `τ` the references were met and no label was defined. -/
def Meets (others : List Reference) (σ τ : Lowering) : Prop :=
  ∀ refs defs, Tracks refs defs σ → Tracks (refs ++ others) defs τ

theorem Meets.refl (σ : Lowering) : Meets [] σ σ := by
  intro refs defs h
  rw [List.append_nil]
  exact h

theorem Meets.trans (h : Meets refs σ τ) (k : Meets others τ υ) : Meets (refs ++ others) σ υ := by
  intro before defs tracks
  rw [← List.append_assoc]
  exact k _ _ (h _ _ tracks)

theorem meets_quiet (quiet : σ.selector.Quiet τ.selector) (same : τ.labelRefs = σ.labelRefs) :
    Meets [] σ τ := by
  intro refs defs h
  rw [List.append_nil]
  exact h.quiet quiet same

theorem meets_symbols {table : SymbolTable} (quiet : σ.selector.symbols.Quiet table) :
    Meets [] σ { σ with selector := { σ.selector with symbols := table } } :=
  meets_quiet ⟨quiet, rfl⟩ rfl

theorem labelRef_meets {r : Reference} (h : (labelRef r.name r.span).run σ = .ok (id, τ)) :
    Meets [r] σ τ :=
  fun _ _ tracks => tracks.labelRef h

theorem references_ordinary {name : String} (span : Span)
    (ordinary : machineRegister? name = none) :
    (Atom.word name).references span = [{ name, span }] := by
  simp [Atom.references, ordinary]

theorem references_register {name : String} {register : ValueClass × Nat} (span : Span)
    (spelled : machineRegister? name = some register) :
    (Atom.word name).references span = [] := by
  simp [Atom.references, spelled]

theorem constant_meets {text : String} {cls : ValueClass}
    (h : (intern (·.constant text cls)).run σ = .ok (id, τ)) : Meets [] σ τ := by
  cases h
  exact meets_symbols (σ.selector.symbols.quiet_constant text cls)

theorem Finds.meets {a : Atom} {span : Span} (h : Finds σ span a id τ) :
    Meets (a.references span) σ τ := by
  cases h with
  | constant literal interned =>
      have none : a.references span = [] := by
        cases a with
        | integer | float | string | register | typeName => rfl
        | word => cases literal
      rw [none]
      exact constant_meets interned
  | register ofClass found => exact meets_symbols (SymbolTable.quiet_var found)
  | @declared name _ leads value =>
      cases spelled : machineRegister? name with
      | none =>
          rw [references_ordinary span spelled]
          exact fun _ _ tracks => tracks.declared leads value rfl
      | some register =>
          rw [references_register span spelled]
          exact .refl _
  | machine spelled found =>
      rw [references_register span spelled]
      exact meets_symbols (SymbolTable.quiet_machineRegister found)
  | @label name _ _ ordinary referred =>
      rw [references_ordinary span ordinary]
      exact labelRef_meets (r := { name, span }) referred

theorem meets_same (same : τ.selector = σ.selector) (noted : τ.labelRefs = σ.labelRefs) :
    Meets [] σ τ := by
  refine meets_quiet ⟨?_, ?_⟩ noted
  · rw [same]
    exact .refl _
  · rw [same]

theorem lowersStatements_meets :
    LowersStatements (fun a => a.node.references a.span) (fun span name => [.target span name])
      (fun _ => []) Meets where
  refl := .refl
  trans := .trans
  atom ran := (atom_finds ran).meets
  collapse _ chain := meets_symbols (SymbolTable.quiet_collapse chain _)
  constant := constant_meets
  labelRef ran := labelRef_meets (r := .target _ _) ran
  declare found := meets_symbols (SymbolTable.quiet_declare found)
  same := meets_same

theorem weigh_references (s : Located Statement) :
    weighStatement (fun a => a.node.references a.span) (fun span name => [.target span name])
      (fun _ => []) s = Statement.references s := by
  have operand : weigh (fun a => a.node.references a.span) = Operand.references := rfl
  obtain ⟨node, span⟩ := s
  cases node with
  | openSub | closeSub | declare | label | jump | call => rfl
  | instruction => simp [weighStatement, Statement.form, operand, Statement.references]
  | branch negated condition name =>
      cases condition <;>
        simp [weighStatement, Statement.form, Condition.form, operand, Statement.references,
          Condition.references]
  | assign target value =>
      cases value <;>
        simp [weighStatement, Statement.form, Value.form, operand, Statement.references,
          Value.references]

/-- The operands of a statement meet its references, and its label is left to the selector. -/
theorem Asks.meets (h : Asks s σ asked τ) : Meets (Statement.references s) σ τ := by
  rw [← weigh_references]
  exact lowersStatements_meets.asks h

/-- An answer defines the label of the request, if it has one. -/
theorem Tracks.answered (h : Tracks refs defs σ) {selector : Selector} {first : Nat}
    (answer : r.answer σ.selector = (selector, .ok first)) :
    Tracks refs (defs ++ r.labels) { σ with selector } := by
  cases r with
  | label name => exact h.label answer
  | operation mnemonic context =>
      rw [Request.labels, List.append_nil]
      exact h.quiet (Selector.resolve_quiet answer) rfl
  | fetch dest container key =>
      rw [Request.labels, List.append_nil]
      exact h.quiet ((Selector.indexes_fetch ..).quiet answer) rfl
  | store container key value =>
      rw [Request.labels, List.append_nil]
      exact h.quiet ((Selector.indexes_store ..).quiet answer) rfl

/-- What one statement adds. -/
theorem Tracks.statement (h : Tracks refs defs σ) (ran : (statement s).run σ = .ok ((), τ)) :
    Tracks (refs ++ Statement.references s) (defs ++ s.node.defines) τ := by
  rcases statement_ok ran with requested | ⟨asked, reached, selector, first, requested, answer, rfl⟩
  · have asks := request_asks requested
    simpa [← asks.labels] using asks.meets _ _ h
  · have asks := request_asks requested
    simpa [← asks.labels] using (asks.meets _ _ h).answered answer

/-- What a file adds. -/
theorem Tracks.run {statements : List (Located Statement)} (h : Tracks refs defs σ)
    (ran : (statements.forM Lowering.statement).run σ = .ok ((), τ)) :
    Tracks (refs ++ statements.flatMap Statement.references)
      (defs ++ statements.flatMap (·.node.defines)) τ := by
  refine run_keeps (P := fun before τ => Tracks (refs ++ before.flatMap Statement.references)
    (defs ++ before.flatMap (·.node.defines)) τ) (by simpa using h) ?_ ran
  intro s _ before τ υ tracks ran
  simpa [List.append_assoc] using tracks.statement ran

theorem tracks_start {catalog : Catalog} {config : Config} {selector : Selector}
    (started : Selector.start catalog config = .ok selector) : Tracks [] [] { selector } := by
  rw [Selector.start_ok started]
  exact ⟨SymbolTable.wellFormed_empty, fun _ mem => absurd mem List.not_mem_nil, rfl, rfl, rfl, rfl⟩

end Lowering

/-- The report on a label that is never defined. -/
def Reference.report (r : Reference) : Diagnostic :=
  (Diagnostic.error r.span s!"label '{r.name}' is never defined").withHelp
    s!"define it with '{r.name}:' or declare it with '.local'"

/-- The first reference to each label of the table that is not among the defined names, in the
order of the text. -/
def SymbolTable.unresolved (t : SymbolTable) (refs : List Reference) (defs : List String) :
    List Reference :=
  (Reference.firsts refs).filter fun r => (t.labelId r.name).isSome && !defs.contains r.name

/-- The first references to labels that no statement of a file defines. -/
def undefinedReferences (t : SymbolTable) (statements : List (Located Statement)) :
    List Reference :=
  t.unresolved (statements.flatMap Statement.references) (statements.flatMap (·.node.defines))

namespace Lowering.Tracks

variable {σ : Lowering} {refs : List Reference} {defs : List String} {r : Reference}
  {name : String} {id : SymbolId}

/-- A label is defined if and only if its name is. -/
theorem mem_definedLabels (h : Tracks refs defs σ)
    (leads : σ.selector.symbols.labelId name = some id) :
    id ∈ σ.selector.symbols.definedLabels ↔ name ∈ defs := by
  have found := (SymbolTable.labelId_eq_some.mp leads).1
  rw [← h.defined, List.mem_map]
  constructor
  · exact fun mem => ⟨id, mem, h.wf.name_of_lookup found⟩
  · rintro ⟨other, mem, rfl⟩
    obtain ⟨below, isLabel⟩ := h.wf.labels other mem
    have again := h.wf.lookup_of_mem (h.wf.indexed other below (.inl isLabel))
    exact Option.some.inj (again.symm.trans found) ▸ mem

theorem map_fst_marks (h : Tracks refs defs σ) :
    ((σ.selector.symbols.marks refs).filter fun (_, id) =>
      !σ.selector.symbols.isDefinedLabel id).map Prod.fst =
        σ.selector.symbols.unresolved refs defs := by
  refine map_fst_filter_pairs (f := fun r : Reference => σ.selector.symbols.labelId r.name)
    (p := fun id => !σ.selector.symbols.isDefinedLabel id)
    (q := fun r : Reference => !defs.contains r.name) fun r _ id leads => ?_
  have iff := h.mem_definedLabels leads
  simp [SymbolTable.isDefinedLabel, iff]

/-- A label is noted once, at its first reference. -/
theorem find_labelRefs (h : Tracks refs defs σ) (mem : (r, id) ∈ σ.selector.symbols.marks refs) :
    σ.labelRefs.find? (·.1 == id) = some (id, r.span) := by
  have noted : (id, r.span) ∈ σ.labelRefs := by
    rw [h.noted]
    exact List.mem_map.mpr ⟨(r, id), mem, rfl⟩
  cases found : σ.labelRefs.find? (·.1 == id) with
  | none => exact absurd (List.find?_eq_none.mp found _ noted) (by simp)
  | some entry =>
      have isEntry := List.mem_of_find?_eq_some found
      have same : entry.1 = id := by simpa using List.find?_some found
      rw [h.noted] at isEntry
      obtain ⟨⟨q, other⟩, mark, rfl⟩ := List.mem_map.mp isEntry
      obtain rfl : other = id := same
      -- both entries are of one label, so their references are firsts under one name
      obtain ⟨first, leads⟩ := SymbolTable.mem_marks.mp mem
      obtain ⟨again, leads'⟩ := SymbolTable.mem_marks.mp mark
      have names : q.name = r.name :=
        (h.wf.name_of_lookup (SymbolTable.labelId_eq_some.mp leads').1).symm.trans
          (h.wf.name_of_lookup (SymbolTable.labelId_eq_some.mp leads).1)
      rw [List.inj_on_of_nodup_map (Reference.nodup_firsts refs) again first names]

/-- What is reported at the end of the file. -/
theorem undefinedLabels_eq (h : Tracks refs defs σ) :
    σ.undefinedLabels = (σ.selector.symbols.unresolved refs defs).map Reference.report := by
  unfold undefinedLabels
  rw [h.undefined, List.filterMap_map, ← h.map_fst_marks, List.map_map, ← List.filterMap_eq_map]
  refine List.filterMap_congr ?_
  rintro ⟨r, id⟩ mem
  simp [h.find_labelRefs (List.mem_filter.mp mem).1, Reference.report]

/-- The unresolved names are those of the labels that have no definition. -/
theorem mem_unresolved (h : Tracks refs defs σ) :
    name ∈ (σ.selector.symbols.unresolved refs defs).map Reference.name ↔
      name ∉ defs ∧ ∃ id < σ.selector.symbols.size,
        (σ.selector.symbols.get id).kind = .address ∧ (σ.selector.symbols.get id).name = name := by
  constructor
  · intro mem
    obtain ⟨r, listed, rfl⟩ := List.mem_map.mp mem
    obtain ⟨_, kept⟩ := List.mem_filter.mp listed
    obtain ⟨isLabel, undefined⟩ := Bool.and_eq_true_iff.mp kept
    obtain ⟨id, leads⟩ := Option.isSome_iff_exists.mp isLabel
    obtain ⟨found, address⟩ := SymbolTable.labelId_eq_some.mp leads
    exact ⟨by simpa using undefined, id, h.wf.lt_of_lookup found, address,
      h.wf.name_of_lookup found⟩
  · rintro ⟨undefined, id, below, address, rfl⟩
    have found := h.wf.lookup_of_mem (h.wf.indexed id below (.inl address))
    have leads := SymbolTable.labelId_eq_some.mpr ⟨found, address⟩
    have met : (σ.selector.symbols.get id).name ∈ refs.map Reference.name := by
      by_contra new
      exact undefined ((h.mem_definedLabels leads).mp (h.defined_of_not_met leads new))
    obtain ⟨r, first, same⟩ := Reference.exists_first met
    refine List.mem_map.mpr ⟨r, List.mem_filter.mpr ⟨first, ?_⟩, same⟩
    rw [same, leads]
    simpa using undefined

end Lowering.Tracks

/-- The label instructions of a unit are those of its addresses, one for each. -/
def CodeUnit.LabelsMatch (u : CodeUnit) : Prop :=
  ∃ ids : List SymbolId, ids.Nodup ∧
    (∀ id, id ∈ ids ↔ id < u.symbols.size ∧ (u.symbols.get id).kind = .address) ∧
    u.instructions.filter Instruction.isLabel =
      ids.map fun id => .label (u.symbols.get id).name id

/-- With every label defined, the defined labels are the addresses. -/
theorem Lowering.Tracks.labelsMatch {σ : Lowering} {refs : List Reference} {defs : List String}
    (h : Tracks refs defs σ) (resolved : σ.selector.symbols.unresolved refs defs = []) :
    σ.selector.finish.LabelsMatch := by
  refine ⟨σ.selector.symbols.definedLabels, h.wf.once, fun id => ⟨h.wf.labels id, ?_⟩, h.placed⟩
  rintro ⟨below, address⟩
  have found := h.wf.lookup_of_mem (h.wf.indexed id below (.inl address))
  refine (h.mem_definedLabels (SymbolTable.labelId_eq_some.mpr ⟨found, address⟩)).mpr ?_
  by_contra undefined
  have mem := h.mem_unresolved.mpr ⟨undefined, id, below, address, rfl⟩
  rw [resolved] at mem
  cases mem

/-- A file is lowered statement by statement. If it is lowered as a whole, its labels are
defined: label instructions and addresses correspond, and every target of a jump is an address.
If all its statements are lowered, it fails only for the addresses that no statement defines,
with one report for each, in the order of their first references and at these. -/
theorem labels_matched_or_reported {catalog : Catalog} {config : Config} {selector : Selector}
    (started : Selector.start catalog config = .ok selector)
    (statements : List (Located Statement)) :
    (∀ lowered, lower statements selector = .ok lowered →
      lowered.unit.LabelsMatch ∧
      ∀ r ∈ statements.flatMap Statement.references,
        ∃ id, lowered.unit.symbols.lookup r.name = some id ∧
          (r.isTarget = true → (lowered.unit.symbols.get id).kind = .address)) ∧
    ∀ state, (statements.forM Lowering.statement).run { selector } = .ok ((), state) →
      lower statements selector =
        (if undefinedReferences state.selector.symbols statements = [] then
          .ok ⟨state.selector.finish, state.unclosed⟩
        else .error (.reported
          ((undefinedReferences state.selector.symbols statements).map Reference.report))) ∧
      ((undefinedReferences state.selector.symbols statements).map Reference.name).Nodup ∧
      ∀ name,
        name ∈ (undefinedReferences state.selector.symbols statements).map Reference.name ↔
          name ∉ statements.flatMap (·.node.defines) ∧
          ∃ id < state.selector.symbols.size, (state.selector.symbols.get id).kind = .address ∧
            (state.selector.symbols.get id).name = name := by
  have tracked : ∀ {state},
      (statements.forM Lowering.statement).run { selector } = .ok ((), state) →
      Lowering.Tracks (statements.flatMap Statement.references)
        (statements.flatMap (·.node.defines)) state :=
    fun ran => (Lowering.tracks_start started).run ran
  refine ⟨?_, ?_⟩
  · intro lowered finished
    obtain ⟨⟨_, state⟩, ran, ended⟩ := bind_eq_ok.mp finished
    have h := tracked ran
    have reports := h.undefinedLabels_eq
    dsimp only at ended
    split at ended
    · rename_i none
      cases ended
      rw [none] at reports
      exact ⟨h.labelsMatch (List.map_eq_nil_iff.mp reports.symm), h.known⟩
    · cases ended
  · intro state ran
    have h := tracked ran
    refine ⟨?_, (Reference.nodup_firsts _).sublist (List.filter_sublist.map _),
      fun name => h.mem_unresolved⟩
    rw [lower_of_run ran, h.undefinedLabels_eq]
    split
    · rename_i none
      exact (if_pos (List.map_eq_nil_iff.mp none)).symm
    · rename_i some
      exact (if_neg fun none => some (List.map_eq_nil_iff.mpr none)).symm

/-- Three labels, of which the first is defined. The second is first mentioned by an operand,
before the target of the same statement. -/
def jumps : List (Located Statement) :=
  [⟨.jump "L", ⟨0, 6⟩⟩,
    ⟨.branch false (.compare .eq ⟨⟨.register "$I0", []⟩, ⟨10, 13⟩⟩ ⟨⟨.word "M", []⟩, ⟨17, 18⟩⟩) "N",
      ⟨7, 25⟩⟩,
    ⟨.instruction "set" [⟨⟨.register "$I1", []⟩, ⟨30, 33⟩⟩, ⟨⟨.word "M", []⟩, ⟨35, 36⟩⟩], ⟨26, 36⟩⟩,
    ⟨.label "L", ⟨37, 39⟩⟩]

/-- The other two are defined at the end. -/
def completeJumps : List (Located Statement) :=
  jumps ++ [⟨.label "M", ⟨40, 42⟩⟩, ⟨.label "N", ⟨43, 45⟩⟩]

def jumpCatalog : Catalog where
  entries :=
    [⟨0, "branch", "branch_ic", [.input], true⟩,
      ⟨1, "eq", "eq_i_ic_ic", [.input, .input, .input], true⟩,
      ⟨2, "set", "set_i_ic", [.output, .input], false⟩]

theorem lower_completeJumps :
    ∃ lowered, lower completeJumps { catalog := jumpCatalog, config := {} } = .ok lowered ∧
      lowered.unit.instructions.map Instruction.fullName =
        ["branch_ic", "eq_i_ic_ic", "set_i_ic", "L", "M", "N"] := by
  refine map_eq_ok.mp ?_
  decide +kernel

theorem run_jumps :
    ∃ outcome, (jumps.forM Lowering.statement).run
        { selector := { catalog := jumpCatalog, config := {} } } = .ok outcome ∧
      undefinedReferences outcome.2.selector.symbols jumps =
        [{ name := "M", span := ⟨17, 18⟩ }, .target ⟨7, 25⟩ "N"] := by
  refine map_eq_ok.mp ?_
  decide +kernel

/-- The complete file has a label instruction for each address, and the other is reported on
twice. -/
theorem labels_matched_or_reported_jumps :
    ∃ selector, Selector.start jumpCatalog {} = .ok selector ∧
      (∃ lowered, lower completeJumps selector = .ok lowered ∧ lowered.unit.LabelsMatch) ∧
      lower jumps selector =
        .error (.reported [Reference.report { name := "M", span := ⟨17, 18⟩ },
          (Reference.target ⟨7, 25⟩ "N").report]) := by
  have started : Selector.start jumpCatalog {} = .ok { catalog := jumpCatalog, config := {} } := by
    unfold Selector.start
    rfl
  obtain ⟨lowered, finished, _⟩ := lower_completeJumps
  obtain ⟨⟨_, state⟩, ran, undefined⟩ := run_jumps
  have complete := (labels_matched_or_reported started completeJumps).1 lowered finished
  obtain ⟨reported, _⟩ := (labels_matched_or_reported started jumps).2 state ran
  rw [undefined] at reported
  exact ⟨_, started, ⟨lowered, finished, complete.1⟩, reported⟩

end OpSelect
