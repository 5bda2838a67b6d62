import OpSelect.Proofs.Listing.Replay

/-!
A listing is a source of its own: compiled again, it gives the same listing and the same records.
The lines of a listing define just the labels of the unit, each once, and refer to no others.
-/

namespace OpSelect

section Labels

variable {labels : List String} {t : SymbolTable}

theorem Symbol.ReadAs.references {symbol : Symbol} {a : Atom} (h : symbol.ReadAs labels a)
    (span : Span) : ∀ r ∈ a.references span, r.name ∈ labels := by
  cases h with
  | integer | float | negativeFloat | string | register =>
      exact fun _ mem => absurd mem List.not_mem_nil
  | machine cls index small =>
      rw [Lowering.references_register span (cls.machineRegister?_machineRegister index small)]
      exact fun _ mem => absurd mem List.not_mem_nil
  | label name mem isLabel =>
      rw [Lowering.references_ordinary span isLabel.ordinary]
      exact List.forall_mem_singleton.mpr mem

/-- Every atom of an item is read back from a symbol. -/
theorem Slot.ReadAs.atoms {slot : Slot} {item : Item} (h : slot.ReadAs labels t item) :
    ∀ a ∈ item.base :: item.keys, ∃ symbol : Symbol, symbol.ReadAs labels a := by
  cases h with
  | plain read => exact List.forall_mem_singleton.mpr ⟨_, read⟩
  | keyed read chain =>
      refine List.forall_mem_cons.mpr ⟨⟨_, read⟩, ?_⟩
      generalize t.get _ = symbol at chain
      cases chain with
      | lone read => exact List.forall_mem_singleton.mpr ⟨_, read⟩
      | chain several each => exact forall_of_forall₂ each fun part _ _ read => ⟨part, read⟩

theorem Slot.ReadAs.references {slot : Slot} {o : Located Operand}
    (h : slot.ReadAs labels t o.node.item) : ∀ r ∈ Operand.references o, r.name ∈ labels := by
  obtain ⟨isBase, areKeys⟩ := List.forall_mem_cons.mp h.atoms
  refine List.forall_mem_append.mpr ⟨?_, fun r mem => ?_⟩
  · obtain ⟨_, read⟩ := isBase
    exact read.references o.span
  · obtain ⟨key, isKey, isReference⟩ := List.mem_flatMap.mp mem
    obtain ⟨_, read⟩ := areKeys key.node (List.mem_map_of_mem isKey)
    exact read.references key.span r isReference

namespace Instruction

variable {i : Instruction} {s : Located Statement} {instructions : List Instruction}
  {statements : List (Located Statement)}

/-- A line refers to no label but those of the listing. -/
theorem ShownBy.references (h : i.ShownBy labels t s) :
    ∀ r ∈ Statement.references s, r.name ∈ labels := by
  obtain ⟨line, read, isLine⟩ := h
  obtain ⟨node, span⟩ := s
  cases node with
  | label => exact fun _ mem => absurd mem List.not_mem_nil
  | instruction mnemonic operands =>
      cases isLine
      cases read with
      | operation unlabelled isMnemonic spelling layout each =>
          intro r mem
          obtain ⟨o, isOperand, isReference⟩ := List.mem_flatMap.mp mem
          refine forall_of_forall₂ (P := fun o => ∀ r ∈ Operand.references o, r.name ∈ labels)
            (List.forall₂_map_right_iff.mp each) ?_ o isOperand r isReference
          exact fun _ _ _ read => read.references
  | openSub | closeSub | declare | assign | jump | call | branch => cases isLine

/-- A line defines a label if its instruction is one. -/
theorem ShownBy.defines (h : i.ShownBy labels t s) :
    s.node.defines = ([i].filter isLabel).map mnemonic := by
  obtain ⟨line, read, isLine⟩ := h
  obtain ⟨node, span⟩ := s
  cases node with
  | label name =>
      cases isLine
      cases read with
      | label => rfl
  | instruction mnemonic operands =>
      cases isLine
      cases read with
      | operation unlabelled => simp [Statement.defines, unlabelled]
  | openSub | closeSub | declare | assign | jump | call | branch => cases isLine

theorem defines_of_shownBy (h : List.Forall₂ (ShownBy labels t) instructions statements) :
    statements.flatMap (·.node.defines) = (instructions.filter isLabel).map mnemonic := by
  induction h with
  | nil => rfl
  | @cons i s instructions statements head _ ih =>
      rw [List.flatMap_cons, ih, head.defines, ← List.map_append, ← List.filter_append]
      rfl

theorem shownBy_of_readAs {lines : List Line}
    (read : List.Forall₂ (ReadAs labels t) instructions lines)
    (isLines : (statements.map fun s => s.node.line?) = lines.map some) :
    List.Forall₂ (ShownBy labels t) instructions statements := by
  induction read generalizing statements with
  | nil =>
      obtain rfl := List.map_eq_nil_iff.mp isLines
      exact .nil
  | cons head _ ih =>
      obtain ⟨s, others, rfl, isLine, areLines⟩ := List.map_eq_cons_iff.mp isLines
      exact .cons ⟨_, head, isLine⟩ (ih areLines)

end Instruction

namespace Lowering.Tracks

variable {σ : Lowering} {refs : List Reference} {defs : List String}

theorem map_mnemonic (h : Tracks refs defs σ) :
    (σ.selector.instructions.filter Instruction.isLabel).map Instruction.mnemonic = defs := by
  rw [h.placed, List.map_map, ← h.defined]
  rfl

/-- No label is defined twice. -/
theorem nodup_defs (h : Tracks refs defs σ) : defs.Nodup := by
  rw [← h.defined]
  refine List.Nodup.map_on ?_ h.wf.once
  intro id isLabel other isOther same
  have leads : ∀ id ∈ σ.selector.symbols.definedLabels,
      σ.selector.symbols.lookup (σ.selector.symbols.get id).name = some id := by
    intro id mem
    obtain ⟨below, address⟩ := h.wf.labels id mem
    exact h.wf.lookup_of_mem (h.wf.indexed id below (.inl address))
  have found := leads id isLabel
  rw [same, leads other isOther] at found
  exact (Option.some.inj found).symm

/-- No label is left undefined if only defined names are referred to. -/
theorem undefinedLabels_eq_nil (h : Tracks refs defs σ) (sub : ∀ r ∈ refs, r.name ∈ defs) :
    σ.undefinedLabels = [] := by
  rw [h.undefinedLabels_eq, List.map_eq_nil_iff, SymbolTable.unresolved, List.filter_eq_nil_iff]
  intro r first
  simp [sub r (Reference.mem_of_mem_firsts first)]

end Lowering.Tracks

end Labels

/-- A unit whose instructions can be read back is compiled again from its listing. -/
theorem CompiledRun.again {catalog : Catalog} {config : Config} {source : String}
    {lowered : Lowered} {statements : List (Located Statement)} {state : Lowering}
    {lines : List Line} (h : CompiledRun catalog config source lowered statements state)
    (read : List.Forall₂
      (Instruction.ReadAs (statements.flatMap (·.node.defines)) lowered.unit.symbols)
      lowered.unit.instructions lines) :
    ∃ again, compile catalog config lowered.unit.listing = .ok again ∧
      again.warnings = [] ∧ again.unit.records = lowered.unit.records := by
  obtain ⟨others, parsed, isLines⟩ := lowered.unit.parse_listing read
  have shown := Instruction.shownBy_of_readAs read isLines
  have defines : others.flatMap (·.node.defines) = statements.flatMap (·.node.defines) := by
    rw [Instruction.defines_of_shownBy shown, h.result]
    exact h.tracks.map_mnemonic
  have started : Selector.start catalog config = .ok { catalog, config } := by
    rw [Selector.start, h.valid]
    rfl
  have tracks := Lowering.tracks_start started
  obtain ⟨group, τ, ran, restated, same⟩ := Lowering.run_again shown
    (fun _ => h.built) (fun _ => h.justified) (Config.maxArity_le h.valid) tracks
    (by rw [defines]; exact h.tracks.nodup_defs) SymbolTable.asSpelled_empty
  have resolved : τ.undefinedLabels = [] := by
    refine (tracks.run ran).undefinedLabels_eq_nil fun r mem => ?_
    rw [List.nil_append] at mem ⊢
    obtain ⟨s, isLine, isReference⟩ := List.mem_flatMap.mp mem
    rw [defines]
    exact forall_of_forall₂ shown (fun _ _ _ shown => shown.references) s isLine r isReference
  have instructions : τ.selector.instructions = group := restated.instructions
  refine ⟨_, compile_eq_ok_iff.mpr ⟨others, τ, h.valid, parsed, ran, resolved, rfl⟩, ?_, ?_⟩
  · rw [Lowering.unclosed, restated.openSub]
    rfl
  · change (τ.selector.instructions.map fun j => j.record τ.selector.symbols) = _
    rw [instructions]
    refine map_eq_of_forall₂ ?_
    exact List.forall₂_map_left_iff.mpr (same.imp fun _ _ same => same.record_eq)

/-- A listing is a faithful source. Where a text that declares nothing compiles, with printable
strings and no label that is spelled like a machine register, its listing compiles without
warnings, to the same listing and the same records. -/
theorem listing_recompiles {config : Config} {source : String} {lowered : Lowered}
    {tokens : List Token} {statements : List (Located Statement)}
    (compiled : compile .builtIn config source = .ok lowered)
    (lexed : tokenize source = .ok tokens) (parsed : parse source = .ok statements)
    (undeclared : ∀ s ∈ statements, ∀ type name, s.node ≠ .declare type name)
    (printable : ∀ t ∈ tokens, ∀ value, t.kind = .string value →
      ∀ c ∈ value.toList, isPrintable c = true)
    (ordinary : ∀ s ∈ statements, ∀ name ∈ s.node.defines, machineRegister? name = none) :
    ∃ again, compile .builtIn config lowered.unit.listing = .ok again ∧ again.warnings = [] ∧
      again.unit.listing = lowered.unit.listing ∧ again.unit.records = lowered.unit.records := by
  obtain ⟨found, state, run⟩ := compile_eq_ok_iff.mp compiled
  obtain rfl : found = statements := Except.ok.inj (run.parsed.symm.trans parsed)
  have listable : Statement.Listable found := by
    refine ⟨legible_of_parse lexed parsed printable, undeclared, fun name mem => ?_⟩
    obtain ⟨s, isStatement, defines⟩ := List.mem_flatMap.mp mem
    exact ordinary s isStatement name defines
  obtain ⟨lines, read⟩ := run.readAs listable
  obtain ⟨again, recompiled, quiet, records⟩ := run.again read
  exact ⟨again, recompiled, quiet, CodeUnit.listing_eq_of_records records, records⟩

/-- An open subroutine with composite keys on both sides of an assignment, an escape, a machine
register with a leading zero and a negated branch. -/
def sugaredSource : String :=
  ".sub m\n$P1[0;\"\\t\"] = $P0[I03;-2]\nunless $I0 < 5 goto m\n"

def sugaredListing : String :=
  "m:\n    set $P3, $P0[I3;-2]\n    new $P2, 0\n    set $P2, $P3\n" ++
    "    set $P1[0;\"\\t\"], $P2\n    ge $I0, 5, m\n"

theorem compile_sugaredSource :
    ∃ lowered, compile .builtIn {} sugaredSource = .ok lowered ∧
      (lowered.unit.listing, lowered.warnings.length) = (sugaredListing, 1) := by
  refine map_eq_ok.mp ?_
  decide +kernel

/-- The subroutine is never closed, but only the first compilation warns of it. -/
theorem sugaredListing_recompiles :
    ∃ lowered, compile .builtIn {} sugaredSource = .ok lowered ∧
      lowered.unit.listing = sugaredListing ∧ lowered.warnings.length = 1 ∧
      ∃ again, compile .builtIn {} sugaredListing = .ok again ∧ again.warnings = [] ∧
        again.unit.listing = sugaredListing ∧ again.unit.records = lowered.unit.records := by
  obtain ⟨lowered, compiled, shown⟩ := compile_sugaredSource
  obtain ⟨listing, warned⟩ := Prod.mk.inj shown
  obtain ⟨tokens, lexed, strings⟩ : ∃ tokens, tokenize sugaredSource = .ok tokens ∧
      (tokens.all fun t => match t.kind with
        | .string value => value.toList.all isPrintable
        | _ => true) = true := map_eq_ok.mp (by decide +kernel)
  obtain ⟨statements, parsed, fit⟩ : ∃ statements, parse sugaredSource = .ok statements ∧
      (statements.all fun s => (s.node.defines.all fun name => (machineRegister? name).isNone) &&
        match s.node with
        | .declare .. => false
        | _ => true) = true := map_eq_ok.mp (by decide +kernel)
  refine ⟨lowered, compiled, listing, warned, ?_⟩
  rw [← listing]
  refine listing_recompiles compiled lexed parsed ?_ ?_ ?_
  · rintro s mem type name isDeclaration
    have fits := List.all_eq_true.mp fit s mem
    simp [isDeclaration] at fits
  · intro t mem value isString
    have fits := List.all_eq_true.mp strings t mem
    simpa [isString] using fits
  · intro s mem name defines
    have fits := List.all_eq_true.mp fit s mem
    rw [Bool.and_eq_true] at fits
    simpa using List.all_eq_true.mp fits.1 name defines

end OpSelect
