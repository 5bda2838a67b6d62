import OpSelect.Proofs.Lowering.Compiled

/-!
Whether an instruction has the operands that its catalog entry is for. The catalog is searched
by the whole name, and a mnemonic of the text may end in what looks like tags. The main result
says what a compiled instruction can be: its mnemonic is that of its entry with the first tags
attached to it, and these are the tags of the operands that it lacks. An instruction whose
mnemonic is in the catalog lacks none.
-/

namespace OpSelect

theorem mem_positionsWhere {test : Nat → Bool} {position : Nat} :
    position ∈ positionsWhere test ↔ position < maskWidth ∧ test position = true := by
  simp [positionsWhere]

namespace DirectionMask

variable {directions : List Direction} {position : Nat}

theorem reads_iff : (ofDirections directions).reads position = true ↔
    position < maskWidth ∧ ∃ d, directions[position]? = some d ∧ d.reads = true := by
  unfold reads ofDirections
  rw [getLsbD_maskOf, Bool.and_eq_true, decide_eq_true_iff, Option.any_eq_true]

theorem writes_iff : (ofDirections directions).writes position = true ↔
    position < maskWidth ∧ directions[position]? = some .output := by
  unfold writes ofDirections
  rw [getLsbD_maskOf, Bool.and_eq_true, decide_eq_true_iff, Option.any_eq_true]
  simp

/-- An operand that is both read and written is not counted as written. -/
theorem not_writes_of_reads (h : (ofDirections directions).reads position = true) :
    (ofDirections directions).writes position = false := by
  obtain ⟨_, d, place, isRead⟩ := reads_iff.mp h
  apply Bool.eq_false_iff.mpr
  intro written
  rw [(writes_iff.mp written).2] at place
  cases place
  cases isRead

theorem reads_or_writes_iff (few : directions.length ≤ maskWidth) :
    (ofDirections directions).reads position = true ∨
      (ofDirections directions).writes position = true ↔ position < directions.length := by
  constructor
  · rintro (isRead | written)
    · obtain ⟨_, d, place, _⟩ := reads_iff.mp isRead
      exact (List.getElem?_eq_some_iff.mp place).1
    · exact (List.getElem?_eq_some_iff.mp (writes_iff.mp written).2).1
  · intro inside
    have below : position < maskWidth := Nat.lt_of_lt_of_le inside few
    have place := List.getElem?_eq_getElem inside
    cases d : directions[position] with
    | input | inOut => exact .inl (reads_iff.mpr ⟨below, _, place, by rw [d]; rfl⟩)
    | output => exact .inr (writes_iff.mpr ⟨below, by rw [place, d]⟩)

end DirectionMask

namespace Instruction

variable {i : Instruction} {directions : List Direction}

theorem record_disjoint (h : i.directions = .ofDirections directions) (t : SymbolTable) :
    (i.record t).ins.Disjoint (i.record t).outs := by
  intro position isRead written
  simp only [record, mem_positionsWhere, h] at isRead written
  rw [DirectionMask.not_writes_of_reads isRead.2] at written
  exact Bool.noConfusion written.2

theorem mem_record_iff (h : i.directions = .ofDirections directions)
    (few : directions.length ≤ maskWidth) (t : SymbolTable) (position : Nat) :
    position ∈ (i.record t).ins ∨ position ∈ (i.record t).outs ↔
      position < directions.length := by
  simp only [record, mem_positionsWhere, h]
  rw [← and_or_left, DirectionMask.reads_or_writes_iff few]
  exact and_iff_right_of_imp fun inside => Nat.lt_of_lt_of_le inside few

end Instruction

/-- The operation behind a justified instruction, and how its name is divided: the first tags
are part of the mnemonic, and the others are those of the operands. -/
theorem division_of_justified {i : Instruction} {limit : Nat} {t : SymbolTable}
    (h : i.Justified .builtIn limit t) :
    ∃ op ∈ BuiltIn.ops, ∃ opcode extra,
      Catalog.builtIn.lookup i.fullName = some (op.entry opcode) ∧
      i.directions = .ofDirections (op.entry opcode).directions ∧
      i.mnemonic = fullName op.mnemonic extra ∧
      op.args.map Prod.fst = extra ++ (Signature.of t i.operands i.keyed).map ArgTag.text := by
  obtain ⟨entry, found, _, directions⟩ := h.entry
  obtain ⟨mem, named⟩ := Catalog.lookup_some found
  obtain ⟨op, isOp, eq⟩ := Catalog.exists_op_of_mem_builtIn mem
  rw [eq] at found directions named
  have regular := BuiltIn.regular_ops op isOp
  have ownTags : ∀ tag ∈ (Signature.of t i.operands i.keyed).map ArgTag.text,
      tag ∈ operandTags := by
    intro tag mem
    obtain ⟨own, _, rfl⟩ := List.mem_map.mp mem
    exact own.text_mem
  have readings := fullName_readings (fun tag mem => underscore_not_mem_tag (ownTags tag mem))
    (fun tag mem => underscore_not_mem_tag (regular.mem_operandTags mem))
    (h.name.symm.trans named.symm)
  refine ⟨op, isOp, entry.opcode, ?_⟩
  cases readings with
  | inl shorter =>
      obtain ⟨extra, divided, mnemonic⟩ := shorter
      exact ⟨extra, found, directions, mnemonic, divided⟩
  | inr longer =>
      -- the mnemonic of an operation would end in a tag of an operand
      obtain ⟨extra, divided, mnemonic⟩ := longer
      obtain rfl := regular.mnemonic_eq_fullName (fun tag mem =>
        ownTags tag (divided ▸ List.mem_append_left _ mem)) mnemonic
      exact ⟨[], found, directions, mnemonic.symm, divided.symm⟩

theorem Catalog.byMnemonic_of_lookup {c : Catalog} {name mnemonic : String} {entry : OpEntry}
    (found : c.lookup name = some entry) (same : entry.mnemonic = mnemonic) :
    c.byMnemonic mnemonic ≠ [] := by
  apply List.ne_nil_of_mem (a := entry)
  exact List.mem_filter.mpr ⟨(lookup_some found).1, beq_iff_eq.mpr same⟩

/-- No mnemonic of the catalog is another one with tags attached to it. -/
theorem Catalog.byMnemonic_builtIn_fullName {m : String} {extra : List String}
    (tags : ∀ tag ∈ extra, tag ∈ operandTags)
    (known : builtIn.byMnemonic (fullName m extra) ≠ []) : extra = [] := by
  obtain ⟨entry, mem⟩ := List.exists_mem_of_ne_nil _ known
  obtain ⟨mem, same⟩ := List.mem_filter.mp mem
  obtain ⟨op, isOp, eq⟩ := exists_op_of_mem_builtIn mem
  rw [eq] at same
  have mnemonic : op.mnemonic = fullName m extra := by simpa [OpSpec.entry] using same
  exact (BuiltIn.regular_ops op isOp).mnemonic_eq_fullName tags mnemonic

/-- An instruction of a compiled text has as many operands as its entry has directions, less
those whose tags are attached to its mnemonic. What it reads and what it writes are disjoint and
make up the positions of the entry. They are the positions of its own operands, under the
mnemonic of its entry, if and only if its mnemonic is in the catalog. -/
theorem operands_match_iff_mnemonic_known {config : Config} {source : String}
    {lowered : Lowered} (compiled : compile .builtIn config source = .ok lowered)
    {i : Instruction} (mem : i ∈ lowered.unit.instructions) (operation : i.isLabel = false) :
    ∃ entry extra, Catalog.builtIn.lookup i.fullName = some entry ∧
      i.mnemonic = fullName entry.mnemonic extra ∧
      entry.directions.length = extra.length + i.operands.length ∧
      (i.record lowered.unit.symbols).ins.Disjoint (i.record lowered.unit.symbols).outs ∧
      (∀ position, position ∈ (i.record lowered.unit.symbols).ins ∨
        position ∈ (i.record lowered.unit.symbols).outs ↔ position < entry.directions.length) ∧
      (Catalog.builtIn.byMnemonic i.mnemonic ≠ [] ↔
        i.mnemonic = entry.mnemonic ∧ i.operands.length = entry.directions.length ∧
        ∀ position, position ∈ (i.record lowered.unit.symbols).ins ∨
          position ∈ (i.record lowered.unit.symbols).outs ↔ position < i.operands.length) := by
  obtain ⟨statements, state, run⟩ := compile_eq_ok_iff.mp compiled
  obtain ⟨op, isOp, opcode, extra, found, directions, mnemonic, divided⟩ :=
    division_of_justified (run.justified mem operation)
  have regular := BuiltIn.regular_ops op isOp
  have length : (op.entry opcode).directions.length = extra.length + i.operands.length := by
    have counted := congrArg List.length divided
    simpa [OpSpec.entry, Signature.of] using counted
  have few : (op.entry opcode).directions.length ≤ maskWidth := by
    simpa [OpSpec.entry] using regular.arity
  have covered := Instruction.mem_record_iff directions few lowered.unit.symbols
  refine ⟨op.entry opcode, extra, found, mnemonic, length,
    Instruction.record_disjoint directions lowered.unit.symbols, covered, ?_⟩
  constructor
  · intro known
    rw [mnemonic] at known
    have none : extra = [] := by
      refine Catalog.byMnemonic_builtIn_fullName ?_ known
      intro tag mem
      exact regular.mem_operandTags (divided ▸ List.mem_append_left _ mem)
    subst none
    have same : i.operands.length = (op.entry opcode).directions.length := by
      rw [length, List.length_nil, Nat.zero_add]
    exact ⟨mnemonic, same, fun position => same ▸ covered position⟩
  · rintro ⟨same, _⟩
    exact Catalog.byMnemonic_of_lookup found same.symm

/-- The second statement writes the first tag of `add_i_i_i` as part of its mnemonic. -/
def attachedSource : String := "add $I0, $I1, $I2\nadd_i $I0, $I1\n"

def wholeAdd : Instruction where
  mnemonic := "add"
  fullName := "add_i_i_i"
  opcode := some 127
  operands := [0, 1, 2]
  layout := [.plain, .plain, .plain]
  directions := .ofDirections [.output, .input, .input]
  keyed := .empty
  kind := .plain

def lackingAdd : Instruction :=
  { wholeAdd with mnemonic := "add_i", operands := [0, 1], layout := [.plain, .plain] }

theorem compile_attachedSource :
    ∃ lowered, compile .builtIn {} attachedSource = .ok lowered ∧
      lowered.unit.instructions = [wholeAdd, lackingAdd] := by
  refine map_eq_ok.mp ?_
  decide +kernel

theorem lookup_wholeAdd :
    Catalog.builtIn.lookup wholeAdd.fullName =
      some ⟨127, "add", "add_i_i_i", [.output, .input, .input], false⟩ := by
  rw [Catalog.lookup, Catalog.entries_builtIn]
  decide +kernel

/-- The first statement has the operands of its entry. -/
theorem operands_match_wholeAdd :
    ∃ lowered, compile .builtIn {} attachedSource = .ok lowered ∧
      wholeAdd ∈ lowered.unit.instructions ∧
      ∃ entry, Catalog.builtIn.lookup wholeAdd.fullName = some entry ∧
        wholeAdd.mnemonic = entry.mnemonic ∧
        wholeAdd.operands.length = entry.directions.length := by
  obtain ⟨lowered, compiled, instructions⟩ := compile_attachedSource
  have mem : wholeAdd ∈ lowered.unit.instructions := by
    rw [instructions]
    exact List.mem_cons_self
  obtain ⟨entry, _, found, _, _, _, _, known_iff⟩ :=
    operands_match_iff_mnemonic_known compiled mem rfl
  have known : Catalog.builtIn.byMnemonic wholeAdd.mnemonic ≠ [] :=
    Catalog.byMnemonic_of_lookup lookup_wholeAdd rfl
  obtain ⟨same, length, _⟩ := known_iff.mp known
  exact ⟨lowered, compiled, mem, entry, found, same, length⟩

/-- The second is accepted with two operands. Its entry has three, and the third is read. -/
theorem operands_lacking_lackingAdd :
    ∃ lowered, compile .builtIn {} attachedSource = .ok lowered ∧
      lackingAdd ∈ lowered.unit.instructions ∧ lackingAdd.isLabel = false ∧
      ∃ entry, Catalog.builtIn.lookup lackingAdd.fullName = some entry ∧
        lackingAdd.mnemonic ≠ entry.mnemonic ∧
        lackingAdd.operands.length < entry.directions.length ∧
        2 ∈ (lackingAdd.record lowered.unit.symbols).ins := by
  obtain ⟨lowered, compiled, instructions⟩ := compile_attachedSource
  have mem : lackingAdd ∈ lowered.unit.instructions := by
    rw [instructions]
    exact List.mem_cons_of_mem _ List.mem_cons_self
  refine ⟨lowered, compiled, mem, rfl, _, lookup_wholeAdd, by decide, by decide, ?_⟩
  have isRead : lackingAdd.directions.reads 2 = true := by decide
  exact mem_positionsWhere.mpr ⟨by decide, isRead⟩

end OpSelect
