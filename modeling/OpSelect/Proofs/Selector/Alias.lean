import OpSelect.Proofs.Selector.Built
import OpSelect.Proofs.Selector.Decoding
import OpSelect.Proofs.Selector.Indexed

/-!
Which instructions may merge registers. The kind of an instruction is read off its mnemonic and the
classes of its operands. Keys and composite keys have classes too, so that a `set` of two
aggregates need not be a copy: an extension can give a meaning to one operand with a key. The
operations of the built-in table leave copies between registers only.
-/

namespace OpSelect

namespace Selector

variable {s : Selector} {entry : OpEntry} {mnemonic : String} {ids : List SymbolId}
  {i : Instruction} {context : Context} {slots : List Slot}

/-- Every instruction but a label is what its spelling would build again. -/
def Rebuilds (s : Selector) : Prop :=
  ∀ i ∈ s.instructions, i.isLabel = false → i.Built s.catalog s.symbols

/-- Instructions stay what they are while the table grows, so only new ones matter. -/
theorem Rebuilds.append {t : Selector} {group : List Instruction} (h : s.Rebuilds)
    (grown : s.symbols.Grows t.symbols) (catalog : t.catalog = s.catalog)
    (instructions : t.instructions = s.instructions ++ group)
    (built : ∀ i ∈ group, i.isLabel = false → i.Built t.catalog t.symbols) : t.Rebuilds := by
  intro i mem operation
  rw [instructions] at mem
  cases List.mem_append.mp mem with
  | inl old => exact catalog ▸ (h i old operation).grows grown
  | inr new => exact built i new operation

theorem Rebuilds.symbols {symbols : SymbolTable} (h : s.Rebuilds)
    (grown : s.symbols.Grows symbols) : Rebuilds { s with symbols } :=
  h.append grown rfl (List.append_nil _).symm nofun

theorem Rebuilds.resolve (h : s.Rebuilds) (wf : s.symbols.WellFormed)
    (admitted : s.Admits context) : (s.resolve mnemonic context).1.Rebuilds := by
  have evolved := resolve_evolves mnemonic wf admitted
  cases resolved : s.resolve mnemonic context with
  | mk t result =>
      rw [resolved] at evolved
      cases result with
      | error fault =>
          have same := resolve_refused wf (congrArg Prod.snd resolved)
          rw [resolved] at same
          exact same ▸ h
      | ok first =>
          rcases resolve_ok resolved with ⟨keys, expanded⟩ | ⟨_, i, built, rfl⟩
          · obtain ⟨group, instructions, built⟩ := expand_built wf admitted keys expanded
            exact h.append evolved.grows evolved.catalog instructions fun i mem _ => built i mem
          · refine h.append .refl rfl rfl (List.forall_mem_singleton.mpr fun _ => ?_)
            exact build_built built admitted.operands

theorem Rebuilds.resolveSlots (h : s.Rebuilds) (wf : s.symbols.WellFormed)
    (valid : ∀ id ∈ slots.flatMap Slot.operands, id < s.symbols.size) :
    (s.resolveSlots mnemonic slots).1.Rebuilds := by
  unfold Selector.resolveSlots
  cases filled : s.context.fill slots with
  | error fault => exact h
  | ok context => exact h.resolve wf (s.admits_context.fill filled valid)

theorem Rebuilds.indexes {answer : Selector × Except Fault Nat} (h : s.Rebuilds)
    (wf : s.symbols.WellFormed) (valid : ∀ id ∈ ids, id < s.symbols.size)
    (indexes : s.Indexes ids answer) : answer.1.Rebuilds := by
  cases indexes with
  | element mnemonic slots operands => exact h.resolveSlots wf fun id mem => valid id (operands mem)
  | character mnemonic slots operands =>
      have first : s.one.1.Rebuilds := h.symbols s.grows_one
      refine first.resolveSlots (wf.grows s.grows_one) ?_
      exact fun id mem => valid_one wf valid id (operands mem)
  | refused error => exact h

theorem Rebuilds.label (h : s.Rebuilds) (wf : s.symbols.WellFormed) (name : String) :
    (s.label name).1.Rebuilds := by
  unfold Selector.label
  rcases SymbolTable.placeLabel_cases wf name with ⟨e, refused⟩ | ⟨u, id, placed, grown, _⟩
  · rw [refused]
    exact h
  · rw [placed]
    exact h.append grown rfl rfl (Instruction.forall_mem_label name id)

end Selector

namespace Session

variable {σ τ : Session} {call : Call}

/-- What one call of a session keeps. -/
theorem perform_rebuilds (sound : σ.Sound) (h : σ.selector.Rebuilds)
    (performed : σ.perform call = some τ) : τ.selector.Rebuilds := by
  cases perform_step performed with
  | contexts => exact h
  | table call => exact h.symbols (call.grows_perform sound.wf)
  | resolve mnemonic context held => exact h.resolve sound.wf (sound.contexts context held)
  | indexed indexes valid => exact h.indexes sound.wf valid indexes
  | label name => exact h.label sound.wf name
  | aggregateType name =>
      obtain ⟨symbols, same, grown, _⟩ := Selector.extends_aggregateType σ.selector name
      rw [same]
      exact h.symbols grown

end Session

namespace Selector

variable {s : Selector} {entry : OpEntry} {mnemonic : String} {ids : List SymbolId}
  {keyed : KeyedMask} {dest source : SymbolId}

/-- The operands are two aggregates. -/
def IsPair (s : Selector) (ids : List SymbolId) : Prop :=
  ∃ dest source, ids = [dest, source] ∧ s.classOf dest = .aggregate ∧
    s.classOf source = .aggregate

/-- Registers may be merged by a `set` of two aggregates, unless it jumps. -/
theorem classify_eq_registerAlias : s.classify entry mnemonic ids = .registerAlias ↔
    entry.jump = false ∧ mnemonic = "set" ∧ s.IsPair ids := by
  unfold classify IsPair
  constructor
  · intro merges
    split at merges
    · split at merges <;> cases merges
    · rename_i still
      split at merges
      · rename_i isSet
        subst isSet
        split at merges
        · rename_i dest source
          split at merges
          · rename_i classes
            exact ⟨by simpa using still, rfl, dest, source, rfl, classes⟩
          · cases merges
        · cases merges
      · split at merges <;> cases merges
  · rintro ⟨still, rfl, dest, source, rfl, classes⟩
    simp [still, classes]

/-- Of two operands, at most the first can be a container. -/
theorem keyed_of_pair (checked : s.checkKeyed [dest, source] keyed = .ok ()) :
    keyed = .empty ∨ keyed = .single 0 := by
  have first : ∀ position, keyed.contains position = true → position = 0 := by
    intro position marked
    obtain ⟨container, key, rest, dropped, _⟩ :=
      checkKeyed_ok checked (KeyedMask.mem_positions.mpr marked)
    have length := congrArg List.length dropped
    simp only [List.length_drop, List.length_cons, List.length_nil] at length
    omega
  cases marked : keyed.contains 0 with
  | false =>
      refine .inl (KeyedMask.eq_of_contains fun position => ?_)
      rw [KeyedMask.contains_empty]
      by_contra other
      rw [first position (by simpa using other), marked] at other
      exact other rfl
  | true =>
      refine .inr (KeyedMask.eq_of_contains fun position => ?_)
      cases position with
      | zero => exact marked.trans (KeyedMask.contains_insert_self (by decide)).symm
      | succ position =>
          rw [KeyedMask.single, KeyedMask.contains_insert_ne (Nat.succ_ne_zero position).symm,
            KeyedMask.contains_empty]
          by_contra other
          exact Nat.succ_ne_zero position (first _ (by simpa using other))

end Selector

/-- The tags that an aggregate can have, alone or as a key. -/
def aggregateTags : List String := ["p", "pc", "k", "kc"]

namespace ArgTag

variable {symbol : Symbol} {isKey : Bool}

theorem text_mem_aggregateTags (aggregate : symbol.cls = .aggregate)
    (value : symbol.kind ≠ .address) : (ArgTag.of symbol isKey).text ∈ aggregateTags := by
  obtain ⟨name, cls, kind⟩ := symbol
  cases aggregate
  cases isKey with
  | false =>
      cases kind with
      | address => exact absurd rfl value
      | var | constant | machineRegister index => simp [ArgTag.of, text, ValueClass.tag,
          aggregateTags]
  | true =>
      change (key false _).text ∈ aggregateTags
      generalize Symbol.isConstant _ = constant
      cases constant <;> decide

theorem text_eq_p {tag : ArgTag} : tag.text = "p" ↔ tag = .register .aggregate := by
  cases tag with
  | register cls | constant cls => cases cls <;> decide
  | address => decide
  | key integer constant => cases integer <;> cases constant <;> decide

/-- Only registers that are no keys have the tag of their class. -/
theorem of_eq_register {cls : ValueClass} :
    ArgTag.of symbol isKey = .register cls ↔ isKey = false ∧ symbol.IsRegister cls := by
  obtain ⟨name, own, kind⟩ := symbol
  cases isKey <;> cases kind <;> simp [ArgTag.of, Symbol.IsRegister, Symbol.isConstant]

end ArgTag

theorem not_endsInTag_set : ¬ EndsInTag "set" := by decide +kernel

/-- Of the names that a `set` of two aggregates can have, the built-in table has one. -/
theorem BuiltIn.has_set_aggregates : ∀ first ∈ aggregateTags, ∀ second ∈ aggregateTags,
    Has "set" [first, second] ↔ first = "p" ∧ second = "p" := by
  decide +kernel

namespace Catalog

variable {mnemonic : String} {tags : List String}

/-- What the built-in table has under a name that can be read in one way. -/
theorem op_of_lookup_builtIn {entry : OpEntry} (plain : ¬ EndsInTag mnemonic)
    (valid : ∀ tag ∈ tags, tag ∈ operandTags)
    (found : builtIn.lookup (fullName mnemonic tags) = some entry) :
    ∃ op ∈ BuiltIn.ops, op.mnemonic = mnemonic ∧ op.args.map Prod.fst = tags ∧
      entry = op.entry entry.opcode := by
  obtain ⟨mem, name⟩ := lookup_some found
  obtain ⟨op, isOp, same⟩ := exists_op_of_mem_builtIn mem
  have regular := BuiltIn.regular_ops op isOp
  have named : op.name = fullName mnemonic tags :=
    (congrArg OpEntry.fullName same).symm.trans name
  obtain ⟨mnemonics, args⟩ := fullName_inj regular.not_endsInTag plain
    (fun _ mem => regular.mem_operandTags mem) valid named
  exact ⟨op, isOp, mnemonics, args, same⟩

theorem lookup_builtIn_isSome (plain : ¬ EndsInTag mnemonic)
    (valid : ∀ tag ∈ tags, tag ∈ operandTags) :
    (builtIn.lookup (fullName mnemonic tags)).isSome ↔ BuiltIn.Has mnemonic tags := by
  constructor
  · intro found
    obtain ⟨entry, found⟩ := Option.isSome_iff_exists.mp found
    obtain ⟨op, isOp, mnemonics, args, _⟩ := op_of_lookup_builtIn plain valid found
    exact ⟨op, isOp, mnemonics, args⟩
  · rintro ⟨op, isOp, rfl, rfl⟩
    rw [lookup_isSome_iff, builtIn, foldl_insert_eq, names_adding]
    exact List.mem_append_right _ (List.mem_map_of_mem isOp)

end Catalog

/-- The instruction copies an aggregate register into another. -/
structure Instruction.CopiesAggregate (t : SymbolTable) (i : Instruction) : Prop where
  mnemonic : i.mnemonic = "set"
  keyed : i.keyed = .empty
  operands : ∃ dest source, i.operands = [dest, source] ∧
    (t.get dest).IsRegister .aggregate ∧ (t.get source).IsRegister .aggregate

section Pairs

variable {t : SymbolTable} {i : Instruction} {dest source : SymbolId}

/-- The tags of two operands, the first of which may have the second for its key. -/
def pairTags (t : SymbolTable) (dest source : SymbolId) (keyed : KeyedMask) : List String :=
  [(ArgTag.of (t.get dest) false).text, (ArgTag.of (t.get source) (keyed.contains 0)).text]

theorem pairTags_eq (keyed : KeyedMask) :
    (Signature.of t [dest, source] keyed).map ArgTag.text = pairTags t dest source keyed := rfl

/-- A `set` of two operands is a copy if its name says so. -/
theorem copiesAggregate_iff (mnemonic : i.mnemonic = "set") (operands : i.operands = [dest, source])
    (keyed : i.keyed = .empty ∨ i.keyed = .single 0) :
    i.CopiesAggregate t ↔ pairTags t dest source i.keyed = ["p", "p"] := by
  have unkeyed : i.keyed = .empty ↔ i.keyed.contains 0 = false := by
    rcases keyed with eq | eq <;> rw [eq] <;> decide
  simp only [pairTags, List.cons.injEq, and_true, ArgTag.text_eq_p, ArgTag.of_eq_register,
    true_and, ← unkeyed]
  constructor
  · rintro ⟨_, plain, first, second, same, registers⟩
    obtain ⟨rfl, rfl⟩ : dest = first ∧ source = second := by simpa using operands.symm.trans same
    exact ⟨registers.1, plain, registers.2⟩
  · rintro ⟨isDest, plain, isSource⟩
    exact ⟨mnemonic, plain, dest, source, operands, isDest, isSource⟩

end Pairs

namespace BuiltIn

theorem has_set_p_p : Has "set" ["p", "p"] := by decide +kernel

theorem not_jump_set : ∀ op ∈ ops, op.mnemonic = "set" → op.jump = false := by decide +kernel

end BuiltIn

namespace Selector

variable {s : Selector} {extension : Extension} {i : Instruction} {dest source : SymbolId}

theorem text_mem_of_aggregate (addresses : s.symbols.IntegerAddresses) {id : SymbolId}
    (inside : id < s.symbols.size) (aggregate : s.classOf id = .aggregate) (isKey : Bool) :
    (ArgTag.of (s.symbols.get id) isKey).text ∈ aggregateTags := by
  refine ArgTag.text_mem_aggregateTags aggregate fun address => ?_
  have integer : s.classOf id = .integer := addresses id inside address
  rw [integer] at aggregate
  cases aggregate

/-- Copies between aggregate registers may merge them, also where the catalog was extended. -/
theorem registerAlias_of_copies (accepted : Catalog.builtIn.extended extension = .ok s.catalog)
    (built : i.Built s.catalog s.symbols) (copies : i.CopiesAggregate s.symbols) :
    i.kind = .registerAlias := by
  obtain ⟨dest, source, operands, isDest, isSource⟩ := copies.operands
  obtain ⟨_, entry, found, same⟩ := build_eq_ok.mp (built.again s rfl rfl)
  have tags := (copiesAggregate_iff copies.mnemonic operands (.inl copies.keyed)).mp copies
  rw [Signature.mangle, operands, pairTags_eq, tags, copies.mnemonic] at found
  have named : ∀ tag ∈ ["p", "p"], tag ∈ operandTags := by decide
  obtain ⟨known, isKnown⟩ := Option.isSome_iff_exists.mp
    ((Catalog.lookup_builtIn_isSome not_endsInTag_set named).mpr BuiltIn.has_set_p_p)
  -- an extension does not replace the copy of the built-in table, which is no jump
  obtain rfl : known = entry :=
    Option.some.inj (((Catalog.extended_grows accepted).lookup isKnown).symm.trans found)
  obtain ⟨op, isOp, mnemonic, _, isEntry⟩ :=
    Catalog.op_of_lookup_builtIn not_endsInTag_set named isKnown
  have still : known.jump = false := by
    rw [isEntry]
    exact BuiltIn.not_jump_set op isOp mnemonic
  rw [same]
  exact classify_eq_registerAlias.mpr
    ⟨still, copies.mnemonic, dest, source, operands, isDest.1, isSource.1⟩

/-- An instruction that may merge registers is a `set` of two aggregates. It is a copy if it stands
for an operation of the built-in table. -/
theorem pair_of_registerAlias (addresses : s.symbols.IntegerAddresses)
    (built : i.Built s.catalog s.symbols) (merges : i.kind = .registerAlias) :
    i.mnemonic = "set" ∧ s.IsPair i.operands ∧ (i.keyed = .empty ∨ i.keyed = .single 0) ∧
      (i.CopiesAggregate s.symbols ↔ i.fullName = "set_p_p") ∧
      (i.CopiesAggregate s.symbols ↔ (Catalog.builtIn.lookup i.fullName).isSome) := by
  obtain ⟨checked, entry, found, same⟩ := build_eq_ok.mp (built.again s rfl rfl)
  have kind : s.classify entry i.mnemonic i.operands = .registerAlias :=
    (congrArg Instruction.kind same).symm.trans merges
  obtain ⟨_, mnemonic, dest, source, operands, isDest, isSource⟩ :=
    classify_eq_registerAlias.mp kind
  have keyed : i.keyed = .empty ∨ i.keyed = .single 0 := keyed_of_pair (operands ▸ checked)
  have copies := copiesAggregate_iff (t := s.symbols) mnemonic operands keyed
  have name : i.fullName = fullName "set" (pairTags s.symbols dest source i.keyed) := by
    rw [← pairTags_eq, ← operands, ← mnemonic]
    exact (congrArg Instruction.fullName same).trans (Catalog.lookup_some found).2
  have inside : ∀ id ∈ [dest, source], id < s.symbols.size := operands ▸ built.operands
  have valid : ∀ tag ∈ pairTags s.symbols dest source i.keyed, tag ∈ operandTags :=
    Signature.tag_mem_operandTags (Signature.of s.symbols [dest, source] i.keyed)
  refine ⟨mnemonic, ⟨dest, source, operands, isDest, isSource⟩, keyed, ?_, ?_⟩
  · rw [copies, name]
    constructor
    · intro tags
      rw [tags]
      rfl
    · intro eq
      exact (fullName_inj not_endsInTag_set not_endsInTag_set valid (by decide)
        (eq.trans rfl : _ = fullName "set" ["p", "p"])).2
  · have isDestTag := text_mem_of_aggregate addresses (inside dest (by simp)) isDest
    have isSourceTag := text_mem_of_aggregate addresses (inside source (by simp)) isSource
    rw [copies, name, Catalog.lookup_builtIn_isSome not_endsInTag_set valid, pairTags,
      BuiltIn.has_set_aggregates _ (isDestTag _) _ (isSourceTag _)]
    simp

end Selector

namespace Session

/-- In every state of a session, the instructions that may merge registers are the copies between
aggregate registers and other `set`s of two aggregates. The first operand of such a `set` may have
the second for its key, or one of them is constant; it always stands for an operation that the
built-in table does not have. -/
theorem aliases_copy_registers {extension : Extension} {catalog : Catalog} {config : Config}
    {selector : Selector} {calls : List Call} {σ : Session}
    (accepted : Catalog.builtIn.extended extension = .ok catalog)
    (started : Selector.start catalog config = .ok selector)
    (reached : Session.run { selector } calls = some σ) :
    ∀ i ∈ σ.selector.instructions, i.isLabel = false →
      (i.CopiesAggregate σ.selector.symbols → i.kind = .registerAlias) ∧
      (i.kind = .registerAlias →
        i.mnemonic = "set" ∧ σ.selector.IsPair i.operands ∧
        (i.keyed = .empty ∨ i.keyed = .single 0) ∧
        (i.CopiesAggregate σ.selector.symbols ↔ i.fullName = "set_p_p") ∧
        (i.CopiesAggregate σ.selector.symbols ↔ (Catalog.builtIn.lookup i.fullName).isSome)) := by
  have sound := sound_start started
  obtain ⟨evolved, _⟩ := run_sound sound reached
  have empty := Selector.start_ok started
  have rebuilds : σ.selector.Rebuilds :=
    run_keeps (P := fun σ => σ.selector.Rebuilds) perform_rebuilds sound (by rw [empty]; nofun)
      reached
  have addresses : σ.selector.symbols.IntegerAddresses :=
    run_integerAddresses sound (by rw [empty]; nofun) reached
  have known : Catalog.builtIn.extended extension = .ok σ.selector.catalog := by
    rw [evolved.catalog, empty]
    exact accepted
  intro i mem operation
  have built := rebuilds i mem operation
  exact ⟨Selector.registerAlias_of_copies known built,
    Selector.pair_of_registerAlias addresses built⟩

/-- An operation on the element of an aggregate under a key. -/
def setElement : OpSpec where
  mnemonic := "set"
  args := [("p", .inOut), ("k", .input)]

theorem lookup_builtIn_setElement : Catalog.builtIn.lookup setElement.name = none := by
  rw [Catalog.lookup, Catalog.entries_builtIn]
  decide +kernel

theorem extended_setElement :
    Catalog.builtIn.extended { ops := [setElement] } = .ok (Catalog.builtIn.insert setElement) :=
  Catalog.extended_op (by decide) lookup_builtIn_setElement

/-- `set $P0, $P1` and `set $P0[$P1]` -/
def elementCalls : List Call :=
  [.table (.var "$P0" .aggregate), .table (.var "$P1" .aggregate), .context, .append 0 0,
    .append 0 1, .resolve "set" 0, .setKeyed 0 0, .resolve "set" 0]

theorem start_setElement : Selector.start (Catalog.builtIn.insert setElement) {} =
    .ok { catalog := Catalog.builtIn.insert setElement, config := {} } := by
  unfold Selector.start
  rfl

theorem run_elementCalls :
    ∃ σ, Session.run
        { selector := { catalog := Catalog.builtIn.insert setElement, config := {} } }
        elementCalls = some σ ∧
      σ.selector.instructions.map (fun i => (i.fullName, i.keyed, i.kind)) =
        [("set_p_p", .empty, .registerAlias), ("set_p_k", .single 0, .registerAlias)] := by
  refine Option.map_eq_some_iff.mp ?_
  -- the table as one list, which is quick to look through
  rw [Catalog.builtIn, Catalog.foldl_insert_eq]
  decide +kernel

/-- Both instructions may merge `$P0` and `$P1`, and the first is a copy. -/
theorem aliases_copy_registers_elementCalls :
    ∃ selector σ, Catalog.builtIn.extended { ops := [setElement] } =
        .ok (Catalog.builtIn.insert setElement) ∧
      Selector.start (Catalog.builtIn.insert setElement) {} = .ok selector ∧
      Session.run { selector } elementCalls = some σ ∧
      ∃ copy element, σ.selector.instructions = [copy, element] ∧
        copy.kind = .registerAlias ∧ copy.CopiesAggregate σ.selector.symbols ∧
        element.kind = .registerAlias ∧ σ.selector.IsPair element.operands ∧
        ¬ element.CopiesAggregate σ.selector.symbols := by
  obtain ⟨σ, reached, shown⟩ := run_elementCalls
  have aliases := aliases_copy_registers extended_setElement start_setElement reached
  obtain ⟨copy, others, instructions, first, rest⟩ := List.map_eq_cons_iff.mp shown
  obtain ⟨element, none, rfl, second, isLast⟩ := List.map_eq_cons_iff.mp rest
  obtain rfl := List.map_eq_nil_iff.mp isLast
  simp only [Prod.mk.injEq] at first second
  have notLabel : ∀ {i : Instruction}, i.kind = .registerAlias → i.isLabel = false := by
    intro i merges
    rw [Instruction.isLabel, merges]
    rfl
  obtain ⟨_, _, _, copies, _⟩ :=
    (aliases copy (by simp [instructions]) (notLabel first.2.2)).2 first.2.2
  obtain ⟨_, pair, _, copies', _⟩ :=
    (aliases element (by simp [instructions]) (notLabel second.2.2)).2 second.2.2
  refine ⟨_, σ, extended_setElement, start_setElement, reached, copy, element, instructions,
    first.2.2, copies.mpr first.1, second.2.2, pair, ?_⟩
  rw [copies', second.1]
  decide

/-- The second one has a key. -/
theorem keyed_alias_reached :
    ¬ ∀ (extension : Extension) (catalog : Catalog) (config : Config) (selector : Selector)
      (calls : List Call) (σ : Session),
      Catalog.builtIn.extended extension = .ok catalog →
      Selector.start catalog config = .ok selector →
      Session.run { selector } calls = some σ →
      ∀ i ∈ σ.selector.instructions, i.kind = .registerAlias →
        i.keyed = .empty ∧ ∃ dest source, i.operands = [dest, source] ∧
          (σ.selector.symbols.get dest).IsRegister .aggregate ∧
          (σ.selector.symbols.get source).IsRegister .aggregate := by
  intro copies
  obtain ⟨σ, reached, shown⟩ := run_elementCalls
  have mem : ("set_p_k", KeyedMask.single 0, InstructionKind.registerAlias) ∈
      σ.selector.instructions.map (fun i => (i.fullName, i.keyed, i.kind)) := by
    simp [shown]
  obtain ⟨element, isElement, is⟩ := List.mem_map.mp mem
  simp only [Prod.mk.injEq] at is
  obtain ⟨plain, _⟩ := copies _ _ _ _ _ σ extended_setElement start_setElement reached element
    isElement is.2.2
  rw [is.2.1] at plain
  exact absurd plain (by decide)

end Session

end OpSelect
