import OpSelect.Proofs.Catalog.Extension
import OpSelect.Proofs.Selector.Slots
import OpSelect.Proofs.Selector.WriteBack

/-!
When an operation with several keyed operands can be expanded. Around the operation itself an
expansion only copies between its slots and aggregates, and the built-in table has all these
copies: a fetch from and a store into an aggregate for each kind of key, and a conversion to and
from an aggregate for each kind of operand. An extension takes none of them away. So nothing but
the operation can be missing, or the type of the aggregate it is to make.
-/

namespace OpSelect

/-- The built-in table has an operation of this mnemonic over operands with these tags. -/
def BuiltIn.Has (mnemonic : String) (tags : List String) : Prop :=
  ∃ op ∈ BuiltIn.ops, op.mnemonic = mnemonic ∧ op.args.map Prod.fst = tags

instance (mnemonic : String) (tags : List String) : Decidable (BuiltIn.Has mnemonic tags) :=
  inferInstanceAs (Decidable (∃ op ∈ BuiltIn.ops, _))

/-- An extension keeps the built-in operations. What is found under the name of one of them has
the same operands. -/
theorem Catalog.lookup_of_has {c : Catalog} {extension : Extension} {mnemonic : String}
    {tags : List String} (accepted : builtIn.extended extension = .ok c)
    (has : BuiltIn.Has mnemonic tags) :
    ∃ entry, c.lookup (fullName mnemonic tags) = some entry ∧
      entry.directions.length = tags.length := by
  obtain ⟨op, mem, rfl, rfl⟩ := has
  have named : op.name ∈ builtIn.names := by
    rw [builtIn, foldl_insert_eq, names_adding]
    exact List.mem_append_right _ (List.mem_map_of_mem mem)
  obtain ⟨entry, found⟩ := Option.isSome_iff_exists.mp (lookup_isSome_iff.mpr named)
  obtain ⟨isEntry, name⟩ := lookup_some found
  obtain ⟨other, isOp, same⟩ := exists_op_of_mem_builtIn isEntry
  have names : other.name = op.name := (congrArg OpEntry.fullName same).symm.trans name
  obtain ⟨_, tags⟩ := (BuiltIn.regular_ops other isOp).name_inj (BuiltIn.regular_ops op mem) names
  refine ⟨entry, (extended_grows accepted).lookup found, ?_⟩
  rw [same, ← tags]
  simp [OpSpec.entry]

/-- A register has the tag of its class. -/
theorem ArgTag.text_of_register {symbol : Symbol} (register : symbol.isConstant = false) :
    (ArgTag.of symbol false).text = symbol.cls.tag := by
  obtain ⟨name, cls, kind⟩ := symbol
  cases kind with
  | var | machineRegister index => rfl
  | address | constant => cases register

namespace BuiltIn

variable {symbol : Symbol}

theorem has_new : Has "new" ["p", "ic"] := by decide +kernel

/-- Every register can be fetched from an aggregate, whatever the key. -/
theorem has_fetch (cls : ValueClass) (key : Symbol) :
    Has "set" [cls.tag, "p", (ArgTag.of key true).text] := by
  have all : ∀ integer constant, Has "set" [cls.tag, "p", (ArgTag.key integer constant).text] := by
    cases cls <;> decide +kernel
  exact all _ _

/-- The tags of operands that are no keys and no constant aggregates. -/
def valueTags : List String := ["i", "ic", "n", "nc", "s", "sc", "p"]

theorem text_mem_valueTags (fits : symbol.cls = .aggregate → symbol.kind ≠ .constant) :
    (ArgTag.of symbol false).text ∈ valueTags := by
  obtain ⟨name, cls, kind⟩ := symbol
  cases kind with
  | var | machineRegister index =>
      cases cls <;> simp [ArgTag.of, ArgTag.text, ValueClass.tag, valueTags]
  | address => simp [ArgTag.of, ArgTag.text, valueTags]
  | constant =>
      cases cls with
      | integer | float | string => simp [ArgTag.of, ArgTag.text, valueTags]
      | aggregate => exact absurd rfl (fits rfl)

/-- Everything but a constant aggregate can be stored into an aggregate, whatever the key. -/
theorem has_store (key : Symbol) (fits : symbol.cls = .aggregate → symbol.kind ≠ .constant) :
    Has "set" ["p", (ArgTag.of key true).text, (ArgTag.of symbol false).text] := by
  have all : ∀ tag ∈ valueTags, ∀ integer constant,
      Has "set" ["p", (ArgTag.key integer constant).text, tag] := by
    decide +kernel
  exact all _ (text_mem_valueTags fits) _ _

/-- Everything but a constant aggregate can be turned into an aggregate. -/
theorem has_toAggregate (fits : symbol.cls = .aggregate → symbol.kind ≠ .constant) :
    Has "set" ["p", (ArgTag.of symbol false).text] := by
  have all : ∀ tag ∈ valueTags, Has "set" ["p", tag] := by decide +kernel
  exact all _ (text_mem_valueTags fits)

/-- An aggregate can be turned into what any register holds. -/
theorem has_fromAggregate (register : symbol.isConstant = false) :
    Has "set" [(ArgTag.of symbol false).text, "p"] := by
  have all : ∀ cls : ValueClass, Has "set" [cls.tag, "p"] := by
    intro cls
    cases cls <;> decide +kernel
  rw [ArgTag.text_of_register register]
  exact all symbol.cls

end BuiltIn

/-- A register that holds an aggregate. -/
def Symbol.IsAggregate (symbol : Symbol) : Prop :=
  symbol.cls = .aggregate ∧ symbol.isConstant = false

theorem Symbol.IsAggregate.text {symbol : Symbol} (h : symbol.IsAggregate) :
    (ArgTag.of symbol false).text = "p" := by
  rw [ArgTag.text_of_register h.2, h.1]
  rfl

theorem Symbol.IsAggregate.ne_constant {symbol : Symbol} (h : symbol.IsAggregate) :
    symbol.kind ≠ .constant := by
  intro constant
  have register := h.2
  rw [isConstant, constant] at register
  cases register

theorem Symbol.isAggregate_var {symbol : Symbol} (cls : symbol.cls = .aggregate)
    (kind : symbol.kind = .var) : symbol.IsAggregate :=
  ⟨cls, by rw [isConstant, kind]⟩

theorem Symbol.IsAggregate.withRegisters {t : SymbolTable} {id : SymbolId}
    (h : (t.get id).IsAggregate) (numbers : List Nat) :
    ((t.withRegisters .aggregate numbers).get id).IsAggregate := by
  rcases t.withRegisters_get .aggregate numbers id with same | ⟨cls, register⟩
  · exact same ▸ h
  · exact isAggregate_var cls register

namespace Slot

/-- The slot can be loaded into an aggregate. -/
def Loadable (t : SymbolTable) : Slot → Prop
  | .plain operand => (t.get operand).cls = .aggregate → (t.get operand).kind ≠ .constant
  | .keyed container _ => (t.get container).IsAggregate

/-- An aggregate can be stored into the slot. -/
def Storable (t : SymbolTable) : Slot → Prop
  | .plain operand => (t.get operand).isConstant = false
  | .keyed container _ => (t.get container).IsAggregate

variable {t : SymbolTable} {slot : Slot}

/-- A slot that can be loaded still can be when there are temporaries. -/
theorem Loadable.withRegisters (h : slot.Loadable t) (numbers : List Nat) :
    slot.Loadable (t.withRegisters .aggregate numbers) := by
  cases slot with
  | plain operand =>
      rcases t.withRegisters_get .aggregate numbers operand with same | ⟨_, register⟩
      · rw [Loadable, same]
        exact h
      · exact fun _ => by simp [register]
  | keyed container key => exact h.withRegisters numbers

theorem Storable.withRegisters (h : slot.Storable t) (numbers : List Nat) :
    slot.Storable (t.withRegisters .aggregate numbers) := by
  cases slot with
  | plain operand =>
      rcases t.withRegisters_get .aggregate numbers operand with same | ⟨_, register⟩
      · rw [Storable, same]
        exact h
      · simp [Storable, Symbol.isConstant, register]
  | keyed container key => exact h.withRegisters numbers

/-- A keyed slot has its container at a marked position. -/
theorem exists_position_of_keyed {keyed : KeyedMask} {position : Nat} {operands : List SymbolId}
    {container key : SymbolId} (mem : .keyed container key ∈ group keyed position operands) :
    ∃ place, keyed.contains (position + place) = true ∧ operands[place]? = some container := by
  obtain ⟨before, after, split⟩ := List.append_of_mem mem
  have divides : Divides keyed position operands (group keyed position operands) :=
    divides_iff.mpr rfl
  refine ⟨(before.flatMap Slot.operands).length, ((divides.marked _ _ _ split).mp rfl).1, ?_⟩
  rw [← divides.flat, split]
  simp [Slot.operands]

end Slot

theorem KeyedMask.mem_positions {m : KeyedMask} {position : Nat} :
    position ∈ m.positions ↔ m.contains position = true := by
  refine ⟨fun mem => (List.mem_filter.mp mem).2, fun marked => List.mem_filter.mpr ⟨?_, marked⟩⟩
  exact List.mem_range.mpr (BitVec.lt_of_getLsbD marked)

theorem KeyedMask.positions_sorted (m : KeyedMask) : m.positions.Pairwise (· < ·) :=
  List.pairwise_lt_range.filter _

namespace Selector

variable {s : Selector} {extension : Extension} {mnemonic : String} {operands : List SymbolId}
  {keyed : KeyedMask} {slot : Slot} {temp : SymbolId} {context : Context}

theorem checkKeyed_of_containers (containers : ∀ position ∈ keyed.positions,
    position + 1 < operands.length ∧
      ∃ id, operands[position]? = some id ∧ s.classOf id = .aggregate) :
    s.checkKeyed operands keyed = .ok () := by
  refine forM_eq_ok.mpr fun position mem => ?_
  obtain ⟨followed, id, place, aggregate⟩ := containers position mem
  rw [checkKeyedAt_eq place followed, if_pos aggregate]

theorem checkKeyed_empty : s.checkKeyed operands .empty = .ok () := rfl

theorem checkKeyed_single {position : Nat} {id : SymbolId}
    (followed : position + 1 < operands.length) (place : operands[position]? = some id)
    (aggregate : (s.symbols.get id).IsAggregate) :
    s.checkKeyed operands (.single position) = .ok () := by
  refine checkKeyed_of_containers fun other mem => ?_
  obtain rfl : position = other := by
    by_contra apart
    have marked := KeyedMask.mem_positions.mp mem
    rw [KeyedMask.single, KeyedMask.contains_insert_ne apart] at marked
    simp at marked
  exact ⟨followed, id, place, aggregate.1⟩

/-- An operation that is found can be built. -/
theorem exists_build {entry : OpEntry} (checked : s.checkKeyed operands keyed = .ok ())
    (found : s.catalog.lookup ((Signature.of s.symbols operands keyed).mangle mnemonic) =
      some entry) :
    ∃ i, s.build mnemonic operands keyed = .ok i ∧
      i.directions = .ofDirections entry.directions :=
  ⟨_, build_eq_ok.mpr ⟨checked, entry, found, rfl⟩, rfl⟩

theorem exists_build_of_has (accepted : Catalog.builtIn.extended extension = .ok s.catalog)
    (checked : s.checkKeyed operands keyed = .ok ())
    (has : BuiltIn.Has mnemonic ((Signature.of s.symbols operands keyed).map ArgTag.text)) :
    ∃ i, s.build mnemonic operands keyed = .ok i := by
  obtain ⟨entry, found, _⟩ := Catalog.lookup_of_has accepted has
  obtain ⟨i, built, _⟩ := exists_build checked found
  exact ⟨i, built⟩

theorem exists_loadSlot (accepted : Catalog.builtIn.extended extension = .ok s.catalog)
    (isTemp : (s.symbols.get temp).IsAggregate) (loadable : slot.Loadable s.symbols) :
    ∃ i, s.loadSlot slot temp = .ok i := by
  cases slot with
  | plain operand =>
      refine exists_build_of_has accepted checkKeyed_empty ?_
      change BuiltIn.Has "set" [(ArgTag.of (s.symbols.get temp) false).text, _]
      rw [isTemp.text]
      exact BuiltIn.has_toAggregate loadable
  | keyed container key =>
      refine exists_build_of_has accepted
        (checkKeyed_single (Nat.lt_succ_self 2) rfl loadable) ?_
      change BuiltIn.Has "set" [(ArgTag.of (s.symbols.get temp) false).text,
        (ArgTag.of (s.symbols.get container) false).text, _]
      rw [isTemp.text, loadable.text]
      exact BuiltIn.has_fetch .aggregate _

theorem exists_storeSlot (accepted : Catalog.builtIn.extended extension = .ok s.catalog)
    (isTemp : (s.symbols.get temp).IsAggregate) (storable : slot.Storable s.symbols) :
    ∃ i, s.storeSlot slot temp = .ok i := by
  cases slot with
  | plain operand =>
      refine exists_build_of_has accepted checkKeyed_empty ?_
      change BuiltIn.Has "set" [_, (ArgTag.of (s.symbols.get temp) false).text]
      rw [isTemp.text]
      exact BuiltIn.has_fromAggregate storable
  | keyed container key =>
      refine exists_build_of_has accepted
        (checkKeyed_single (Nat.succ_lt_succ Nat.zero_lt_two) rfl storable) ?_
      change BuiltIn.Has "set" [(ArgTag.of (s.symbols.get container) false).text, _,
        (ArgTag.of (s.symbols.get temp) false).text]
      rw [storable.text]
      exact BuiltIn.has_store _ fun _ => isTemp.ne_constant

/-- The first temporary can be prepared: by a load, or by a new aggregate of a known type. -/
theorem exists_prepareSlot (accepted : Catalog.builtIn.extended extension = .ok s.catalog)
    (wf : s.symbols.WellFormed) (inside : temp < s.symbols.size)
    (isTemp : (s.symbols.get temp).IsAggregate) (loadable : slot.Loadable s.symbols)
    {operation : Instruction} (prepares : operation.directions.reads 0 = true ∨
      ∃ type, s.catalog.typeId s.config.initType = some type) :
    ∃ t i, s.prepareSlot operation slot temp = (t, .ok i) := by
  unfold prepareSlot
  split
  · obtain ⟨i, loaded⟩ := exists_loadSlot accepted isTemp loadable
    exact ⟨s, i, by rw [loaded]⟩
  · rename_i overwrites
    obtain ⟨type, known⟩ := prepares.resolve_left overwrites
    let table := (s.symbols.constant (toString type) .integer).1
    let number := (s.symbols.constant (toString type) .integer).2
    have has : BuiltIn.Has "new"
        ((Signature.of table [temp, number] .empty).map ArgTag.text) := by
      change BuiltIn.Has "new" [(ArgTag.of (table.get temp) false).text,
        (ArgTag.of (table.get number) false).text]
      rw [(SymbolTable.grows_constant s.symbols (toString type) .integer).get inside, isTemp.text,
        (SymbolTable.constant_ok wf (toString type) .integer).2]
      exact BuiltIn.has_new
    obtain ⟨i, built⟩ := exists_build_of_has (s := { s with symbols := table }) accepted
      checkKeyed_empty has
    refine ⟨{ s with symbols := table }, i, ?_⟩
    rw [aggregateType, known]
    exact congrArg _ built

theorem exists_buildFixed {dest : Slot × SymbolId} {others : List (Slot × SymbolId)}
    {operation writeBack : Instruction}
    (built : s.build mnemonic (dest.2 :: others.map Prod.snd) .empty = .ok operation)
    (stored : s.storeSlot dest.1 dest.2 = .ok writeBack)
    (load : ∀ part ∈ others, ∃ i, s.loadSlot part.1 part.2 = .ok i) :
    ∃ loads, s.buildFixed mnemonic dest others = .ok (operation, writeBack, loads) := by
  obtain ⟨loads, loaded⟩ := exists_forall₂ load
  refine ⟨loads, bind_eq_ok.mpr ⟨operation, built, bind_eq_ok.mpr ⟨writeBack, stored, ?_⟩⟩⟩
  exact bind_eq_ok.mpr ⟨loads, mapM_eq_ok.mpr loaded, rfl⟩

/-- The group can be built over temporaries if the operation is there, and what the first of them
takes. -/
theorem exists_buildGroup {dest : Slot × SymbolId} {others : List (Slot × SymbolId)}
    {entry : OpEntry} (accepted : Catalog.builtIn.extended extension = .ok s.catalog)
    (wf : s.symbols.WellFormed)
    (temps : ∀ part ∈ dest :: others, part.2 < s.symbols.size ∧
      (s.symbols.get part.2).cls = .aggregate ∧ (s.symbols.get part.2).kind = .var)
    (loadable : ∀ part ∈ dest :: others, part.1.Loadable s.symbols)
    (storable : dest.1.Storable s.symbols)
    (found : s.catalog.lookup (fullName mnemonic (List.replicate (others.length + 1) "p")) =
      some entry)
    (prepares : entry.reads 0 = true ∨ ∃ type, s.catalog.typeId s.config.initType = some type) :
    ∃ t group, s.buildGroup mnemonic (dest :: others) = (t, .ok group) := by
  have aggregate : ∀ part ∈ dest :: others, (s.symbols.get part.2).IsAggregate :=
    fun part mem => Symbol.isAggregate_var (temps part mem).2.1 (temps part mem).2.2
  have named : (Signature.of s.symbols (dest.2 :: others.map Prod.snd) .empty).mangle mnemonic =
      fullName mnemonic (List.replicate (others.length + 1) "p") := by
    rw [Signature.mangle_aggregates, List.length_cons, List.length_map]
    intro id mem
    obtain ⟨part, isPart, rfl⟩ := List.mem_map.mp (show id ∈ (dest :: others).map Prod.snd from mem)
    exact (temps part isPart).2
  have destIn : dest ∈ dest :: others := List.mem_cons_self
  obtain ⟨operation, built, directions⟩ := exists_build checkKeyed_empty (named ▸ found)
  obtain ⟨writeBack, stored⟩ := exists_storeSlot accepted (aggregate dest destIn) storable
  have load : ∀ part ∈ others, ∃ i, s.loadSlot part.1 part.2 = .ok i := by
    intro part mem
    have partIn := List.mem_cons_of_mem dest mem
    exact exists_loadSlot accepted (aggregate part partIn) (loadable part partIn)
  obtain ⟨loads, fixed⟩ := exists_buildFixed built stored load
  have reads : operation.directions.reads 0 = entry.reads 0 :=
    directions ▸ DirectionMask.reads_ofDirections entry
  obtain ⟨t, prepare, prepared⟩ := exists_prepareSlot accepted wf (temps dest destIn).1
    (aggregate dest destIn) (loadable dest destIn) (reads ▸ prepares)
  refine ⟨t, loads ++ [prepare, operation, writeBack], ?_⟩
  rw [buildGroup, fixed]
  dsimp only
  rw [prepared]
  rfl

/-- The containers of a context are registers of aggregates, none of its plain operands is a
constant aggregate, and the first slot can be written. -/
structure Expandable (s : Selector) (context : Context) : Prop where
  containers : ∀ position ∈ context.keyed.positions, ∀ id,
    context.operands[position]? = some id → (s.symbols.get id).IsAggregate
  plain : ∀ operand, .plain operand ∈ context.slots →
    (s.symbols.get operand).cls = .aggregate → (s.symbols.get operand).kind ≠ .constant
  dest : ∀ operand, context.slots[0]? = some (.plain operand) →
    (s.symbols.get operand).isConstant = false

namespace Expandable

theorem container (h : s.Expandable context) {container key : SymbolId}
    (mem : .keyed container key ∈ context.slots) : (s.symbols.get container).IsAggregate := by
  obtain ⟨place, marked, found⟩ := Slot.exists_position_of_keyed mem
  rw [Nat.zero_add] at marked
  exact h.containers place (KeyedMask.mem_positions.mpr marked) container found

theorem loadable (h : s.Expandable context) (mem : slot ∈ context.slots) :
    slot.Loadable s.symbols := by
  cases slot with
  | plain operand => exact h.plain operand mem
  | keyed container key => exact h.container mem

theorem storable (h : s.Expandable context) {dest : Slot} {others : List Slot}
    (slots : context.slots = dest :: others) : dest.Storable s.symbols := by
  cases dest with
  | plain operand => exact h.dest operand (by rw [slots]; rfl)
  | keyed container key => exact h.container (by rw [slots]; exact List.mem_cons_self)

end Expandable

/-- An expansion succeeds if the operation over aggregates is there, and what its first operand
takes. -/
theorem exists_resolve (accepted : Catalog.builtIn.extended extension = .ok s.catalog)
    (wf : s.symbols.WellFormed) (keys : 2 ≤ context.keyed.count)
    (followed : ∀ position ∈ context.keyed.positions, position + 1 < context.operands.length)
    (expandable : s.Expandable context) {entry : OpEntry}
    (found : s.catalog.lookup (fullName mnemonic (List.replicate context.slots.length "p")) =
      some entry)
    (prepares : entry.reads 0 = true ∨ ∃ type, s.catalog.typeId s.config.initType = some type) :
    ∃ first, (s.resolve mnemonic context).2 = .ok first := by
  have checked : s.checkKeyed context.operands context.keyed = .ok () := by
    refine checkKeyed_of_containers fun position mem => ?_
    have inside := Nat.lt_of_succ_lt (followed position mem)
    have place := List.getElem?_eq_getElem inside
    exact ⟨followed position mem, _, place, (expandable.containers position mem _ place).1⟩
  obtain ⟨dest, others, slots⟩ := List.exists_cons_of_ne_nil (slots_ne_nil checked keys)
  obtain ⟨numbers, length, _, _, table, _⟩ :=
    s.symbols.temporaries_eq s.names .aggregate context.slots.length
  have symbols : (s.withTemporaries context).symbols =
      s.symbols.withRegisters .aggregate numbers := table
  have parts : ∀ part ∈ context.slots.zip (s.temporariesFor context),
      part.1 ∈ context.slots ∧ part.2 ∈ List.range' s.symbols.size numbers.length := by
    intro part mem
    rw [temporariesFor_eq, ← length] at mem
    exact List.of_mem_zip mem
  have count : (others.zip (List.range' (s.symbols.size + 1) others.length)).length + 1 =
      context.slots.length := by simp [slots]
  rw [zip_temporaries slots] at parts
  rw [← count] at found
  have temps : ∀ part ∈ (dest, s.symbols.size) ::
      others.zip (List.range' (s.symbols.size + 1) others.length),
      part.2 < (s.withTemporaries context).symbols.size ∧
        ((s.withTemporaries context).symbols.get part.2).cls = .aggregate ∧
        ((s.withTemporaries context).symbols.get part.2).kind = .var := by
    intro part mem
    have isTemp := (parts part mem).2
    refine ⟨?_, SymbolTable.register_withRegisters symbols part.2 isTemp⟩
    rw [symbols, SymbolTable.size_withRegisters]
    exact (List.mem_range'_1.mp isTemp).2
  obtain ⟨t, group, built⟩ := exists_buildGroup (s := s.withTemporaries context) accepted
    (wf.grows (SymbolTable.grows_temporaries ..)) temps
    (fun part mem => symbols ▸ (expandable.loadable (parts part mem).1).withRegisters numbers)
    (symbols ▸ (expandable.storable slots).withRegisters numbers) found prepares
  rw [resolve, if_pos keys, expand_eq checked, zip_temporaries slots, built]
  exact ⟨_, rfl⟩

/-- The first keyed position of a context whose operand is no aggregate, and this operand. -/
structure FirstScalar (s : Selector) (context : Context) (position : Nat) (id : SymbolId) :
    Prop where
  keyed : position ∈ context.keyed.positions
  operand : context.operands[position]? = some id
  scalar : s.classOf id ≠ .aggregate
  earlier : ∀ other ∈ context.keyed.positions, other < position →
    ∀ id, context.operands[other]? = some id → s.classOf id = .aggregate

/-- An expansion with a key on something else than an aggregate is refused there. -/
theorem resolve_scalar (keys : 2 ≤ context.keyed.count)
    (followed : ∀ position ∈ context.keyed.positions, position + 1 < context.operands.length)
    (bad : ∃ position ∈ context.keyed.positions, ∃ id,
      context.operands[position]? = some id ∧ s.classOf id ≠ .aggregate) :
    ∃ position id, s.FirstScalar context position id ∧
      s.resolve mnemonic context = (s, .error (.rejected (.illegalKeyedOperand
        (s.symbols.get id).displayText (s.classOf id)))) := by
  cases checked : s.checkKeyed context.operands context.keyed with
  | ok =>
      obtain ⟨position, mem, id, place, scalar⟩ := bad
      have passed := forM_eq_ok.mp checked position mem
      rw [checkKeyedAt_eq place (followed position mem), if_neg scalar] at passed
      cases passed
  | error fault =>
      have refused : s.resolve mnemonic context = (s, .error fault) := by
        rw [resolve, if_pos keys, expand, checked]
      obtain ⟨before, position, after, split, passed, failed⟩ := forM_eq_error checked
      have mem : position ∈ context.keyed.positions := by simp [split]
      have place := List.getElem?_eq_getElem (Nat.lt_of_succ_lt (followed position mem))
      rw [checkKeyedAt_eq place (followed position mem)] at failed
      split at failed
      · cases failed
      · rename_i scalar
        cases failed
        refine ⟨position, _, ⟨mem, place, scalar, ?_⟩, refused⟩
        intro other marked lt id place'
        -- the positions go up, so the earlier ones are those that have passed
        have isBefore : other ∈ before := by
          have sorted := context.keyed.positions_sorted
          rw [split] at marked sorted
          have behind := (List.pairwise_cons.mp (List.pairwise_append.mp sorted).2.1).1
          rcases List.mem_append.mp marked with isBefore | late
          · exact isBefore
          · rcases List.mem_cons.mp late with rfl | isAfter
            · exact absurd lt (Nat.lt_irrefl _)
            · exact absurd lt (Nat.lt_asymm (behind other isAfter))
        have good := passed other isBefore
        rw [checkKeyedAt_eq place' (followed other marked)] at good
        by_contra scalar'
        rw [if_neg scalar'] at good
        cases good

theorem Prepares.reads_or_known {entry : OpEntry} {dest : Slot} {t u : SymbolTable}
    {spelling : Spelling} (h : Prepares s entry dest t spelling u) :
    entry.reads 0 = true ∨ ∃ type, s.catalog.typeId s.config.initType = some type := by
  cases h with
  | load reads => exact .inl reads
  | create type _ known => exact .inr ⟨type, known⟩

/-- Under any accepted extension, an operation with several keyed operands that are aggregates
expands if and only if the catalog has it over aggregates, and it reads its first operand or the
type of new aggregates is known. With a key on something else it is refused, and the refusal names
the first operand of this kind. -/
theorem expansion_succeeds_iff {extension : Extension} (s : Selector) (mnemonic : String)
    (context : Context) (accepted : Catalog.builtIn.extended extension = .ok s.catalog)
    (wf : s.symbols.WellFormed) (keys : 2 ≤ context.keyed.count)
    (followed : ∀ position ∈ context.keyed.positions, position + 1 < context.operands.length) :
    (s.Expandable context →
      ((∃ first, (s.resolve mnemonic context).2 = .ok first) ↔
        ∃ entry, s.catalog.lookup
            (fullName mnemonic (List.replicate context.slots.length "p")) = some entry ∧
          (entry.reads 0 = true ∨
            ∃ type, s.catalog.typeId s.config.initType = some type))) ∧
    ((∃ position ∈ context.keyed.positions, ∃ id,
        context.operands[position]? = some id ∧ s.classOf id ≠ .aggregate) →
      ∃ position id, s.FirstScalar context position id ∧
        s.resolve mnemonic context = (s, .error (.rejected (.illegalKeyedOperand
          (s.symbols.get id).displayText (s.classOf id))))) := by
  refine ⟨fun expandable => ⟨?_, ?_⟩, resolve_scalar keys followed⟩
  · rintro ⟨first, resolved⟩
    obtain ⟨_, g, expands⟩ := resolve_expands keys resolved
    exact ⟨g.entry, expands.found, expands.prepared.reads_or_known⟩
  · rintro ⟨entry, found, prepares⟩
    exact exists_resolve accepted wf keys followed expandable found prepares

theorem expandable_sampleContext : swapSample.Expandable sampleContext := by
  have positions : sampleContext.keyed.positions = [0, 3] := by decide +kernel
  have slots : sampleContext.slots = [.keyed 0 2, .plain 3, .keyed 1 2] := by decide +kernel
  constructor
  · intro position mem id place
    simp only [positions, List.mem_cons, List.not_mem_nil, or_false] at mem
    rcases mem with rfl | rfl <;> cases place <;> exact ⟨rfl, rfl⟩
  · intro operand mem
    obtain rfl : operand = 3 := by simpa [slots] using mem
    decide
  · intro operand first
    simp [slots] at first

/-- The operands of `a[0], 0[0]`. -/
def scalarContext : Context := { swapContext with operands := [0, 2, 2, 2] }

/-- The product over `a[0], $P2, b[0]` expands with a new aggregate, and the key of a constant is
refused. -/
theorem expansion_succeeds_mul :
    (∃ first, (swapSample.resolve "mul" sampleContext).2 = .ok first) ∧
      swapSample.resolve "swap" scalarContext =
        (swapSample, .error (.rejected (.illegalKeyedOperand "0" .integer))) := by
  have wf : swapSample.symbols.WellFormed := by decide +kernel
  constructor
  · obtain ⟨entry, found, _⟩ := Catalog.lookup_of_has extended_swap
      (by decide +kernel : BuiltIn.Has "mul" ["p", "p", "p"])
    have known : swapSample.catalog.typeId swapSample.config.initType = some 0 := by
      decide +kernel
    exact ((expansion_succeeds_iff swapSample "mul" sampleContext extended_swap wf (by decide)
      (by decide)).1 expandable_sampleContext).mpr ⟨entry, found, .inr ⟨0, known⟩⟩
  · have positions : scalarContext.keyed.positions = [0, 2] := by decide +kernel
    obtain ⟨position, id, ⟨keyed, operand, scalar, _⟩, refused⟩ :=
      (expansion_succeeds_iff swapSample "swap" scalarContext extended_swap wf (by decide)
        (by decide)).2 ⟨2, by decide, 2, rfl, by decide⟩
    simp only [positions, List.mem_cons, List.not_mem_nil, or_false] at keyed
    rcases keyed with rfl | rfl
    · cases operand
      exact absurd rfl scalar
    · cases operand
      exact refused

end Selector
end OpSelect
