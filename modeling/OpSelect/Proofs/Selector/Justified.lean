import OpSelect.Proofs.Catalog.Naming
import OpSelect.Proofs.Selector.Emission
import OpSelect.Proofs.Selector.Refusal

/-!
What stands behind an emitted instruction: its operands are symbols of the table, its name is
that of its operands, and the catalog has an entry under this name. The table only grows under
the instructions that point into it, so nothing of this is lost. Each request of the selector
is shown to emit such instructions only, whether it is answered or refused.
-/

namespace OpSelect

theorem Signature.of_grows {t u : SymbolTable} {operands : List SymbolId} {keyed : KeyedMask}
    (grown : t.Grows u) (valid : ∀ id ∈ operands, id < t.size) :
    Signature.of u operands keyed = Signature.of t operands keyed := by
  refine List.map_congr_left ?_
  rintro ⟨id, position⟩ place
  dsimp only
  rw [grown.get (valid id (List.fst_mem_of_mem_zipIdx place))]

theorem Config.maxArity_le {config : Config} (h : config.validate = .ok ()) :
    config.maxArity ≤ maskWidth := by
  unfold validate at h
  split at h
  · cases h
  · rename_i inside
    exact Nat.le_of_not_lt fun above => inside (.inr above)

/-- What the catalog, the limit of operands and the table say about an instruction that is not
a label. -/
structure Instruction.Justified (catalog : Catalog) (limit : Nat) (t : SymbolTable)
    (i : Instruction) : Prop where
  operands : ∀ id ∈ i.operands, id < t.size
  arity : i.operands.length ≤ limit
  single : i.keyed.count ≤ 1
  containers : ∀ position ∈ i.keyed.positions, position + 1 < i.operands.length ∧
    ∃ id, i.operands[position]? = some id ∧ (t.get id).cls = .aggregate
  name : i.fullName = (Signature.of t i.operands i.keyed).mangle i.mnemonic
  entry : ∃ entry, catalog.lookup i.fullName = some entry ∧ i.opcode = some entry.opcode ∧
    i.directions = .ofDirections entry.directions

/-- What is asked of operations only holds of a label. -/
theorem Instruction.forall_mem_label {P : Instruction → Prop} (name : String) (id : SymbolId) :
    ∀ i ∈ [Instruction.label name id], i.isLabel = false → P i :=
  List.forall_mem_singleton.mpr fun operation => Bool.noConfusion operation

theorem Instruction.Justified.grows {catalog : Catalog} {limit : Nat} {t u : SymbolTable}
    {i : Instruction} (h : i.Justified catalog limit t) (grown : t.Grows u) :
    i.Justified catalog limit u where
  operands id mem := Nat.lt_of_lt_of_le (h.operands id mem) grown.size_le
  arity := h.arity
  single := h.single
  containers position mem := by
    obtain ⟨key, id, container, aggregate⟩ := h.containers position mem
    refine ⟨key, id, container, ?_⟩
    rw [grown.get (h.operands id (List.mem_of_getElem? container))]
    exact aggregate
  name := by rw [Signature.of_grows grown h.operands]; exact h.name
  entry := h.entry

namespace Slot

theorem length_group_le (keyed : KeyedMask) (position : Nat) (operands : List SymbolId) :
    (group keyed position operands).length ≤ operands.length := by
  fun_induction group keyed position operands with
  | case1 | case2 => simp
  | case3 position first second rest _ ih | case4 position first second rest _ ih =>
      simp only [List.length_cons] at ih ⊢
      omega

theorem length_operands_le (slot : Slot) : slot.operands.length ≤ 2 := by
  cases slot <;> simp [Slot.operands]

theorem count_keyed_load (temp : SymbolId) (slot : Slot) : (slot.load temp).keyed.count ≤ 1 := by
  cases slot with
  | plain operand => exact (by decide : KeyedMask.empty.count ≤ 1)
  | keyed container key => exact (by decide : (KeyedMask.single 1).count ≤ 1)

theorem count_keyed_store (temp : SymbolId) (slot : Slot) :
    (slot.store temp).keyed.count ≤ 1 := by
  cases slot with
  | plain operand => exact (by decide : KeyedMask.empty.count ≤ 1)
  | keyed container key => exact (by decide : (KeyedMask.single 0).count ≤ 1)

end Slot

namespace Selector

variable {s t u : Selector} {mnemonic : String} {operands : List SymbolId} {keyed : KeyedMask}
  {i : Instruction} {limit : Nat} {slot : Slot} {temp : SymbolId} {context : Context}

theorem build_justified (h : s.build mnemonic operands keyed = .ok i)
    (valid : ∀ id ∈ operands, id < s.symbols.size) (arity : operands.length ≤ limit)
    (single : keyed.count ≤ 1) : i.Justified s.catalog limit s.symbols := by
  obtain ⟨checked, entry, found, rfl⟩ := build_eq_ok.mp h
  obtain ⟨_, name⟩ := Catalog.lookup_some found
  refine ⟨valid, arity, single, ?_, name, entry, ?_, rfl, rfl⟩
  · intro position mem
    obtain ⟨container, key, rest, dropped, aggregate⟩ := checkKeyed_ok checked mem
    have place : operands[position]? = some container := by
      rw [← List.head?_drop, dropped]
      rfl
    have key : position + 1 < operands.length := by
      have length := congrArg List.length dropped
      simp only [List.length_drop, List.length_cons] at length
      omega
    exact ⟨key, container, place, aggregate⟩
  · rw [instructionOf, name]
    exact found

theorem loadSlot_eq (s : Selector) (slot : Slot) (temp : SymbolId) :
    s.loadSlot slot temp = s.build "set" (temp :: slot.operands) (slot.load temp).keyed := by
  cases slot <;> rfl

theorem storeSlot_eq (s : Selector) (slot : Slot) (temp : SymbolId) :
    s.storeSlot slot temp = s.build "set" (slot.operands ++ [temp]) (slot.store temp).keyed := by
  cases slot <;> rfl

/-- A slot and its temporary are symbols of the table. -/
def Holds (s : Selector) (slot : Slot) (temp : SymbolId) : Prop :=
  temp < s.symbols.size ∧ ∀ id ∈ slot.operands, id < s.symbols.size

theorem holds_temporaries {pairs : List (Slot × SymbolId)}
    (held : ∀ pair ∈ pairs, s.Holds pair.1 pair.2) :
    ∀ id ∈ pairs.map Prod.snd, id < s.symbols.size :=
  List.forall_mem_map.mpr fun pair mem => (held pair mem).1

theorem loadSlot_justified (h : s.loadSlot slot temp = .ok i) (held : s.Holds slot temp)
    (room : 3 ≤ limit) : i.Justified s.catalog limit s.symbols := by
  rw [loadSlot_eq] at h
  refine build_justified h (List.forall_mem_cons.mpr held) ?_ (slot.count_keyed_load temp)
  have few := slot.length_operands_le
  rw [List.length_cons]
  omega

theorem storeSlot_justified (h : s.storeSlot slot temp = .ok i) (held : s.Holds slot temp)
    (room : 3 ≤ limit) : i.Justified s.catalog limit s.symbols := by
  rw [storeSlot_eq] at h
  refine build_justified h ?_ ?_ (slot.count_keyed_store temp)
  · exact List.forall_mem_append.mpr ⟨held.2, List.forall_mem_singleton.mpr held.1⟩
  · have few := slot.length_operands_le
    rw [List.length_append, List.length_singleton]
    omega

theorem Extends.justified (h : s.Extends t) (justified : i.Justified s.catalog limit s.symbols) :
    i.Justified t.catalog limit t.symbols := by
  obtain ⟨symbols, rfl, grown, _⟩ := h
  exact justified.grows grown

/-- The number of a type is in the table that it was added to, with every symbol before it. -/
theorem aggregateType_valid {name : String} {type : SymbolId} (wf : s.symbols.WellFormed)
    (h : s.aggregateType name = (t, .ok type)) (old : temp < s.symbols.size) :
    ∀ id ∈ [temp, type], id < t.symbols.size := by
  obtain ⟨number, _, rfl, rfl⟩ := aggregateType_eq_ok.mp h
  have grown := s.symbols.grows_constant (toString number) .integer
  refine List.forall_mem_cons.mpr ⟨Nat.lt_of_lt_of_le old grown.size_le, ?_⟩
  exact List.forall_mem_singleton.mpr (SymbolTable.constant_ok wf _ _).1

theorem prepareSlot_justified {operation : Instruction} (wf : s.symbols.WellFormed)
    (h : s.prepareSlot operation slot temp = (t, .ok i)) (held : s.Holds slot temp)
    (room : 3 ≤ limit) : i.Justified t.catalog limit t.symbols := by
  rcases prepareSlot_eq_ok.mp h with ⟨_, rfl, loaded⟩ | ⟨_, type, made, built⟩
  · exact loadSlot_justified loaded held room
  · exact build_justified built (aggregateType_valid wf made held.1) (by simp; omega) (by decide)

/-- Every instruction of a group is justified once the group is built. -/
theorem buildGroup_justified {dest : Slot × SymbolId} {others : List (Slot × SymbolId)}
    {group : List Instruction} (wf : s.symbols.WellFormed)
    (h : s.buildGroup mnemonic (dest :: others) = (t, .ok group))
    (held : ∀ pair ∈ dest :: others, s.Holds pair.1 pair.2) (room : 3 ≤ limit)
    (arity : (dest :: others).length ≤ limit) :
    ∀ i ∈ group, i.Justified t.catalog limit t.symbols := by
  have grown : s.Extends t := extends_of_buildGroup h
  obtain ⟨first, rest⟩ := List.forall_mem_cons.mp held
  intro i mem
  rcases buildGroup_mem h mem with ⟨pair, other, loaded⟩ | ⟨_, prepared⟩ | operated | stored
  · exact grown.justified (loadSlot_justified loaded (rest pair other) room)
  · exact prepareSlot_justified wf prepared first room
  · exact grown.justified
      (build_justified operated (holds_temporaries held) (by simpa using arity) (by decide))
  · exact grown.justified (storeSlot_justified stored first room)

/-- A context over symbols of the table, with the selector's limit and within it. -/
structure Admits (s : Selector) (context : Context) : Prop where
  operands : ∀ id ∈ context.operands, id < s.symbols.size
  limit : context.maxArity = s.config.maxArity
  arity : context.operands.length ≤ s.config.maxArity

/-- The second of two containers has its key after it, so there are three operands. -/
theorem three_le_arity (checked : s.checkKeyed context.operands context.keyed = .ok ())
    (keys : 2 ≤ context.keyed.count) : 3 ≤ context.operands.length := by
  have increasing : context.keyed.positions.Pairwise (· < ·) :=
    List.pairwise_lt_range.filter _
  match marked : context.keyed.positions, keys with
  | [], keys | [_], keys => simp [KeyedMask.count, marked] at keys
  | p :: q :: others, _ =>
      rw [marked] at increasing
      have later : p < q := List.rel_of_pairwise_cons increasing List.mem_cons_self
      have second : q ∈ context.keyed.positions := by simp [marked]
      obtain ⟨container, key, rest, dropped, _⟩ := checkKeyed_ok checked second
      have length := congrArg List.length dropped
      simp only [List.length_drop, List.length_cons] at length
      omega

/-- From `s` to `t` the table grew, and labels or justified instructions were appended. -/
structure Evolves (s t : Selector) : Prop where
  grows : s.symbols.Grows t.symbols
  catalog : t.catalog = s.catalog
  config : t.config = s.config
  emitted : ∃ group, t.instructions = s.instructions ++ group ∧
    ∀ i ∈ group, i.isLabel = false → i.Justified t.catalog t.config.maxArity t.symbols

theorem evolves_symbols {symbols : SymbolTable} (grown : s.symbols.Grows symbols) :
    s.Evolves { s with symbols } :=
  ⟨grown, rfl, rfl, [], (List.append_nil _).symm, fun _ mem => absurd mem List.not_mem_nil⟩

theorem Evolves.refl (s : Selector) : s.Evolves s := evolves_symbols .refl

theorem Evolves.trans (h : s.Evolves t) (k : t.Evolves u) : s.Evolves u := by
  obtain ⟨earlier, first, before⟩ := h.emitted
  obtain ⟨later, second, after⟩ := k.emitted
  refine ⟨h.grows.trans k.grows, k.catalog.trans h.catalog, k.config.trans h.config,
    earlier ++ later, by rw [second, first, List.append_assoc], ?_⟩
  intro i mem operation
  cases List.mem_append.mp mem with
  | inl mem =>
      rw [k.catalog, k.config]
      exact (before i mem operation).grows k.grows
  | inr mem => exact after i mem operation

theorem Admits.evolves (h : s.Admits context) (k : s.Evolves t) : t.Admits context where
  operands id mem := Nat.lt_of_lt_of_le (h.operands id mem) k.grows.size_le
  limit := by rw [k.config]; exact h.limit
  arity := by rw [k.config]; exact h.arity

/-- The slots of an admitted context and the temporaries are in the table that has both. -/
theorem Admits.holds (h : s.Admits context) :
    ∀ pair ∈ context.slots.zip (s.temporariesFor context),
      (s.withTemporaries context).Holds pair.1 pair.2 := by
  rintro ⟨slot, temp⟩ mem
  obtain ⟨isSlot, isTemp⟩ := List.of_mem_zip mem
  obtain ⟨numbers, length, _, _, table, _⟩ :=
    s.symbols.temporaries_eq s.names .aggregate context.slots.length
  have size : (s.withTemporaries context).symbols.size = s.symbols.size + context.slots.length :=
    (congrArg SymbolTable.size table).trans (by rw [SymbolTable.size_withRegisters, length])
  rw [temporariesFor_eq] at isTemp
  refine ⟨?_, fun id inside => ?_⟩
  · rw [size]
    exact (List.mem_range'_1.mp isTemp).2
  · have operand : id ∈ context.operands := by
      rw [← context.flatMap_slots]
      exact List.mem_flatMap.mpr ⟨slot, isSlot, inside⟩
    rw [size]
    exact Nat.lt_add_right _ (h.operands id operand)

/-- An expansion appends its group. The arity check of contexts was passed by the context, not
by the group: its copies take three operands at most, and the operation no more than the
context has. -/
theorem expand_evolves {first : Nat} (wf : s.symbols.WellFormed) (admitted : s.Admits context)
    (keys : 2 ≤ context.keyed.count) (h : s.expand mnemonic context = (t, .ok first)) :
    s.Evolves t := by
  obtain ⟨checked, after, group, built, rfl⟩ := expand_ok h
  have taken : s.symbols.Grows (s.withTemporaries context).symbols :=
    SymbolTable.grows_temporaries ..
  have room : 3 ≤ s.config.maxArity := Nat.le_trans (three_le_arity checked keys) admitted.arity
  have arity : (context.slots.zip (s.temporariesFor context)).length ≤ s.config.maxArity := by
    have slots := Slot.length_group_le context.keyed 0 context.operands
    have limit := admitted.arity
    rw [List.length_zip]
    exact Nat.le_trans (Nat.min_le_left _ _) (Nat.le_trans slots limit)
  have held := admitted.holds
  have grown := extends_buildGroup (s.withTemporaries context) mnemonic
    (context.slots.zip (s.temporariesFor context))
  -- a group is built for a first slot and others
  obtain ⟨dest, others, slots⟩ := List.exists_cons_of_ne_nil (slots_ne_nil checked keys)
  rw [zip_temporaries slots] at arity held built grown
  rw [built] at grown
  obtain ⟨symbols, rfl, more, _⟩ := grown
  refine ⟨taken.trans more, rfl, rfl, group, rfl, fun i mem _ => ?_⟩
  exact buildGroup_justified (wf.grows taken) built held room arity i mem

theorem resolve_evolves (mnemonic : String) (wf : s.symbols.WellFormed)
    (admitted : s.Admits context) : s.Evolves (s.resolve mnemonic context).1 := by
  cases resolved : s.resolve mnemonic context with
  | mk t result =>
      cases result with
      | error fault =>
          have same := resolve_refused wf (congrArg Prod.snd resolved)
          rw [resolved] at same
          exact same ▸ .refl s
      | ok first =>
          rcases resolve_ok resolved with ⟨keys, expanded⟩ | ⟨single, i, built, rfl⟩
          · exact expand_evolves wf admitted keys expanded
          · refine ⟨.refl, rfl, rfl, [i], rfl, List.forall_mem_singleton.mpr fun _ => ?_⟩
            exact build_justified built admitted.operands admitted.arity single

section Contexts

variable {c d : Context} {id container key : SymbolId}

theorem admits_context (s : Selector) : s.Admits s.context :=
  ⟨fun _ mem => absurd mem List.not_mem_nil, rfl, Nat.zero_le _⟩

theorem Admits.append (h : s.Admits c) (valid : id < s.symbols.size) :
    s.Admits (c.append id).1 := by
  unfold Context.append
  split
  · exact h
  · rename_i room
    refine ⟨?_, h.limit, ?_⟩
    · exact List.forall_mem_append.mpr ⟨h.operands, List.forall_mem_singleton.mpr valid⟩
    · rw [h.limit] at room
      rw [List.length_append, List.length_singleton]
      exact Nat.lt_of_not_le room

theorem Admits.setKeyed (h : s.Admits c) (position : Nat) : s.Admits (c.setKeyed position).1 := by
  unfold Context.setKeyed
  split
  · exact ⟨h.operands, h.limit, h.arity⟩
  · exact h

/-- A container is kept although there may be no room for its key. -/
theorem Admits.appendKeyed (h : s.Admits c) (isContainer : container < s.symbols.size)
    (isKey : key < s.symbols.size) : s.Admits (c.appendKeyed container key).1 := by
  have first := h.append isContainer
  unfold Context.appendKeyed
  split
  · rename_i refused
    rwa [refused] at first
  · rename_i added
    rw [added] at first
    have second := first.append isKey
    split
    · rename_i refused
      rwa [refused] at second
    · rename_i added
      rw [added] at second
      exact second.setKeyed _

theorem Admits.clear (h : s.Admits c) : s.Admits c.clear :=
  ⟨fun _ mem => absurd mem List.not_mem_nil, h.limit, Nat.zero_le _⟩

theorem Admits.appendSlot (h : s.Admits c) (valid : ∀ id ∈ slot.operands, id < s.symbols.size) :
    s.Admits (c.appendSlot slot).1 := by
  cases slot with
  | plain operand => exact h.append (valid operand (by simp [Slot.operands]))
  | keyed container key =>
      exact h.appendKeyed (valid container (by simp [Slot.operands]))
        (valid key (by simp [Slot.operands]))

theorem Admits.fill {slots : List Slot} (h : s.Admits c) (filled : c.fill slots = .ok d)
    (valid : ∀ id ∈ slots.flatMap Slot.operands, id < s.symbols.size) : s.Admits d := by
  refine Context.fill_keeps h (fun slot mem c d admitted added => ?_) filled
  have after := admitted.appendSlot fun id inside =>
    valid id (List.mem_flatMap.mpr ⟨slot, mem, inside⟩)
  rwa [added] at after

end Contexts

theorem resolveSlots_evolves (mnemonic : String) {slots : List Slot} (wf : s.symbols.WellFormed)
    (valid : ∀ id ∈ slots.flatMap Slot.operands, id < s.symbols.size) :
    s.Evolves (s.resolveSlots mnemonic slots).1 := by
  unfold resolveSlots
  cases filled : s.context.fill slots with
  | error fault => exact .refl s
  | ok context => exact resolve_evolves mnemonic wf (s.admits_context.fill filled valid)

theorem Indexes.evolves {ids : List SymbolId} {answer : Selector × Except Fault Nat}
    (h : s.Indexes ids answer) (wf : s.symbols.WellFormed)
    (valid : ∀ id ∈ ids, id < s.symbols.size) : s.Evolves answer.1 := by
  cases h with
  | element mnemonic slots operands =>
      exact resolveSlots_evolves mnemonic wf fun id mem => valid id (operands mem)
  | character mnemonic slots operands =>
      have first : s.Evolves s.one.1 := evolves_symbols s.grows_one
      refine first.trans (resolveSlots_evolves mnemonic (wf.grows s.grows_one) ?_)
      exact fun id mem => valid_one wf valid id (operands mem)
  | refused error => exact .refl s

theorem label_evolves (wf : s.symbols.WellFormed) (name : String) :
    s.Evolves (s.label name).1 := by
  unfold label
  rcases SymbolTable.placeLabel_cases wf name with ⟨e, refused⟩ | ⟨u, id, placed, grown, _⟩
  · rw [refused]
    exact .refl s
  · rw [placed]
    exact ⟨grown, rfl, rfl, [.label name id], rfl, Instruction.forall_mem_label name id⟩

theorem start_ok {catalog : Catalog} {config : Config} (h : start catalog config = .ok s) :
    s = { catalog, config } := by
  unfold start at h
  cases valid : config.validate with
  | error error => simp [valid, Except.map] at h
  | ok =>
      rw [valid] at h
      cases h
      rfl

theorem aggregateType_evolves (s : Selector) (name : String) :
    s.Evolves (s.aggregateType name).1 := by
  obtain ⟨symbols, same, grown, _⟩ := extends_aggregateType s name
  rw [same]
  exact evolves_symbols grown

end Selector
end OpSelect
