import OpSelect.Proofs.Selector.Justified
import OpSelect.Proofs.Selector.Slots

/-!
An instruction is determined by its mnemonic, by its keys and by what its operands are: built
again from other ids of the same symbols, it is the same but for the ids. So every emitted
instruction is what the finished table would build, and `Emits` says which instructions an
operation over given slots can lead to.
-/

namespace OpSelect

section Renaming

variable {t u : SymbolTable} {ids others : List SymbolId} {keyed : KeyedMask}

theorem Signature.of_eq_of_symbols (same : others.map u.get = ids.map t.get) :
    Signature.of u others keyed = Signature.of t ids keyed := by
  have through : ∀ (t : SymbolTable) (ids : List SymbolId), Signature.of t ids keyed =
      (ids.map t.get).zipIdx.map fun (symbol, position) =>
        ArgTag.of symbol (keyed.isKey position) := by
    intro t ids
    rw [Signature.of, List.zipIdx_map, List.map_map]
    rfl
  rw [through, through, same]

namespace Selector

variable {s s' : Selector} {mnemonic : String} {i : Instruction}

theorem checkKeyedAt_eq_of_symbols
    (same : others.map s'.symbols.get = ids.map s.symbols.get) (position : Nat) :
    s'.checkKeyedAt others position = s.checkKeyedAt ids position := by
  have dropped := congrArg (List.drop position) same
  rw [← List.map_drop, ← List.map_drop] at dropped
  unfold checkKeyedAt
  cases left : others.drop position with
  | nil =>
      rw [left, List.map_nil, eq_comm, List.map_eq_nil_iff] at dropped
      rw [dropped]
  | cons container rest =>
      rw [left, List.map_cons, eq_comm, List.map_eq_cons_iff] at dropped
      obtain ⟨other, more, eq, symbol, tail⟩ := dropped
      rw [eq]
      cases rest with
      | nil =>
          rw [List.map_nil, List.map_eq_nil_iff] at tail
          rw [tail]
      | cons key rest =>
          obtain ⟨otherKey, more, rfl, _, _⟩ := List.map_eq_cons_iff.mp tail
          simp only [symbol]

theorem checkKeyed_eq_of_symbols (same : others.map s'.symbols.get = ids.map s.symbols.get)
    (keyed : KeyedMask) : s'.checkKeyed others keyed = s.checkKeyed ids keyed := by
  have each : s'.checkKeyedAt others = s.checkKeyedAt ids :=
    funext (checkKeyedAt_eq_of_symbols same)
  rw [checkKeyed, checkKeyed, each]

theorem classify_eq_of_symbols (same : others.map s'.symbols.get = ids.map s.symbols.get)
    (entry : OpEntry) (mnemonic : String) :
    s'.classify entry mnemonic others = s.classify entry mnemonic ids := by
  have length := congrArg List.length same
  rw [List.length_map, List.length_map] at length
  unfold classify
  rw [length]
  -- only a copy looks at the classes, and only at those of two operands
  match others, ids, same with
  | [], [], _ => rfl
  | [_], [_], _ => rfl
  | [dest, source], [dest', source'], same =>
      simp only [List.map_cons, List.map_nil, List.cons.injEq, and_true] at same
      have first : s'.classOf dest = s.classOf dest' := congrArg Symbol.cls same.1
      have second : s'.classOf source = s.classOf source' := congrArg Symbol.cls same.2
      dsimp only
      rw [first, second]
  | _ :: _ :: _ :: _, _ :: _ :: _ :: _, _ => rfl

/-- Built from other ids of the same symbols, an instruction is the same but for the ids. -/
theorem build_eq_of_symbols (catalog : s'.catalog = s.catalog)
    (same : others.map s'.symbols.get = ids.map s.symbols.get) :
    s'.build mnemonic others keyed =
      (s.build mnemonic ids keyed).map fun i => { i with operands := others } := by
  have length := congrArg List.length same
  rw [List.length_map, List.length_map] at length
  unfold build
  rw [checkKeyed_eq_of_symbols same, Signature.of_eq_of_symbols same, catalog]
  cases s.checkKeyed ids keyed with
  | error fault => rfl
  | ok =>
      dsimp only [bind, Except.bind]
      cases s.catalog.lookup _ with
      | none => rfl
      | some entry =>
          dsimp only [pure, Except.pure, Except.map]
          rw [classify_eq_of_symbols same, length]

end Selector

end Renaming

/-- The instruction is what a selector with this catalog and table builds. -/
structure Instruction.Built (catalog : Catalog) (t : SymbolTable) (i : Instruction) : Prop where
  operands : ∀ id ∈ i.operands, id < t.size
  again : ∀ s : Selector, s.catalog = catalog → s.symbols = t →
    s.build i.mnemonic i.operands i.keyed = .ok i

theorem Instruction.Built.grows {catalog : Catalog} {t u : SymbolTable} {i : Instruction}
    (h : i.Built catalog t) (grown : t.Grows u) : i.Built catalog u := by
  refine ⟨fun id mem => Nat.lt_of_lt_of_le (h.operands id mem) grown.size_le, ?_⟩
  rintro s rfl rfl
  have same : i.operands.map s.symbols.get = i.operands.map t.get :=
    List.map_congr_left fun id mem => grown.get (h.operands id mem)
  let earlier : Selector := { s with symbols := t }
  have before : earlier.build i.mnemonic i.operands i.keyed = .ok i := h.again earlier rfl rfl
  have renamed : s.build i.mnemonic i.operands i.keyed = _ :=
    Selector.build_eq_of_symbols (s := earlier) rfl same
  rw [renamed, before]
  rfl

namespace Selector

variable {s t : Selector} {mnemonic : String} {ids : List SymbolId} {keyed : KeyedMask}
  {i : Instruction} {slot : Slot} {temp : SymbolId} {context : Context} {first : Nat}

theorem build_built (h : s.build mnemonic ids keyed = .ok i)
    (valid : ∀ id ∈ ids, id < s.symbols.size) : i.Built s.catalog s.symbols := by
  have spelled := (build_ok h).1
  obtain rfl : i.mnemonic = mnemonic := congrArg Spelling.mnemonic spelled
  obtain rfl : i.operands = ids := congrArg Spelling.operands spelled
  obtain rfl : i.keyed = keyed := congrArg Spelling.keyed spelled
  refine ⟨valid, fun s' catalog symbols => ?_⟩
  rw [build_eq_of_symbols (s := s) catalog (by rw [symbols]), h]
  rfl

theorem loadSlot_built (h : s.loadSlot slot temp = .ok i) (held : s.Holds slot temp) :
    i.Built s.catalog s.symbols := by
  rw [loadSlot_eq] at h
  exact build_built h (List.forall_mem_cons.mpr held)

theorem storeSlot_built (h : s.storeSlot slot temp = .ok i) (held : s.Holds slot temp) :
    i.Built s.catalog s.symbols := by
  rw [storeSlot_eq] at h
  exact build_built h
    (List.forall_mem_append.mpr ⟨held.2, List.forall_mem_singleton.mpr held.1⟩)

theorem Extends.built (h : s.Extends t) (built : i.Built s.catalog s.symbols) :
    i.Built t.catalog t.symbols := by
  obtain ⟨symbols, rfl, grown, _⟩ := h
  exact built.grows grown

theorem prepareSlot_built {operation : Instruction} (wf : s.symbols.WellFormed)
    (h : s.prepareSlot operation slot temp = (t, .ok i)) (held : s.Holds slot temp) :
    i.Built t.catalog t.symbols := by
  rcases prepareSlot_eq_ok.mp h with ⟨_, rfl, loaded⟩ | ⟨_, type, made, built⟩
  · exact loadSlot_built loaded held
  · exact build_built built (aggregateType_valid wf made held.1)

theorem buildGroup_built {dest : Slot × SymbolId} {others : List (Slot × SymbolId)}
    {group : List Instruction} (wf : s.symbols.WellFormed)
    (h : s.buildGroup mnemonic (dest :: others) = (t, .ok group))
    (held : ∀ pair ∈ dest :: others, s.Holds pair.1 pair.2) :
    ∀ i ∈ group, i.Built t.catalog t.symbols := by
  have grown : s.Extends t := extends_of_buildGroup h
  obtain ⟨first, rest⟩ := List.forall_mem_cons.mp held
  intro i mem
  rcases buildGroup_mem h mem with ⟨pair, other, loaded⟩ | ⟨_, prepared⟩ | operated | stored
  · exact grown.built (loadSlot_built loaded (rest pair other))
  · exact prepareSlot_built wf prepared first
  · exact grown.built (build_built operated (holds_temporaries held))
  · exact grown.built (storeSlot_built stored first)

end Selector

/-- The symbol is a register such as an expansion takes for a temporary. -/
def SymbolTable.IsTemporary (t : SymbolTable) (id : SymbolId) : Prop :=
  ∃ n, t.get id = ⟨ValueClass.aggregate.virtualRegister n, .aggregate, .var⟩

namespace Selector

variable {s t : Selector} {mnemonic : String} {i : Instruction} {context : Context}
  {slots : List Slot} {first : Nat}

/-- What an operation over the slots can emit: itself, or a part of its expansion. -/
inductive Emits (s : Selector) (mnemonic : String) (slots : List Slot) (t : SymbolTable) :
    Spelling → Prop where
  | whole : Emits s mnemonic slots t (Slot.spelling mnemonic slots)
  | load (slot : Slot) (temp : SymbolId) (mem : slot ∈ slots) (register : t.IsTemporary temp) :
      Emits s mnemonic slots t (Slot.spelling "set" [.plain temp, slot])
  | store (slot : Slot) (temp : SymbolId) (mem : slot ∈ slots) (register : t.IsTemporary temp) :
      Emits s mnemonic slots t (Slot.spelling "set" [slot, .plain temp])
  | create (type : Int) (temp id : SymbolId) (register : t.IsTemporary temp)
      (known : s.catalog.typeId s.config.initType = some type)
      (number : t.get id = ⟨toString type, .integer, .constant⟩) :
      Emits s mnemonic slots t (Slot.spelling "new" [.plain temp, .plain id])
  | operation (temps : List SymbolId) (registers : ∀ temp ∈ temps, t.IsTemporary temp) :
      Emits s mnemonic slots t (Slot.spelling mnemonic (temps.map .plain))

theorem Expands.isTemporary {g : Group} (h : Expands s mnemonic context t g) {temp : SymbolId}
    (mem : temp ∈ List.range' s.symbols.size context.slots.length) :
    t.symbols.IsTemporary temp := by
  rw [← h.length] at mem
  obtain ⟨n, symbol⟩ : ∃ n, (s.symbols.withRegisters .aggregate g.numbers).get temp =
      ⟨ValueClass.aggregate.virtualRegister n, .aggregate, .var⟩ := by
    obtain ⟨n, _, symbol, _⟩ := SymbolTable.get_withRegisters mem
    exact ⟨n, symbol⟩
  have below : temp < (s.symbols.withRegisters .aggregate g.numbers).size := by
    rw [SymbolTable.size_withRegisters]
    exact (List.mem_range'_1.mp mem).2
  exact ⟨n, (h.prepared.grows.get below).trans symbol⟩

/-- Each instruction of an expanded group is a part of the expansion. -/
theorem Expands.emits {g : Group} (h : Expands s mnemonic context t g)
    (wf : s.symbols.WellFormed) (mem : i ∈ g.instructions) :
    Emits s mnemonic context.slots t.symbols i.spelling := by
  have spelled := List.mem_map_of_mem (f := Instruction.spelling) mem
  generalize i.spelling = spelling at spelled
  have dest : g.dest ∈ context.slots := by
    rw [h.slots]
    exact List.mem_cons_self
  have first : t.symbols.IsTemporary s.symbols.size := by
    refine h.isTemporary ?_
    rw [h.temporaries_cons]
    exact List.mem_cons_self
  rw [h.spelled] at spelled
  simp only [List.mem_append, List.mem_map, List.mem_cons, List.not_mem_nil, or_false] at spelled
  rcases spelled with ⟨⟨slot, temp⟩, pair, rfl⟩ | rfl | rfl | rfl
  · obtain ⟨isSlot, isTemp⟩ := List.of_mem_zip pair
    rw [Slot.load_eq_spelling]
    refine .load slot temp ?_ (h.isTemporary ?_)
    · rw [h.slots]
      exact List.mem_cons_of_mem _ isSlot
    · rw [h.temporaries_cons]
      exact List.mem_cons_of_mem _ isTemp
  · rcases h.prepared.spelled (wf.grows h.grows) with ⟨_, eq⟩ | ⟨_, type, id, known, number, eq⟩
    · rw [eq, Slot.load_eq_spelling]
      exact .load g.dest _ dest first
    · rw [eq]
      exact .create type _ id first known number
  · rw [← Slot.spelling_plain]
    exact .operation _ fun temp mem => h.isTemporary mem
  · rw [Slot.store_eq_spelling]
    exact .store g.dest _ dest first

theorem expand_built (wf : s.symbols.WellFormed) (admitted : s.Admits context)
    (keys : 2 ≤ context.keyed.count) (h : s.expand mnemonic context = (t, .ok first)) :
    ∃ group, t.instructions = s.instructions ++ group ∧
      ∀ i ∈ group, i.Built t.catalog t.symbols := by
  obtain ⟨checked, after, group, built, rfl⟩ := expand_ok h
  have taken : s.symbols.Grows (s.withTemporaries context).symbols :=
    SymbolTable.grows_temporaries ..
  have held := admitted.holds
  have grown := extends_buildGroup (s.withTemporaries context) mnemonic
    (context.slots.zip (s.temporariesFor context))
  obtain ⟨dest, others, slots⟩ := List.exists_cons_of_ne_nil (slots_ne_nil checked keys)
  rw [zip_temporaries slots] at held built grown
  have each := buildGroup_built (wf.grows taken) built held
  rw [built] at grown
  obtain ⟨symbols, rfl, _⟩ := grown
  exact ⟨group, rfl, each⟩

/-- What an answered operation appends. -/
theorem resolve_emits (wf : s.symbols.WellFormed) (admitted : s.Admits context)
    (filled : context.Filled slots) (inside : Slot.width slots ≤ maskWidth)
    (h : s.resolve mnemonic context = (t, .ok first)) :
    ∃ group, t.instructions = s.instructions ++ group ∧
      ∀ i ∈ group, i.Built t.catalog t.symbols ∧ Emits s mnemonic slots t.symbols i.spelling := by
  rcases resolve_ok h with ⟨keys, expanded⟩ | ⟨_, i, built, rfl⟩
  · obtain ⟨group, instructions, built⟩ := expand_built wf admitted keys expanded
    obtain ⟨_, g, expands⟩ := resolve_expands keys (congrArg Prod.snd h)
    rw [h] at expands
    obtain rfl : group = g.instructions :=
      List.append_cancel_left (instructions.symm.trans expands.instructions)
    refine ⟨_, instructions, fun i mem => ⟨built i mem, ?_⟩⟩
    rw [← filled.slots_eq inside]
    exact expands.emits wf mem
  · refine ⟨[i], rfl, List.forall_mem_singleton.mpr ⟨build_built built admitted.operands, ?_⟩⟩
    rw [(build_ok built).1, filled.operands, filled.keyed]
    exact .whole

end Selector
end OpSelect
