import OpSelect.Proofs.Selector.Built
import OpSelect.Selector.Indexed

/-!
Selectors with more to select from. `WidensTo` relates a selector to one whose catalog and arity
limit have grown and whose symbols, names and instructions are the same. Nothing is selected
because an entry or a type is missing, so where a step succeeds, it succeeds on the wider selector
with the same result, and the two are again so related. A step that is refused may be accepted by
the wider selector.
-/

namespace OpSelect

namespace Context

variable {c d c' : Context}

/-- `d` has the operands of `c` under a limit that is not smaller. -/
structure WidensTo (c d : Context) : Prop where
  operands : d.operands = c.operands
  keyed : d.keyed = c.keyed
  maxArity : c.maxArity ≤ d.maxArity

namespace WidensTo

theorem arity (h : c.WidensTo d) : d.arity = c.arity := congrArg List.length h.operands

theorem slots (h : c.WidensTo d) : d.slots = c.slots := by
  rw [Context.slots, Context.slots, h.operands, h.keyed]

theorem append {operand : SymbolId} (h : c.WidensTo d)
    (added : c.append operand = (c', .ok ())) :
    ∃ d', d.append operand = (d', .ok ()) ∧ c'.WidensTo d' := by
  obtain ⟨room, rfl⟩ := append_eq_ok added
  have wider : d.arity < d.maxArity := by
    rw [h.arity]
    exact Nat.lt_of_lt_of_le room h.maxArity
  refine ⟨_, if_neg (Nat.not_le_of_lt wider), ?_, h.keyed, h.maxArity⟩
  exact congrArg (· ++ [operand]) h.operands

theorem setKeyed {position : Nat} (h : c.WidensTo d)
    (marked : c.setKeyed position = (c', .ok ())) :
    ∃ d', d.setKeyed position = (d', .ok ()) ∧ c'.WidensTo d' := by
  unfold Context.setKeyed at marked ⊢
  by_cases inside : position < maskWidth
  · rw [if_pos inside] at marked ⊢
    cases marked
    exact ⟨_, rfl, h.operands, congrArg (·.insert position) h.keyed, h.maxArity⟩
  · rw [if_neg inside] at marked
    cases marked

theorem appendKeyed {container key : SymbolId} (h : c.WidensTo d)
    (added : c.appendKeyed container key = (c', .ok ())) :
    ∃ d', d.appendKeyed container key = (d', .ok ()) ∧ c'.WidensTo d' := by
  unfold Context.appendKeyed at added
  split at added
  · cases added
  · rename_i c₁ first
    split at added
    · cases added
    · rename_i c₂ second
      obtain ⟨d₁, first', h₁⟩ := h.append first
      obtain ⟨d₂, second', h₂⟩ := h₁.append second
      obtain ⟨d', marked, h'⟩ := h₂.setKeyed added
      refine ⟨d', ?_, h'⟩
      simp only [Context.appendKeyed, first', second']
      rw [h.arity]
      exact marked

theorem appendSlot {slot : Slot} (h : c.WidensTo d) (added : c.appendSlot slot = (c', .ok ())) :
    ∃ d', d.appendSlot slot = (d', .ok ()) ∧ c'.WidensTo d' := by
  cases slot with
  | plain operand => exact h.append added
  | keyed container key => exact h.appendKeyed added

theorem fill {slots : List Slot} (h : c.WidensTo d) (filled : c.fill slots = .ok c') :
    ∃ d', d.fill slots = .ok d' ∧ c'.WidensTo d' := by
  induction slots generalizing c d with
  | nil =>
      cases filled
      exact ⟨d, rfl, h⟩
  | cons slot slots ih =>
      unfold Context.fill at filled
      split at filled
      · cases filled
      · rename_i c₁ added
        obtain ⟨d₁, added', h₁⟩ := h.appendSlot added
        rw [Context.fill, added']
        exact ih h₁ filled

end WidensTo
end Context

namespace Selector

/-- `t` is `s` with a catalog and an arity limit that have grown. -/
structure WidensTo (s t : Selector) : Prop where
  catalog : s.catalog.Grows t.catalog
  maxArity : s.config.maxArity ≤ t.config.maxArity
  initType : t.config.initType = s.config.initType
  symbols : t.symbols = s.symbols
  names : t.names = s.names
  instructions : t.instructions = s.instructions

variable {s t s' : Selector} {mnemonic : String} {operands : List SymbolId} {keyed : KeyedMask}
  {i : Instruction} {slot : Slot} {temp : SymbolId} {c d : Context}

namespace WidensTo

theorem context (h : s.WidensTo t) : s.context.WidensTo t.context := ⟨rfl, rfl, h.maxArity⟩

theorem withSymbols (h : s.WidensTo t) (table : SymbolTable) :
    WidensTo { s with symbols := table } { t with symbols := table } :=
  ⟨h.catalog, h.maxArity, h.initType, rfl, h.names, h.instructions⟩

theorem get (h : s.WidensTo t) (ids : List SymbolId) :
    ids.map t.symbols.get = ids.map s.symbols.get := by
  rw [h.symbols]

theorem classOf (h : s.WidensTo t) (id : SymbolId) : t.classOf id = s.classOf id := by
  rw [Selector.classOf, Selector.classOf, h.symbols]

/-- The entry that was found is found again, and everything else comes from the symbols. -/
theorem build (h : s.WidensTo t) (built : s.build mnemonic operands keyed = .ok i) :
    t.build mnemonic operands keyed = .ok i := by
  have same := h.get operands
  obtain ⟨checked, entry, found, rfl⟩ := build_eq_ok.mp built
  refine build_eq_ok.mpr ⟨?_, entry, ?_, ?_⟩
  · rw [checkKeyed_eq_of_symbols same, checked]
  · rw [Signature.of_eq_of_symbols same]
    exact h.catalog.lookup found
  · rw [instructionOf, instructionOf, classify_eq_of_symbols same]

theorem loadSlot (h : s.WidensTo t) (built : s.loadSlot slot temp = .ok i) :
    t.loadSlot slot temp = .ok i := by
  rw [loadSlot_eq] at built ⊢
  exact h.build built

theorem storeSlot (h : s.WidensTo t) (built : s.storeSlot slot temp = .ok i) :
    t.storeSlot slot temp = .ok i := by
  rw [storeSlot_eq] at built ⊢
  exact h.build built

theorem buildFixed {dest : Slot × SymbolId} {others : List (Slot × SymbolId)}
    {operation writeBack : Instruction} {loads : List Instruction} (h : s.WidensTo t)
    (built : s.buildFixed mnemonic dest others = .ok (operation, writeBack, loads)) :
    t.buildFixed mnemonic dest others = .ok (operation, writeBack, loads) := by
  obtain ⟨operated, stored, loaded⟩ := buildFixed_built built
  have loaded' := mapM_eq_ok.mpr ((mapM_eq_ok.mp loaded).imp fun _ _ => h.loadSlot)
  unfold Selector.buildFixed
  rw [h.build operated, h.storeSlot stored, loaded']
  rfl

theorem withTemporaries (h : s.WidensTo t) (k : c.WidensTo d) :
    (s.withTemporaries c).WidensTo (t.withTemporaries d) := by
  unfold Selector.withTemporaries
  rw [k.slots, h.symbols, h.names]
  exact ⟨h.catalog, h.maxArity, h.initType, rfl, rfl, h.instructions⟩

theorem temporariesFor (h : s.WidensTo t) (k : c.WidensTo d) :
    t.temporariesFor d = s.temporariesFor c := by
  rw [temporariesFor_eq, temporariesFor_eq, k.slots, h.symbols]

theorem emit {first : Nat} (h : s.WidensTo t) (group : List Instruction)
    (emitted : s.emit group = (s', .ok first)) :
    ∃ t', t.emit group = (t', .ok first) ∧ s'.WidensTo t' := by
  cases emitted
  refine ⟨{ t with instructions := t.instructions ++ group }, ?_, ?_⟩
  · rw [Selector.emit, h.instructions]
  · exact ⟨h.catalog, h.maxArity, h.initType, h.symbols, h.names,
      congrArg (· ++ group) h.instructions⟩

theorem aggregateType {name : String} {id : SymbolId} (h : s.WidensTo t)
    (numbered : s.aggregateType name = (s', .ok id)) :
    ∃ t', t.aggregateType name = (t', .ok id) ∧ s'.WidensTo t' := by
  obtain ⟨type, known, rfl, rfl⟩ := Selector.aggregateType_eq_ok.mp numbered
  rw [← h.symbols]
  exact ⟨_, Selector.aggregateType_eq_ok.mpr ⟨type, h.catalog.typeId known, rfl, rfl⟩,
    h.withSymbols _⟩

/-- The preparation depends on a direction of the operation and on the number of a type. -/
theorem prepareSlot {operation prepare : Instruction} (h : s.WidensTo t)
    (prepared : s.prepareSlot operation slot temp = (s', .ok prepare)) :
    ∃ t', t.prepareSlot operation slot temp = (t', .ok prepare) ∧ s'.WidensTo t' := by
  rcases Selector.prepareSlot_eq_ok.mp prepared with
    ⟨reads, rfl, loaded⟩ | ⟨overwrites, type, numbered, built⟩
  · exact ⟨t, Selector.prepareSlot_eq_ok.mpr (.inl ⟨reads, rfl, h.loadSlot loaded⟩), h⟩
  · obtain ⟨t', numbered', h'⟩ := h.aggregateType numbered
    rw [← h.initType] at numbered'
    exact ⟨t', Selector.prepareSlot_eq_ok.mpr
      (.inr ⟨overwrites, type, numbered', h'.build built⟩), h'⟩

theorem buildGroup {slots : List (Slot × SymbolId)} {group : List Instruction} (h : s.WidensTo t)
    (built : s.buildGroup mnemonic slots = (s', .ok group)) :
    ∃ t', t.buildGroup mnemonic slots = (t', .ok group) ∧ s'.WidensTo t' := by
  cases slots with
  | nil =>
      cases built
      exact ⟨t, rfl, h⟩
  | cons dest others =>
      obtain ⟨operation, writeBack, loads, prepare, fixed, prepared, rfl⟩ := buildGroup_ok built
      obtain ⟨t', prepared', h'⟩ := h.prepareSlot prepared
      refine ⟨t', ?_, h'⟩
      rw [Selector.buildGroup, h.buildFixed fixed]
      dsimp only
      rw [prepared']
      rfl

theorem expand {first : Nat} (h : s.WidensTo t) (k : c.WidensTo d)
    (expanded : s.expand mnemonic c = (s', .ok first)) :
    ∃ t', t.expand mnemonic d = (t', .ok first) ∧ s'.WidensTo t' := by
  obtain ⟨checked, after, group, built, _⟩ := expand_ok expanded
  have checked' : t.checkKeyed d.operands d.keyed = .ok () := by
    rw [k.operands, k.keyed, checkKeyed_eq_of_symbols (h.get c.operands), checked]
  obtain ⟨after', built', h'⟩ := (h.withTemporaries k).buildGroup built
  rw [expand_eq checked, built] at expanded
  rw [expand_eq checked', k.slots, h.temporariesFor k, built']
  exact h'.emit group expanded

theorem resolve {first : Nat} (h : s.WidensTo t) (k : c.WidensTo d)
    (resolved : s.resolve mnemonic c = (s', .ok first)) :
    ∃ t', t.resolve mnemonic d = (t', .ok first) ∧ s'.WidensTo t' := by
  unfold Selector.resolve at resolved ⊢
  rw [k.keyed]
  by_cases keys : 2 ≤ c.keyed.count
  · rw [if_pos keys] at resolved ⊢
    exact h.expand k resolved
  · rw [if_neg keys] at resolved ⊢
    split at resolved
    · cases resolved
    · rename_i i built
      rw [k.operands, h.build built]
      exact h.emit [i] resolved

theorem resolveSlots {slots : List Slot} {first : Nat} (h : s.WidensTo t)
    (resolved : s.resolveSlots mnemonic slots = (s', .ok first)) :
    ∃ t', t.resolveSlots mnemonic slots = (t', .ok first) ∧ s'.WidensTo t' := by
  obtain ⟨c, filled, resolved⟩ := Selector.resolveSlots_eq_ok.mp resolved
  obtain ⟨d, filled', k⟩ := h.context.fill filled
  obtain ⟨t', resolved', h'⟩ := h.resolve k resolved
  exact ⟨t', Selector.resolveSlots_eq_ok.mpr ⟨d, filled', resolved'⟩, h'⟩

theorem one (h : s.WidensTo t) : ∃ t', t.one = (t', s.one.2) ∧ s.one.1.WidensTo t' := by
  refine ⟨_, ?_, h.withSymbols _⟩
  rw [Selector.one, h.symbols]
  rfl

theorem fetchIndexed {dest container key : SymbolId} {first : Nat} (h : s.WidensTo t)
    (fetched : s.fetchIndexed dest container key = (s', .ok first)) :
    ∃ t', t.fetchIndexed dest container key = (t', .ok first) ∧ s'.WidensTo t' := by
  unfold Selector.fetchIndexed at fetched ⊢
  rw [h.classOf, h.classOf, h.classOf]
  split at fetched
  · obtain ⟨t', one, h'⟩ := h.one
    rw [one]
    exact h'.resolveSlots fetched
  · exact h.resolveSlots fetched

theorem storeIndexed {container key value : SymbolId} {first : Nat} (h : s.WidensTo t)
    (stored : s.storeIndexed container key value = (s', .ok first)) :
    ∃ t', t.storeIndexed container key value = (t', .ok first) ∧ s'.WidensTo t' := by
  unfold Selector.storeIndexed at stored ⊢
  rw [h.classOf, h.classOf, h.classOf]
  split at stored
  · obtain ⟨t', one, h'⟩ := h.one
    rw [one]
    exact h'.resolveSlots stored
  · exact h.resolveSlots stored
  · cases stored

theorem label {name : String} {first : Nat} (h : s.WidensTo t)
    (labelled : s.label name = (s', .ok first)) :
    ∃ t', t.label name = (t', .ok first) ∧ s'.WidensTo t' := by
  unfold Selector.label at labelled ⊢
  rw [h.symbols]
  split at labelled
  · cases labelled
  · rename_i table id placed
    exact (h.withSymbols table).emit _ labelled

end WidensTo
end Selector
end OpSelect
