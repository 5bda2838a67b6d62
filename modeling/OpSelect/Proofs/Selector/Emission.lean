import OpSelect.Proofs.Selector.Expansion
import OpSelect.Selector.Indexed

/-!
What an answered request adds to the selector: instructions at the end, whose operands are
symbols that the request's names denote, or new ones. An indexed assignment comes down to one
operation on slots; `Indexes` says so, and whatever is shown about such assignments is read off it.
-/

namespace OpSelect

namespace Slot

theorem operands_load (temp : SymbolId) (slot : Slot) :
    (slot.load temp).operands = temp :: slot.operands := by
  cases slot <;> rfl

theorem operands_store (temp : SymbolId) (slot : Slot) :
    (slot.store temp).operands = slot.operands ++ [temp] := by
  cases slot <;> rfl

end Slot

namespace Context

variable {c d : Context}

theorem append_ok {operand : SymbolId} (h : c.append operand = (d, .ok ())) :
    d.operands = c.operands ++ [operand] := by
  unfold append at h
  split at h <;> cases h
  rfl

theorem appendKeyed_ok {container key : SymbolId}
    (h : c.appendKeyed container key = (d, .ok ())) :
    d.operands = c.operands ++ [container, key] := by
  unfold appendKeyed at h
  split at h
  · cases h
  · rename_i e first
    split at h
    · cases h
    · rename_i f second
      unfold setKeyed at h
      split at h <;> cases h
      rw [append_ok second, append_ok first, List.append_assoc]
      rfl

/-- A filled context holds the operands of the slots after its own. -/
theorem fill_ok {slots : List Slot} (h : c.fill slots = .ok d) :
    d.operands = c.operands ++ slots.flatMap Slot.operands := by
  induction slots generalizing c with
  | nil =>
      cases h
      exact (List.append_nil _).symm
  | cons slot slots ih =>
      unfold fill at h
      split at h
      · cases h
      · rename_i e added
        have held : e.operands = c.operands ++ slot.operands := by
          cases slot with
          | plain operand => exact append_ok added
          | keyed container key => exact appendKeyed_ok added
        rw [ih h, held, List.append_assoc, List.flatMap_cons]

/-- What holds after each slot holds in the end. -/
theorem fill_keeps {P : Context → Prop} {slots : List Slot} (start : P c)
    (step : ∀ slot ∈ slots, ∀ {c d}, P c → c.appendSlot slot = (d, .ok ()) → P d)
    (h : c.fill slots = .ok d) : P d := by
  induction slots generalizing c with
  | nil =>
      cases h
      exact start
  | cons slot slots ih =>
      obtain ⟨first, rest⟩ := List.forall_mem_cons.mp step
      unfold fill at h
      split at h
      · cases h
      · rename_i added
        exact ih (first start added) rest h

end Context

/-- Every symbol of the list is one that the names denote. -/
def SymbolTable.AllDenote (t : SymbolTable) (names : List String) (ids : List SymbolId) : Prop :=
  ∀ id ∈ ids, t.Denotes names id

theorem SymbolTable.AllDenote.grows {t u : SymbolTable} {names : List String}
    {ids : List SymbolId} (h : t.AllDenote names ids) (grown : t.Grows u) :
    u.AllDenote names ids :=
  fun id mem => (h id mem).grows grown

namespace Selector

variable {s t u : Selector} {names others : List String} {mnemonic : String} {context : Context}
  {first : Nat} {ids : List SymbolId}

theorem resolveSlots_eq_ok {slots : List Slot} :
    s.resolveSlots mnemonic slots = (t, .ok first) ↔
      ∃ context, s.context.fill slots = .ok context ∧
        s.resolve mnemonic context = (t, .ok first) := by
  unfold resolveSlots
  cases s.context.fill slots <;> simp

/-- What an assignment that indexes one of the symbols comes to: an operation on slots that
hold them, one that also takes the constant one, or a refusal of their classes. -/
inductive Indexes (s : Selector) (ids : List SymbolId) : Selector × Except Fault Nat → Prop
  | element (mnemonic : String) (slots : List Slot)
      (operands : slots.flatMap Slot.operands ⊆ ids) :
      Indexes s ids (s.resolveSlots mnemonic slots)
  | character (mnemonic : String) (slots : List Slot)
      (operands : slots.flatMap Slot.operands ⊆ s.one.2 :: ids) :
      Indexes s ids (s.one.1.resolveSlots mnemonic slots)
  | refused (error : SelectError) : Indexes s ids (s, .error (.rejected error))

theorem indexes_fetch (s : Selector) (dest container key : SymbolId) :
    s.Indexes [dest, container, key] (s.fetchIndexed dest container key) := by
  unfold fetchIndexed
  split
  · exact .character "substr" [.plain dest, .plain container, .plain key, .plain s.one.2]
      (by simp [Slot.operands])
  · exact .element "set" [.plain dest, .keyed container key] (by simp [Slot.operands])

theorem indexes_store (s : Selector) (container key value : SymbolId) :
    s.Indexes [container, key, value] (s.storeIndexed container key value) := by
  unfold storeIndexed
  split
  · exact .character "substr" [.plain container, .plain key, .plain s.one.2, .plain value]
      (by simp [Slot.operands])
  · exact .element "set" [.keyed container key, .plain value] (by simp [Slot.operands])
  · exact .refused _

theorem grows_one (s : Selector) : s.symbols.Grows s.one.1.symbols :=
  s.symbols.grows_constant "1" .integer

/-- The table with the constant one holds it beside the symbols that were there. -/
theorem valid_one (wf : s.symbols.WellFormed) (valid : ∀ id ∈ ids, id < s.symbols.size) :
    ∀ id ∈ s.one.2 :: ids, id < s.one.1.symbols.size :=
  List.forall_mem_cons.mpr ⟨(SymbolTable.constant_ok wf "1" .integer).1,
    fun id mem => Nat.lt_of_lt_of_le (valid id mem) s.grows_one.size_le⟩

/-- From `s` to `t` instructions over denoted or new symbols were appended. -/
structure Selects (names : List String) (s t : Selector) : Prop where
  grows : s.symbols.Grows t.symbols
  emitted : ∃ group, t.instructions = s.instructions ++ group ∧
    ∀ i ∈ group, ∀ id ∈ i.operands,
      t.symbols.Denotes names id ∨ s.symbols.size ≤ id ∧ id < t.symbols.size

theorem Selects.trans (h : Selects names s t) (k : Selects others t u) :
    Selects (names ++ others) s u := by
  obtain ⟨earlier, first, before⟩ := h.emitted
  obtain ⟨later, second, after⟩ := k.emitted
  refine ⟨h.grows.trans k.grows, earlier ++ later, by rw [second, first, List.append_assoc], ?_⟩
  intro i mem id inside
  cases List.mem_append.mp mem with
  | inl mem =>
      rcases before i mem id inside with denotes | ⟨new, lt⟩
      · exact .inl ((denotes.grows k.grows).mono (List.subset_append_left _ _))
      · exact .inr ⟨new, Nat.lt_of_lt_of_le lt k.grows.size_le⟩
  | inr mem =>
      rcases after i mem id inside with denotes | ⟨new, lt⟩
      · exact .inl (denotes.mono (List.subset_append_right _ _))
      · exact .inr ⟨Nat.le_trans h.grows.size_le new, lt⟩

theorem Selects.mono (h : Selects names s t) (sub : names ⊆ others) : Selects others s t := by
  obtain ⟨group, instructions, operands⟩ := h.emitted
  exact ⟨h.grows, group, instructions, fun i mem id inside =>
    (operands i mem id inside).imp_left fun denotes => denotes.mono sub⟩

theorem Prepares.grows {entry : OpEntry} {dest : Slot} {table grown : SymbolTable}
    {spelling : Spelling} (h : Prepares s entry dest table spelling grown) :
    table.Grows grown := by
  cases h with
  | load => exact .refl
  | create type => exact SymbolTable.grows_constant table (toString type) .integer

theorem Prepares.operands {entry : OpEntry} {dest : Slot} {table grown : SymbolTable}
    {spelling : Spelling} (wf : table.WellFormed)
    (h : Prepares s entry dest table spelling grown) {id : Nat} (mem : id ∈ spelling.operands) :
    id = s.symbols.size ∨ id ∈ dest.operands ∨ grown.Denotes names id := by
  cases h with
  | load =>
      rw [Slot.operands_load] at mem
      exact (List.mem_cons.mp mem).imp_right .inl
  | create type =>
      refine (List.mem_pair.mp mem).imp_right fun same => .inr ?_
      exact same ▸ SymbolTable.denotes_constant wf (toString type) .integer

/-- The operands of an expanded group are its temporaries, those of the context, and the
number of the initial type. -/
theorem Expands.operand_cases {g : Group} {i : Instruction} {id : Nat}
    (h : Expands s mnemonic context t g) (wf : s.symbols.WellFormed) (mem : i ∈ g.instructions)
    (inside : id ∈ i.operands) :
    id ∈ List.range' s.symbols.size context.slots.length ∨ id ∈ context.operands ∨
      t.symbols.Denotes names id := by
  have first : s.symbols.size ∈ List.range' s.symbols.size context.slots.length := by
    rw [h.temporaries_cons]
    exact List.mem_cons_self
  have dest : id ∈ g.dest.operands → id ∈ context.operands := h.mem_operands List.mem_cons_self
  have spelled := List.mem_map_of_mem (f := Instruction.spelling) mem
  have written : id ∈ i.spelling.operands := inside
  generalize i.spelling = spelling at spelled written
  rw [h.spelled] at spelled
  simp only [List.mem_append, List.mem_map, List.mem_cons, List.not_mem_nil, or_false] at spelled
  rcases spelled with ⟨⟨slot, temp⟩, pair, rfl⟩ | rfl | rfl | rfl
  · obtain ⟨isSlot, isTemp⟩ := List.of_mem_zip pair
    rw [Slot.operands_load] at written
    rcases List.mem_cons.mp written with rfl | written
    · rw [h.temporaries_cons]
      exact .inl (List.mem_cons_of_mem _ isTemp)
    · exact .inr (.inl (h.mem_operands (List.mem_cons_of_mem _ isSlot) written))
  · rcases h.prepared.operands (wf.grows h.grows) written with rfl | written | denotes
    · exact .inl first
    · exact .inr (.inl (dest written))
    · exact .inr (.inr denotes)
  · exact .inl written
  · rw [Slot.operands_store] at written
    cases List.mem_append.mp written with
    | inl written => exact .inr (.inl (dest written))
    | inr written => exact .inl (List.mem_singleton.mp written ▸ first)

theorem Expands.selects {g : Group} (h : Expands s mnemonic context t g)
    (wf : s.symbols.WellFormed) (valid : s.symbols.AllDenote names context.operands) :
    Selects names s t := by
  have grown : s.symbols.Grows t.symbols := h.grows.trans h.prepared.grows
  refine ⟨grown, g.instructions, h.instructions, fun i mem id inside => ?_⟩
  rcases h.operand_cases wf mem inside with temp | written | denotes
  · obtain ⟨above, below⟩ := List.mem_range'_1.mp temp
    have room := h.prepared.grows.size_le
    rw [SymbolTable.size_withRegisters, h.length] at room
    exact .inr ⟨above, Nat.lt_of_lt_of_le below room⟩
  · exact .inl ((valid id written).grows grown)
  · exact .inl denotes

theorem resolve_selects (wf : s.symbols.WellFormed)
    (valid : s.symbols.AllDenote names context.operands)
    (h : s.resolve mnemonic context = (t, .ok first)) : Selects names s t := by
  rcases resolve_ok h with ⟨keys, _⟩ | ⟨_, i, built, rfl⟩
  · obtain ⟨_, g, expands⟩ := resolve_expands keys (congrArg Prod.snd h)
    rw [h] at expands
    exact expands.selects wf valid
  · refine ⟨.refl, [i], rfl, fun j mem id inside => ?_⟩
    rw [List.mem_singleton.mp mem] at inside
    have spelled : i.operands = context.operands :=
      congrArg Spelling.operands (build_ok built).1
    exact .inl (valid id (spelled ▸ inside))

theorem resolveSlots_selects {slots : List Slot} (wf : s.symbols.WellFormed)
    (valid : s.symbols.AllDenote names (slots.flatMap Slot.operands))
    (h : s.resolveSlots mnemonic slots = (t, .ok first)) : Selects names s t := by
  obtain ⟨context, filled, resolved⟩ := resolveSlots_eq_ok.mp h
  have operands : context.operands = slots.flatMap Slot.operands := Context.fill_ok filled
  exact resolve_selects wf (operands ▸ valid) resolved

theorem one_selects (s : Selector) : Selects names s s.one.1 :=
  ⟨s.grows_one, [], (List.append_nil _).symm, by simp⟩

theorem Indexes.selects {answer : Selector × Except Fault Nat} (h : s.Indexes ids answer)
    (wf : s.symbols.WellFormed) (valid : s.symbols.AllDenote names ids)
    (ok : answer = (t, .ok first)) : Selects names s t := by
  cases h with
  | element mnemonic slots operands =>
      exact resolveSlots_selects wf (fun id mem => valid id (operands mem)) ok
  | character mnemonic slots operands =>
      have all : s.one.1.symbols.AllDenote names (s.one.2 :: ids) :=
        List.forall_mem_cons.mpr
          ⟨SymbolTable.denotes_constant wf "1" .integer, valid.grows s.grows_one⟩
      have rest : Selects names s.one.1 t :=
        resolveSlots_selects (wf.grows s.grows_one) (fun id mem => all id (operands mem)) ok
      exact ((one_selects s).trans rest).mono (List.append_subset.mpr ⟨.refl names, .refl names⟩)
  | refused error => cases ok

theorem label_selects {name : String} (wf : s.symbols.WellFormed)
    (h : s.label name = (t, .ok first)) :
    Selects [name] s t ∧ ∃ id, t.symbols.lookup name = some id := by
  unfold label at h
  rcases SymbolTable.placeLabel_cases wf name with ⟨e, refused⟩ | ⟨u, id, placed, grown, leads, _⟩
  · simp [refused] at h
  · rw [placed] at h
    cases h
    refine ⟨⟨grown, [.label name id], rfl, fun i mem other inside => ?_⟩, id, leads⟩
    rw [List.mem_singleton.mp mem] at inside
    rw [List.mem_singleton.mp inside]
    exact .inl (.named name (List.mem_singleton.mpr rfl) leads)

end Selector
end OpSelect
