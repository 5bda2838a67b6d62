import OpSelect.Proofs.Selector.Emission

/-!
A refused request leaves the selector as it was. An expansion may have taken temporaries and
interned the number of the initial type before it is refused, at any of its instructions.
Whatever it added stands at the end of the arena, where `truncate` removes it.
-/

namespace OpSelect.Selector

variable {s t : Selector} {mnemonic : String} {context : Context} {fault : Fault}

/-- `t` is `s` with symbols added to the table. No label is defined on the way. -/
def Extends (s t : Selector) : Prop :=
  ∃ symbols, t = { s with symbols } ∧ s.symbols.Grows symbols ∧
    symbols.definedLabels = s.symbols.definedLabels

theorem Extends.refl (s : Selector) : s.Extends s := ⟨s.symbols, rfl, .refl, rfl⟩

theorem extends_constant (s : Selector) (text : String) (cls : ValueClass) :
    s.Extends { s with symbols := (s.symbols.constant text cls).1 } := by
  rcases s.symbols.constant_cases text cls with ⟨id, _, eq⟩ | ⟨fresh, eq⟩
  · rw [eq]
    exact .refl s
  · rw [eq]
    exact ⟨_, rfl, .single (.constant text cls fresh), rfl⟩

theorem extends_aggregateType (s : Selector) (name : String) :
    s.Extends (s.aggregateType name).1 := by
  unfold aggregateType
  cases s.catalog.typeId name with
  | none => exact .refl s
  | some type => exact extends_constant s (toString type) .integer

theorem extends_prepareSlot (s : Selector) (operation : Instruction) (slot : Slot)
    (temp : SymbolId) : s.Extends (s.prepareSlot operation slot temp).1 := by
  have type := extends_aggregateType s s.config.initType
  unfold prepareSlot
  split
  · exact .refl s
  · cases known : s.aggregateType s.config.initType with
    | mk t result =>
        rw [known] at type
        cases result with
        | error fault | ok id => exact type

theorem extends_buildGroup (s : Selector) (mnemonic : String) (slots : List (Slot × SymbolId)) :
    s.Extends (s.buildGroup mnemonic slots).1 := by
  cases slots with
  | nil => exact .refl s
  | cons first others =>
      cases fixed : s.buildFixed mnemonic first others with
      | error fault =>
          rw [buildGroup, fixed]
          exact .refl s
      | ok parts =>
          rw [buildGroup, fixed]
          exact extends_prepareSlot s parts.1 first.1 first.2

theorem extends_of_buildGroup {slots : List (Slot × SymbolId)} {group : List Instruction}
    (h : s.buildGroup mnemonic slots = (t, .ok group)) : s.Extends t := by
  have grown := extends_buildGroup s mnemonic slots
  rwa [h] at grown

theorem aggregateType_refused {name : String} (h : (s.aggregateType name).2 = .error fault) :
    (s.aggregateType name).1 = s := by
  unfold aggregateType at h ⊢
  cases known : s.catalog.typeId name with
  | none => rfl
  | some type => simp [known] at h

theorem label_refused {name : String} (wf : s.symbols.WellFormed)
    (h : (s.label name).2 = .error fault) : (s.label name).1 = s := by
  unfold label at h ⊢
  rcases SymbolTable.placeLabel_cases wf name with ⟨e, refused⟩ | ⟨u, id, placed, _⟩
  · rw [refused]
  · simp [placed, emit] at h

/-- What a group adds to the selector with the temporaries is taken back with them. -/
theorem expand_refused (wf : s.symbols.WellFormed)
    (h : (s.expand mnemonic context).2 = .error fault) : (s.expand mnemonic context).1 = s := by
  cases checked : s.checkKeyed context.operands context.keyed with
  | error fault => simp [expand, checked]
  | ok =>
      obtain ⟨symbols, same, grown, labels⟩ := extends_buildGroup (s.withTemporaries context)
        mnemonic (context.slots.zip (s.temporariesFor context))
      obtain ⟨numbers, _, _, _, table, _⟩ :=
        s.symbols.temporaries_eq s.names .aggregate context.slots.length
      have taken : s.symbols.Grows (s.withTemporaries context).symbols :=
        SymbolTable.grows_temporaries ..
      have none : (s.withTemporaries context).symbols.definedLabels = s.symbols.definedLabels :=
        (congrArg SymbolTable.definedLabels table :)
      have undone : symbols.truncate s.symbols.size = s.symbols :=
        SymbolTable.truncate_of_grows wf (taken.trans grown)
          ⟨[], by rw [labels, none, List.append_nil], by simp⟩
      rw [expand_eq checked] at h ⊢
      cases built : (s.withTemporaries context).buildGroup mnemonic
          (context.slots.zip (s.temporariesFor context)) with
      | mk t result =>
          rw [built] at same h
          cases result with
          | ok group => simp [emit] at h
          | error fault =>
              cases same
              simp only [undone]
              rfl

theorem resolve_refused (wf : s.symbols.WellFormed)
    (h : (s.resolve mnemonic context).2 = .error fault) :
    (s.resolve mnemonic context).1 = s := by
  unfold resolve at h ⊢
  split at h
  · rename_i keys
    rw [if_pos keys]
    exact expand_refused wf h
  · rename_i keys
    rw [if_neg keys]
    cases built : s.build mnemonic context.operands context.keyed with
    | error fault => rfl
    | ok instruction => simp [built, emit] at h

theorem resolveSlots_refused {slots : List Slot} (wf : s.symbols.WellFormed)
    (h : (s.resolveSlots mnemonic slots).2 = .error fault) :
    (s.resolveSlots mnemonic slots).1 = s := by
  unfold resolveSlots at h ⊢
  cases filled : s.context.fill slots with
  | error fault => rfl
  | ok context =>
      rw [filled] at h
      exact resolve_refused wf h

/-- `t` is `s` with the integer constant one, which `s` did not have. -/
def GainsOne (s t : Selector) : Prop :=
  (∀ entry ∈ s.symbols.constants, entry.1 ≠ ("1", .integer)) ∧
    t = { s with
      symbols := { s.symbols with
        symbols := s.symbols.symbols ++ [⟨"1", .integer, .constant⟩]
        constants := s.symbols.constants ++ [(("1", .integer), s.symbols.size)] } }

theorem one_cases (s : Selector) : s.one.1 = s ∨ s.GainsOne s.one.1 := by
  unfold one
  rcases s.symbols.constant_cases "1" .integer with ⟨id, _, eq⟩ | ⟨fresh, eq⟩
  · rw [eq]
    exact .inl rfl
  · rw [eq]
    exact .inr ⟨fresh, rfl⟩

theorem Indexes.gainsOne {ids : List SymbolId} {answer : Selector × Except Fault Nat}
    (h : s.Indexes ids answer) (wf : s.symbols.WellFormed) (failed : answer.2 = .error fault) :
    answer.1 = s ∨ s.GainsOne answer.1 := by
  cases h with
  | element mnemonic slots => exact .inl (resolveSlots_refused wf failed)
  | character mnemonic slots =>
      rw [resolveSlots_refused (wf.grows s.grows_one) failed]
      exact one_cases s
  | refused error => exact .inl rfl

theorem fetchIndexed_refused {dest container key : SymbolId} (wf : s.symbols.WellFormed)
    (h : (s.fetchIndexed dest container key).2 = .error fault) :
    (s.fetchIndexed dest container key).1 = s ∨
      s.GainsOne (s.fetchIndexed dest container key).1 :=
  (s.indexes_fetch dest container key).gainsOne wf h

theorem storeIndexed_refused {container key value : SymbolId} (wf : s.symbols.WellFormed)
    (h : (s.storeIndexed container key value).2 = .error fault) :
    (s.storeIndexed container key value).1 = s ∨
      s.GainsOne (s.storeIndexed container key value).1 :=
  (s.indexes_store container key value).gainsOne wf h

/-- Every refused request leaves the catalog, the settings, the symbol table, the supply of
names and the instructions as they were. Only an indexed assignment may leave the constant
one behind. -/
theorem refusal_keeps_selector (s : Selector) (wf : s.symbols.WellFormed) (fault : Fault) :
    (∀ mnemonic context, (s.resolve mnemonic context).2 = .error fault →
      (s.resolve mnemonic context).1 = s) ∧
    (∀ name, (s.label name).2 = .error fault → (s.label name).1 = s) ∧
    (∀ name, (s.aggregateType name).2 = .error fault → (s.aggregateType name).1 = s) ∧
    (∀ dest container key, (s.fetchIndexed dest container key).2 = .error fault →
      (s.fetchIndexed dest container key).1 = s ∨
        s.GainsOne (s.fetchIndexed dest container key).1) ∧
    (∀ container key value, (s.storeIndexed container key value).2 = .error fault →
      (s.storeIndexed container key value).1 = s ∨
        s.GainsOne (s.storeIndexed container key value).1) :=
  ⟨fun _ _ => resolve_refused wf, fun _ => label_refused wf, fun _ => aggregateType_refused,
    fun _ _ _ => fetchIndexed_refused wf, fun _ _ _ => storeIndexed_refused wf⟩

/-- The sample with a string, and without the operation that makes aggregates. -/
def bareSample : Selector where
  catalog := { sampleCatalog with
    entries := sampleCatalog.entries.filter fun entry => entry.mnemonic ≠ "new" }
  config := { initType := "Hash" }
  symbols := (sample.symbols.pushNamed ⟨"s", .string, .var⟩).1

/-- The group fails at its `new`, when the temporaries and the type's number are there. The
fetch from a string fails when the constant one is. -/
theorem refusal_keeps_selector_new :
    bareSample.symbols.WellFormed ∧
      (bareSample.resolve "mul" sampleContext).2 = .error
        (.rejected (.unresolvedOpcode "new" [.register .aggregate, .constant .integer])) ∧
      (bareSample.resolve "mul" sampleContext).1 = bareSample ∧
      bareSample.GainsOne (bareSample.fetchIndexed 4 4 2).1 := by
  have wf : bareSample.symbols.WellFormed := by decide +kernel
  have refused : (bareSample.resolve "mul" sampleContext).2 = .error
      (.rejected (.unresolvedOpcode "new" [.register .aggregate, .constant .integer])) := by
    decide +kernel
  have fetch : (bareSample.fetchIndexed 4 4 2).2 = .error (.rejected (.unresolvedOpcode "substr"
      [.register .string, .register .string, .constant .integer, .constant .integer])) := by
    decide +kernel
  have grown : (bareSample.fetchIndexed 4 4 2).1 ≠ bareSample := by decide +kernel
  obtain ⟨_, _, _, fetched, _⟩ := refusal_keeps_selector bareSample wf _
  exact ⟨wf, refused, (refusal_keeps_selector bareSample wf _).1 _ _ refused,
    (fetched 4 4 2 fetch).resolve_left grown⟩

end OpSelect.Selector
