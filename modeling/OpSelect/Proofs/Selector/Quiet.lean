import OpSelect.Proofs.Selector.Justified

/-!
What leaves the labels alone. Constants, variables, registers and keys are no addresses, and
every request of the selector other than a label adds such symbols and instructions only.
-/

namespace OpSelect

namespace SymbolTable

variable {t u v : SymbolTable} {symbol : Symbol} {name : String} {cls : ValueClass}
  {id : SymbolId}

/-- From `t` to `u` no address was added and no label defined. -/
structure Quiet (t u : SymbolTable) : Prop where
  grows : t.Grows u
  labels : u.definedLabels = t.definedLabels
  values : ∀ id, t.size ≤ id → id < u.size → (u.get id).kind ≠ .address

theorem Quiet.refl (t : SymbolTable) : t.Quiet t :=
  ⟨.refl, rfl, fun _ above below => absurd below (Nat.not_lt_of_le above)⟩

theorem Quiet.trans (h : t.Quiet u) (k : u.Quiet v) : t.Quiet v := by
  refine ⟨h.grows.trans k.grows, k.labels.trans h.labels, ?_⟩
  intro id above below
  cases Nat.lt_or_ge id u.size with
  | inl old =>
      rw [k.grows.get old]
      exact h.values id above old
  | inr new => exact k.values id new below

theorem quiet_of_grows (h : t.Grows u) (labels : u.definedLabels = t.definedLabels)
    {more : List Symbol} (symbols : u.symbols = t.symbols ++ more)
    (values : ∀ symbol ∈ more, symbol.kind ≠ .address) : t.Quiet u := by
  refine ⟨h, labels, ?_⟩
  intro id above below
  have inside : id - t.size < more.length := by
    rw [size, symbols, List.length_append] at below
    rw [size] at above ⊢
    omega
  have place : u.get id = more[id - t.size] := by
    rw [get, symbols, List.getD_append_right _ _ _ _ above]
    exact List.getD_eq_getElem _ _ inside
  rw [place]
  exact values _ (List.getElem_mem inside)

theorem quiet_pushNamed (fresh : t.lookup symbol.name = none) (value : symbol.kind ≠ .constant)
    (fits : symbol.NameFits) (noAddress : symbol.kind ≠ .address) :
    t.Quiet (t.pushNamed symbol).1 :=
  quiet_of_grows (grows_pushNamed fresh value fits) rfl rfl
    (List.forall_mem_singleton.mpr noAddress)

theorem quiet_declare (h : t.declare name cls = .ok (u, id)) : t.Quiet u := by
  unfold declare at h
  split at h
  · cases h
  · rename_i free
    have fresh : t.lookup name = none := by simpa [isTaken] using free
    cases h
    exact quiet_pushNamed fresh (by simp) (by simp [Symbol.NameFits]) (by simp)

theorem quiet_mention (value : symbol.kind ≠ .constant) (fits : symbol.NameFits)
    (noAddress : symbol.kind ≠ .address) (h : t.mention symbol = .ok (u, id)) : t.Quiet u := by
  unfold mention at h
  cases found : t.lookup symbol.name with
  | some other =>
      rw [found] at h
      obtain ⟨_, _, same⟩ := map_eq_ok.mp h
      cases same
      exact .refl t
  | none =>
      rw [found] at h
      cases h
      exact quiet_pushNamed found value fits noAddress

theorem quiet_var (h : t.var name cls = .ok (u, id)) : t.Quiet u :=
  quiet_mention (by simp) (by simp [Symbol.NameFits]) (by simp) h

theorem quiet_machineRegister {index : Nat} (h : t.machineRegister cls index = .ok (u, id)) :
    t.Quiet u := by
  refine quiet_mention (by simp) ?_ (by simp) h
  rintro other ⟨⟩
  rfl

theorem quiet_constant (t : SymbolTable) (text : String) (cls : ValueClass) :
    t.Quiet (t.constant text cls).1 := by
  have grown := t.grows_constant text cls
  rcases constant_cases t text cls with ⟨id, _, eq⟩ | ⟨_, eq⟩
  · rw [eq]
    exact .refl t
  · rw [eq] at grown ⊢
    exact quiet_of_grows grown rfl rfl (by simp)

theorem quiet_collapse (chain : KeyChain) (t : SymbolTable) : t.Quiet (chain.collapse t).1 := by
  have grown := grows_collapse chain t
  cases rest : chain.rest with
  | nil =>
      rw [KeyChain.collapse, rest]
      exact .refl t
  | cons second others =>
      rw [KeyChain.collapse, rest] at grown ⊢
      refine quiet_of_grows grown rfl rfl (List.forall_mem_singleton.mpr ?_)
      dsimp only
      split <;> simp

theorem quiet_withRegisters {numbers : List Nat} (grown : t.Grows (t.withRegisters cls numbers)) :
    t.Quiet (t.withRegisters cls numbers) := by
  refine quiet_of_grows grown rfl rfl ?_
  intro symbol mem
  obtain ⟨n, _, rfl⟩ := List.mem_map.mp mem
  simp

end SymbolTable

namespace Selector

variable {s t u : Selector} {mnemonic : String} {context : Context} {first : Nat}
  {i : Instruction}

/-- No address and no label was added. -/
structure Quiet (s t : Selector) : Prop where
  table : s.symbols.Quiet t.symbols
  labels : t.instructions.filter Instruction.isLabel = s.instructions.filter Instruction.isLabel

theorem Quiet.trans (h : s.Quiet t) (k : t.Quiet u) : s.Quiet u :=
  ⟨h.table.trans k.table, k.labels.trans h.labels⟩

theorem classify_ne_label (s : Selector) (entry : OpEntry) (mnemonic : String)
    (operands : List SymbolId) : s.classify entry mnemonic operands ≠ .label := by
  unfold classify
  split
  · split <;> simp
  · split
    · split
      · split <;> simp
      · simp
    · split <;> simp

theorem build_unlabelled {operands : List SymbolId} {keyed : KeyedMask}
    (h : s.build mnemonic operands keyed = .ok i) : i.isLabel = false := by
  obtain ⟨_, entry, _, rfl⟩ := build_eq_ok.mp h
  exact beq_eq_false_iff_ne.mpr (s.classify_ne_label entry mnemonic operands)

theorem loadSlot_unlabelled {slot : Slot} {temp : SymbolId}
    (h : s.loadSlot slot temp = .ok i) : i.isLabel = false := by
  rw [loadSlot_eq] at h
  exact build_unlabelled h

theorem prepareSlot_unlabelled {operation : Instruction} {slot : Slot} {temp : SymbolId}
    (h : s.prepareSlot operation slot temp = (t, .ok i)) : i.isLabel = false := by
  rcases prepareSlot_eq_ok.mp h with ⟨_, _, loaded⟩ | ⟨_, _, _, built⟩
  · exact loadSlot_unlabelled loaded
  · exact build_unlabelled built

theorem buildGroup_unlabelled {slots : List (Slot × SymbolId)} {group : List Instruction}
    (h : s.buildGroup mnemonic slots = (t, .ok group)) : ∀ i ∈ group, i.isLabel = false := by
  cases slots with
  | nil =>
      cases h
      exact fun _ mem => absurd mem List.not_mem_nil
  | cons dest others =>
      intro i mem
      rcases buildGroup_mem h mem with ⟨_, _, loaded⟩ | ⟨_, prepared⟩ | operated | stored
      · exact loadSlot_unlabelled loaded
      · exact prepareSlot_unlabelled prepared
      · exact build_unlabelled operated
      · rw [storeSlot_eq] at stored
        exact build_unlabelled stored

theorem filter_isLabel_append {before group : List Instruction}
    (none : ∀ i ∈ group, i.isLabel = false) :
    (before ++ group).filter Instruction.isLabel = before.filter Instruction.isLabel := by
  have dropped : group.filter Instruction.isLabel = [] :=
    List.filter_eq_nil_iff.mpr fun i mem => by simp [none i mem]
  rw [List.filter_append, dropped, List.append_nil]

theorem expand_labels (h : s.expand mnemonic context = (t, .ok first)) :
    t.instructions.filter Instruction.isLabel = s.instructions.filter Instruction.isLabel := by
  obtain ⟨_, after, group, built, rfl⟩ := expand_ok h
  obtain ⟨symbols, rfl, _⟩ := extends_of_buildGroup built
  exact filter_isLabel_append (buildGroup_unlabelled built)

theorem Prepares.quiet {entry : OpEntry} {dest : Slot} {table grown : SymbolTable}
    {spelling : Spelling} (h : Prepares s entry dest table spelling grown) :
    table.Quiet grown := by
  cases h with
  | load => exact .refl table
  | create type => exact table.quiet_constant (toString type) .integer

theorem resolve_quiet (h : s.resolve mnemonic context = (t, .ok first)) : s.Quiet t := by
  rcases resolve_ok h with ⟨keys, expanded⟩ | ⟨_, i, built, rfl⟩
  · obtain ⟨_, g, expands⟩ := resolve_expands keys (congrArg Prod.snd h)
    rw [h] at expands
    exact ⟨(SymbolTable.quiet_withRegisters expands.grows).trans expands.prepared.quiet,
      expand_labels expanded⟩
  · refine ⟨.refl _, filter_isLabel_append (List.forall_mem_singleton.mpr ?_)⟩
    exact build_unlabelled built

theorem resolveSlots_quiet {slots : List Slot}
    (h : s.resolveSlots mnemonic slots = (t, .ok first)) : s.Quiet t := by
  obtain ⟨context, _, resolved⟩ := resolveSlots_eq_ok.mp h
  exact resolve_quiet resolved

theorem one_quiet (s : Selector) : s.Quiet s.one.1 :=
  ⟨s.symbols.quiet_constant "1" .integer, rfl⟩

theorem Indexes.quiet {ids : List SymbolId} {answer : Selector × Except Fault Nat}
    (h : s.Indexes ids answer) (ok : answer = (t, .ok first)) : s.Quiet t := by
  cases h with
  | element mnemonic slots => exact resolveSlots_quiet ok
  | character mnemonic slots => exact s.one_quiet.trans (resolveSlots_quiet ok)
  | refused error => cases ok

theorem aggregateType_quiet {name : String} {id : SymbolId}
    (h : s.aggregateType name = (t, .ok id)) : s.Quiet t := by
  obtain ⟨_, _, rfl, _⟩ := aggregateType_eq_ok.mp h
  exact ⟨s.symbols.quiet_constant _ _, rfl⟩

end Selector
end OpSelect
