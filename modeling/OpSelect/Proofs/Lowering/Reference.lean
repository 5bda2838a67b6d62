import OpSelect.Proofs.Lowering.Statement
import OpSelect.Proofs.Selector.Quiet

/-!
References to labels. A statement can mention a label as the target of a jump, or as a word in
an operand or a key. `Tracks` says what the state of lowering holds once some references were
met and some labels defined: which labels are noted, at which of their references, which of
them still lack a definition, and which have a label instruction.
-/

namespace OpSelect

/-- A place in the text that may mention a label. The target of a jump always does; a word does
if it is not declared. -/
structure Reference where
  name : String
  span : Span
  isTarget : Bool := false
deriving DecidableEq, Repr

namespace Reference

variable {refs : List Reference} {r : Reference} {name : String}

/-- The first reference under each name, in the order of the text. -/
def firsts : List Reference → List Reference
  | [] => []
  | r :: refs => r :: (firsts refs).filter (·.name ≠ r.name)

theorem mem_of_mem_firsts (h : r ∈ firsts refs) : r ∈ refs := by
  induction refs with
  | nil => exact h
  | cons q refs ih =>
      cases List.mem_cons.mp h with
      | inl same => exact same ▸ List.mem_cons_self
      | inr later => exact List.mem_cons_of_mem _ (ih (List.mem_filter.mp later).1)

theorem exists_first (h : name ∈ refs.map Reference.name) :
    ∃ r ∈ firsts refs, r.name = name := by
  induction refs with
  | nil => exact absurd h List.not_mem_nil
  | cons q refs ih =>
      by_cases same : q.name = name
      · exact ⟨q, List.mem_cons_self, same⟩
      · have later : name ∈ refs.map Reference.name :=
          (List.mem_cons.mp h).resolve_left (Ne.symm same)
        obtain ⟨r, mem, rfl⟩ := ih later
        have kept : r ∈ (firsts refs).filter (·.name ≠ q.name) :=
          List.mem_filter.mpr ⟨mem, by simpa using Ne.symm same⟩
        exact ⟨r, List.mem_cons_of_mem _ kept, rfl⟩

theorem nodup_firsts (refs : List Reference) : ((firsts refs).map Reference.name).Nodup := by
  induction refs with
  | nil => exact List.nodup_nil
  | cons q refs ih =>
      refine List.nodup_cons.mpr ⟨?_, ih.sublist (List.filter_sublist.map _)⟩
      intro mem
      obtain ⟨r, kept, same⟩ := List.mem_map.mp mem
      exact absurd same (by simpa using (List.mem_filter.mp kept).2)

theorem firsts_append_new (h : r.name ∉ refs.map Reference.name) :
    firsts (refs ++ [r]) = firsts refs ++ [r] := by
  induction refs with
  | nil => rfl
  | cons q refs ih =>
      have apart : r.name ≠ q.name := fun same => h (same ▸ List.mem_cons_self)
      have later : r.name ∉ refs.map Reference.name := fun mem => h (List.mem_cons_of_mem _ mem)
      rw [List.cons_append, firsts, ih later, firsts, List.filter_append]
      simp [apart]

/-- A reference under a name that was met before changes nothing. -/
theorem firsts_append_old (h : r.name ∈ refs.map Reference.name) :
    firsts (refs ++ [r]) = firsts refs := by
  induction refs with
  | nil => exact absurd h List.not_mem_nil
  | cons q refs ih =>
      by_cases later : r.name ∈ refs.map Reference.name
      · rw [List.cons_append, firsts, ih later, firsts]
      · have same : r.name = q.name := (List.mem_cons.mp h).resolve_right later
        rw [List.cons_append, firsts, firsts_append_new later, firsts, List.filter_append]
        simp [same]

end Reference

namespace SymbolTable

variable {t u : SymbolTable} {refs : List Reference} {r : Reference} {name : String}
  {id : SymbolId}

/-- The label that a name leads to. -/
def labelId (t : SymbolTable) (name : String) : Option SymbolId :=
  (t.lookup name).filter fun id => (t.get id).kind == .address

theorem labelId_eq_some :
    t.labelId name = some id ↔ t.lookup name = some id ∧ (t.get id).kind = .address := by
  rw [labelId, Option.filter_eq_some_iff, beq_iff_eq]

theorem labelId_grows (wf : t.WellFormed) (grown : t.Grows u) (known : t.lookup name = some id) :
    u.labelId name = t.labelId name := by
  rw [labelId, labelId, grown.lookup known, known, Option.filter_some, Option.filter_some,
    grown.get (wf.lt_of_lookup known)]

/-- The first references that mention labels, each with its label. -/
def marks (t : SymbolTable) (refs : List Reference) : List (Reference × SymbolId) :=
  (Reference.firsts refs).filterMap fun r => (t.labelId r.name).map fun id => (r, id)

theorem mem_marks :
    (r, id) ∈ t.marks refs ↔ r ∈ Reference.firsts refs ∧ t.labelId r.name = some id := by
  simp [marks]

theorem marks_congr (same : ∀ r ∈ refs, u.labelId r.name = t.labelId r.name) :
    u.marks refs = t.marks refs := by
  refine List.filterMap_congr fun r mem => ?_
  rw [same r (Reference.mem_of_mem_firsts mem)]

theorem marks_append_old (h : r.name ∈ refs.map Reference.name) :
    t.marks (refs ++ [r]) = t.marks refs := by
  rw [marks, Reference.firsts_append_old h, marks]

theorem marks_append_value (h : t.labelId r.name = none) :
    t.marks (refs ++ [r]) = t.marks refs := by
  by_cases met : r.name ∈ refs.map Reference.name
  · exact marks_append_old met
  · rw [marks, Reference.firsts_append_new met, List.filterMap_append, marks]
    simp [h]

theorem marks_append_label (new : r.name ∉ refs.map Reference.name)
    (leads : t.labelId r.name = some id) : t.marks (refs ++ [r]) = t.marks refs ++ [(r, id)] := by
  rw [marks, Reference.firsts_append_new new, List.filterMap_append, marks]
  simp [leads]

theorem mem_undefinedLabels :
    (name, id) ∈ t.undefinedLabels ↔
      (name, id) ∈ t.names ∧ (t.get id).kind = .address ∧ id ∉ t.definedLabels := by
  simp [undefinedLabels, isDefinedLabel]

/-- Growth that defines no label leaves the old names as they are. -/
theorem undefinedLabels_old (wf : t.WellFormed) (grown : t.Grows u)
    (labels : u.definedLabels = t.definedLabels) :
    t.names.filter (fun (_, id) => (u.get id).kind == .address && !u.isDefinedLabel id) =
      t.undefinedLabels := by
  refine List.filter_congr ?_
  rintro ⟨name, id⟩ mem
  dsimp only
  rw [grown.get (wf.named _ mem).1, isDefinedLabel, isDefinedLabel, labels]

theorem Quiet.undefinedLabels_eq (h : t.Quiet u) (wf : t.WellFormed) :
    u.undefinedLabels = t.undefinedLabels := by
  obtain ⟨added, names, new⟩ := h.grows.names
  have dropped : added.filter
      (fun (_, id) => (u.get id).kind == .address && !u.isDefinedLabel id) = [] := by
    refine List.filter_eq_nil_iff.mpr ?_
    rintro ⟨name, id⟩ mem
    have below := ((wf.grows h.grows).named (name, id) (by simp [names, mem])).1
    simp [h.values id (new _ mem) below]
  rw [undefinedLabels, names, List.filter_append, undefinedLabels_old wf h.grows h.labels, dropped,
    List.append_nil]

/-- A new address is mentioned and not defined. -/
theorem undefinedLabels_pushNamed (wf : t.WellFormed) (fresh : t.lookup name = none) :
    (t.pushNamed ⟨name, .integer, .address⟩).1.undefinedLabels =
      t.undefinedLabels ++ [(name, t.size)] := by
  have grown : t.Grows (t.pushNamed ⟨name, .integer, .address⟩).1 :=
    grows_pushNamed fresh (by simp) (by simp [Symbol.NameFits])
  have names : (t.pushNamed ⟨name, .integer, .address⟩).1.names = t.names ++ [(name, t.size)] := rfl
  have undefined : t.size ∉ t.definedLabels :=
    fun mem => Nat.lt_irrefl _ (wf.labels _ mem).1
  rw [undefinedLabels, names, List.filter_append, undefinedLabels_old wf grown rfl,
    List.filter_cons_of_pos, List.filter_nil]
  dsimp only
  rw [get_pushNamed]
  simp [isDefinedLabel, pushNamed_eq, undefined]

/-- The definition of a label takes it from the undefined ones. -/
theorem undefinedLabels_define (t : SymbolTable) (id : SymbolId) :
    ({ t with definedLabels := t.definedLabels ++ [id] } : SymbolTable).undefinedLabels =
      t.undefinedLabels.filter (·.2 ≠ id) := by
  rw [undefinedLabels, undefinedLabels, List.filter_filter]
  refine List.filter_congr ?_
  rintro ⟨name, other⟩ _
  grind [isDefinedLabel, get]

theorem placeLabel_ok (h : t.placeLabel name = (u, .ok id)) :
    ∃ a, t.address name = .ok (a, id) ∧ id ∉ a.definedLabels ∧
      u = { a with definedLabels := a.definedLabels ++ [id] } := by
  unfold placeLabel at h
  cases found : t.address name with
  | error e => simp [found] at h
  | ok result =>
      rw [found] at h
      dsimp only at h
      split at h
      · cases h
      · rename_i undefined
        cases h
        exact ⟨result.1, rfl, by simpa [isDefinedLabel] using undefined, rfl⟩

/-- Nothing else is taken from the undefined labels, and no other label joins them. -/
theorem placeLabel_undefinedLabels (wf : t.WellFormed) (h : t.placeLabel name = (u, .ok id)) :
    u.definedLabels = t.definedLabels ++ [id] ∧
      u.undefinedLabels = t.undefinedLabels.filter (·.2 ≠ id) := by
  obtain ⟨a, found, _, rfl⟩ := placeLabel_ok h
  rw [undefinedLabels_define]
  rcases address_cases found with ⟨rfl, _, _⟩ | ⟨fresh, pushed⟩
  · exact ⟨rfl, rfl⟩
  · obtain rfl : _ = a := congrArg Prod.fst pushed
    obtain rfl : t.size = id := congrArg Prod.snd pushed
    refine ⟨rfl, ?_⟩
    rw [undefinedLabels_pushNamed wf fresh, List.filter_append]
    simp

end SymbolTable

namespace Lowering

variable {σ τ : Lowering} {refs : List Reference} {defs : List String} {r : Reference}
  {name : String} {span : Span} {id : SymbolId}

theorem note_old (h : id ∈ σ.labelRefs.map Prod.fst) : σ.note id span = σ := by
  obtain ⟨entry, mem, same⟩ := List.mem_map.mp h
  exact if_pos (List.any_eq_true.mpr ⟨entry, mem, by simpa using same⟩)

theorem note_new (h : id ∉ σ.labelRefs.map Prod.fst) :
    σ.note id span = { σ with labelRefs := σ.labelRefs ++ [(id, span)] } := by
  refine if_neg fun noted => h ?_
  obtain ⟨entry, mem, same⟩ := List.any_eq_true.mp noted
  exact List.mem_map.mpr ⟨entry, mem, by simpa using same⟩

/-- After the references `refs` and the definitions of `defs`: all names are known, the labels
among them are noted at their first reference, those without a definition are listed in this
order, and those with one have a label instruction each. -/
structure Tracks (refs : List Reference) (defs : List String) (σ : Lowering) : Prop where
  wf : σ.selector.symbols.WellFormed
  known : ∀ r ∈ refs, ∃ id, σ.selector.symbols.lookup r.name = some id ∧
    (r.isTarget = true → (σ.selector.symbols.get id).kind = .address)
  noted : σ.labelRefs = (σ.selector.symbols.marks refs).map fun (r, id) => (id, r.span)
  undefined : σ.selector.symbols.undefinedLabels =
    ((σ.selector.symbols.marks refs).filter fun (_, id) =>
      !σ.selector.symbols.isDefinedLabel id).map fun (r, id) => (r.name, id)
  defined : σ.selector.symbols.definedLabels.map (fun id => (σ.selector.symbols.get id).name) = defs
  placed : σ.selector.instructions.filter Instruction.isLabel =
    σ.selector.symbols.definedLabels.map fun id =>
      .label (σ.selector.symbols.get id).name id

namespace Tracks

/-- What is known stays known in a grown table. -/
theorem known_grows (h : Tracks refs defs σ) {u : SymbolTable}
    (grown : σ.selector.symbols.Grows u) :
    ∀ r ∈ refs, ∃ id, u.lookup r.name = some id ∧
      (r.isTarget = true → (u.get id).kind = .address) := by
  intro r mem
  obtain ⟨id, leads, target⟩ := h.known r mem
  refine ⟨id, grown.lookup leads, ?_⟩
  rw [grown.get (h.wf.lt_of_lookup leads)]
  exact target

theorem marks_grows (h : Tracks refs defs σ) {u : SymbolTable}
    (grown : σ.selector.symbols.Grows u) : u.marks refs = σ.selector.symbols.marks refs := by
  refine SymbolTable.marks_congr fun r mem => ?_
  obtain ⟨id, leads, _⟩ := h.known r mem
  exact SymbolTable.labelId_grows h.wf grown leads

/-- The names of the defined labels stay in a grown table. -/
theorem map_definedLabels {α : Type} (h : Tracks refs defs σ) {u : SymbolTable}
    (grown : σ.selector.symbols.Grows u) (f : String → SymbolId → α) :
    σ.selector.symbols.definedLabels.map (fun id => f (u.get id).name id) =
      σ.selector.symbols.definedLabels.map fun id => f (σ.selector.symbols.get id).name id := by
  refine List.map_congr_left fun id mem => ?_
  rw [grown.get (h.wf.labels id mem).1]

theorem quiet (h : Tracks refs defs σ) (quiet : σ.selector.Quiet τ.selector)
    (same : τ.labelRefs = σ.labelRefs) : Tracks refs defs τ := by
  have grown := quiet.table.grows
  have labels := quiet.table.labels
  refine ⟨h.wf.grows grown, h.known_grows grown, ?_, ?_, ?_, ?_⟩
  · rw [same, h.noted, h.marks_grows grown]
  · rw [quiet.table.undefinedLabels_eq h.wf, h.undefined, h.marks_grows grown]
    simp only [SymbolTable.isDefinedLabel, labels]
  · rw [labels, h.map_definedLabels grown fun name _ => name]
    exact h.defined
  · rw [quiet.labels, labels, h.map_definedLabels grown Instruction.label]
    exact h.placed

theorem known_append (h : Tracks refs defs σ)
    (last : ∃ id, σ.selector.symbols.lookup r.name = some id ∧
      (r.isTarget = true → (σ.selector.symbols.get id).kind = .address)) :
    ∀ q ∈ refs ++ [r], ∃ id, σ.selector.symbols.lookup q.name = some id ∧
      (q.isTarget = true → (σ.selector.symbols.get id).kind = .address) :=
  List.forall_mem_append.mpr ⟨h.known, List.forall_mem_singleton.mpr last⟩

/-- A declared word is no mention of a label. -/
theorem declared (h : Tracks refs defs σ) (leads : σ.selector.symbols.lookup r.name = some id)
    (value : (σ.selector.symbols.get id).kind ≠ .address) (word : r.isTarget = false) :
    Tracks (refs ++ [r]) defs σ := by
  have none : σ.selector.symbols.labelId r.name = none := by
    rw [SymbolTable.labelId, leads, Option.filter_some]
    simp [value]
  have same : σ.selector.symbols.marks (refs ++ [r]) = σ.selector.symbols.marks refs :=
    SymbolTable.marks_append_value none
  refine ⟨h.wf, h.known_append ⟨id, leads, ?_⟩, ?_, ?_, h.defined, h.placed⟩
  · simp [word]
  · rw [same]
    exact h.noted
  · rw [same]
    exact h.undefined

theorem mem_labelRefs (h : Tracks refs defs σ) :
    id ∈ σ.labelRefs.map Prod.fst ↔ ∃ r, (r, id) ∈ σ.selector.symbols.marks refs := by
  rw [h.noted, List.map_map, List.mem_map]
  constructor
  · rintro ⟨⟨r, other⟩, mem, rfl⟩
    exact ⟨r, mem⟩
  · rintro ⟨r, mem⟩
    exact ⟨(r, id), mem, rfl⟩

/-- A label that is noted was met under its name. -/
theorem met_iff (h : Tracks refs defs σ) (leads : σ.selector.symbols.labelId name = some id) :
    id ∈ σ.labelRefs.map Prod.fst ↔ name ∈ refs.map Reference.name := by
  rw [h.mem_labelRefs]
  constructor
  · rintro ⟨r, mem⟩
    obtain ⟨first, isLabel⟩ := SymbolTable.mem_marks.mp mem
    have same : r.name = name :=
      (h.wf.name_of_lookup (SymbolTable.labelId_eq_some.mp isLabel).1).symm.trans
        (h.wf.name_of_lookup (SymbolTable.labelId_eq_some.mp leads).1)
    exact same ▸ List.mem_map_of_mem (Reference.mem_of_mem_firsts first)
  · intro met
    obtain ⟨r, first, rfl⟩ := Reference.exists_first met
    exact ⟨r, SymbolTable.mem_marks.mpr ⟨first, leads⟩⟩

/-- A label that was not met is defined: otherwise it would be among the undefined ones, and
these were all met. -/
theorem defined_of_not_met (h : Tracks refs defs σ)
    (leads : σ.selector.symbols.labelId name = some id)
    (new : name ∉ refs.map Reference.name) : id ∈ σ.selector.symbols.definedLabels := by
  obtain ⟨found, isLabel⟩ := SymbolTable.labelId_eq_some.mp leads
  by_contra undefined
  have listed : (name, id) ∈ σ.selector.symbols.undefinedLabels :=
    SymbolTable.mem_undefinedLabels.mpr ⟨SymbolTable.mem_of_lookup found, isLabel, undefined⟩
  rw [h.undefined] at listed
  obtain ⟨⟨r, other⟩, mem, same⟩ := List.mem_map.mp listed
  obtain ⟨rfl, rfl⟩ := Prod.mk.inj same
  have first := (SymbolTable.mem_marks.mp (List.mem_filter.mp mem).1).1
  exact new (List.mem_map_of_mem (Reference.mem_of_mem_firsts first))

/-- A reference to a label that is in the table. -/
theorem refer_old (h : Tracks refs defs σ) (leads : σ.selector.symbols.labelId r.name = some id) :
    Tracks (refs ++ [r]) defs (σ.note id r.span) := by
  obtain ⟨found, isLabel⟩ := SymbolTable.labelId_eq_some.mp leads
  have known := h.known_append ⟨id, found, fun _ => isLabel⟩
  by_cases met : r.name ∈ refs.map Reference.name
  · rw [note_old ((h.met_iff leads).mpr met)]
    have same := σ.selector.symbols.marks_append_old met
    refine ⟨h.wf, known, ?_, ?_, h.defined, h.placed⟩
    · rw [same]
      exact h.noted
    · rw [same]
      exact h.undefined
  · rw [note_new fun noted => met ((h.met_iff leads).mp noted)]
    have more := SymbolTable.marks_append_label met leads
    -- the label was defined before its first reference, so it joins no undefined ones
    have isDefined := h.defined_of_not_met leads met
    refine ⟨h.wf, known, ?_, ?_, h.defined, h.placed⟩
    · dsimp only
      rw [more, List.map_append, h.noted]
      rfl
    · dsimp only
      rw [more, List.filter_append, List.map_append, h.undefined]
      simp [SymbolTable.isDefinedLabel, isDefined]

theorem not_met_of_fresh (h : Tracks refs defs σ)
    (fresh : σ.selector.symbols.lookup name = none) : name ∉ refs.map Reference.name := by
  intro met
  obtain ⟨q, mem, rfl⟩ := List.mem_map.mp met
  obtain ⟨id, known, _⟩ := h.known q mem
  rw [fresh] at known
  cases known

theorem size_not_noted (h : Tracks refs defs σ) :
    σ.selector.symbols.size ∉ σ.labelRefs.map Prod.fst := by
  intro noted
  obtain ⟨q, mem⟩ := h.mem_labelRefs.mp noted
  have old := (SymbolTable.labelId_eq_some.mp (SymbolTable.mem_marks.mp mem).2).1
  exact Nat.lt_irrefl _ (h.wf.lt_of_lookup old)

/-- A reference to a label that is not in the table yet. -/
theorem refer_new (h : Tracks refs defs σ) (fresh : σ.selector.symbols.lookup r.name = none)
    (table : τ.selector.symbols = (σ.selector.symbols.pushNamed ⟨r.name, .integer, .address⟩).1)
    (instructions : τ.selector.instructions = σ.selector.instructions)
    (noted : τ.labelRefs = σ.labelRefs ++ [(σ.selector.symbols.size, r.span)]) :
    Tracks (refs ++ [r]) defs τ := by
  have grown : σ.selector.symbols.Grows τ.selector.symbols := by
    rw [table]
    exact SymbolTable.grows_pushNamed fresh (by simp) (by simp [Symbol.NameFits])
  have leads : τ.selector.symbols.labelId r.name = some σ.selector.symbols.size := by
    rw [table]
    exact SymbolTable.labelId_eq_some.mpr ⟨SymbolTable.lookup_pushNamed fresh,
      congrArg Symbol.kind SymbolTable.get_pushNamed⟩
  have more := SymbolTable.marks_append_label (h.not_met_of_fresh fresh) leads
  rw [h.marks_grows grown] at more
  have labels : τ.selector.symbols.definedLabels = σ.selector.symbols.definedLabels := by
    rw [table]
    rfl
  have undefined : σ.selector.symbols.size ∉ σ.selector.symbols.definedLabels :=
    fun mem => Nat.lt_irrefl _ (h.wf.labels _ mem).1
  refine ⟨h.wf.grows grown, ?_, ?_, ?_, ?_, ?_⟩
  · refine List.forall_mem_append.mpr ⟨h.known_grows grown, List.forall_mem_singleton.mpr ?_⟩
    obtain ⟨found, isLabel⟩ := SymbolTable.labelId_eq_some.mp leads
    exact ⟨_, found, fun _ => isLabel⟩
  · rw [noted, more, List.map_append, h.noted]
    rfl
  · rw [more, table, SymbolTable.undefinedLabels_pushNamed h.wf fresh, h.undefined,
      List.filter_append, List.map_append, ← table]
    simp [SymbolTable.isDefinedLabel, labels, undefined]
  · rw [labels, h.map_definedLabels grown fun name _ => name]
    exact h.defined
  · rw [instructions, labels, h.map_definedLabels grown Instruction.label]
    exact h.placed

/-- Whether the label is in the table or not, it is noted at its first reference. -/
theorem labelRef (h : Tracks refs defs σ) (ran : (labelRef r.name r.span).run σ = .ok (id, τ)) :
    Tracks (refs ++ [r]) defs τ := by
  obtain ⟨table, found, rfl⟩ := labelRef_eq ran
  rcases SymbolTable.address_cases found with ⟨rfl, leads, isLabel⟩ | ⟨fresh, pushed⟩
  · exact h.refer_old (SymbolTable.labelId_eq_some.mpr ⟨leads, isLabel⟩)
  · obtain rfl : _ = table := congrArg Prod.fst pushed
    obtain rfl : σ.selector.symbols.size = id := congrArg Prod.snd pushed
    rw [note_new]
    · exact h.refer_new fresh rfl rfl rfl
    · exact h.size_not_noted

/-- A label is defined where its instruction is emitted. -/
theorem label (h : Tracks refs defs σ) {selector : Selector} {first : Nat}
    (answer : σ.selector.label name = (selector, .ok first)) :
    Tracks refs (defs ++ [name]) { σ with selector } := by
  unfold Selector.label at answer
  rcases SymbolTable.placeLabel_cases h.wf name with
    ⟨e, refused⟩ | ⟨table, id, placed, grown, leads, _⟩
  · simp [refused] at answer
  · rw [placed] at answer
    cases answer
    obtain ⟨labels, undefined⟩ := SymbolTable.placeLabel_undefinedLabels h.wf placed
    have named : (table.get id).name = name := (h.wf.grows grown).name_of_lookup leads
    refine ⟨h.wf.grows grown, h.known_grows grown, ?_, ?_, ?_, ?_⟩
    · dsimp only
      rw [h.marks_grows grown]
      exact h.noted
    · dsimp only
      rw [undefined, h.undefined, h.marks_grows grown, List.filter_map, List.filter_filter]
      -- of the marks that had no definition, only those of this label get one
      congr 1
      refine List.filter_congr ?_
      rintro ⟨r, other⟩ _
      grind [SymbolTable.isDefinedLabel]
    · dsimp only
      rw [labels, List.map_append, h.map_definedLabels grown fun name _ => name, h.defined,
        List.map_singleton, named]
    · dsimp only
      rw [labels, List.map_append, h.map_definedLabels grown Instruction.label, List.filter_append,
        h.placed, List.map_singleton, named]
      rfl

end Tracks
end Lowering
end OpSelect
