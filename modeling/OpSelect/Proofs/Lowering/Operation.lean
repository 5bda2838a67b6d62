import OpSelect.Proofs.Lowering.Label
import OpSelect.Proofs.Lowering.Compiled
import OpSelect.Proofs.Selector.Built

/-!
The operation that a statement comes to: a mnemonic over slots that stand for what is written.
`Statement.Performs` says this form by form and without the state of lowering; only the finished
table is looked at. Every instruction of a compiled text is part of such an operation, or a label.
-/

namespace OpSelect

theorem Symbol.isConstant_eq_false {s : Symbol} (literal : s.kind ≠ .constant)
    (label : s.kind ≠ .address) : s.isConstant = false := by
  unfold isConstant
  split <;> simp_all

/-- The symbol that two or more keys are joined to. It is constant if all of them are. -/
def Symbol.join (parts : List Symbol) : Symbol :=
  ⟨String.intercalate ";" (parts.map Symbol.displayText), .aggregate,
    if parts.all Symbol.isConstant then .constant else .var⟩

namespace SymbolTable

variable {t u : SymbolTable} {id : SymbolId}

/-- The symbol for an unknown id is a nameless integer variable. -/
theorem lt_of_kind (h : (t.get id).kind ≠ .var) : id < t.size := by
  by_contra outside
  rw [get, List.getD_eq_default _ _ (Nat.le_of_not_lt outside)] at h
  exact h rfl

theorem lt_of_cls (h : (t.get id).cls ≠ .integer) : id < t.size := by
  by_contra outside
  rw [get, List.getD_eq_default _ _ (Nat.le_of_not_lt outside)] at h
  exact h rfl

theorem Grows.symbol {symbol : Symbol} (grown : t.Grows u) (h : t.get id = symbol)
    (known : symbol.kind ≠ .var ∨ symbol.cls ≠ .integer) : u.get id = symbol := by
  subst h
  apply grown.get
  cases known with
  | inl kind => exact lt_of_kind kind
  | inr cls => exact lt_of_cls cls

theorem IsTemporary.grows (h : t.IsTemporary id) (grown : t.Grows u) : u.IsTemporary id := by
  obtain ⟨n, symbol⟩ := h
  exact ⟨n, grown.symbol symbol (.inr (by simp))⟩

/-- The symbol that a chain of two or more keys is joined to. -/
def joined (t : SymbolTable) (ids : List SymbolId) : Symbol := .join (ids.map t.get)

theorem joined_grows (grown : t.Grows u) {ids : List SymbolId} (valid : ∀ id ∈ ids, id < t.size) :
    u.joined ids = t.joined ids := by
  have same : ids.map u.get = ids.map t.get :=
    List.map_congr_left fun id mem => grown.get (valid id mem)
  rw [joined, joined, same]

/-- A mentioned name leads to a value. -/
theorem mention_value {symbol : Symbol} (value : symbol.isConstant = false) (wf : t.WellFormed)
    (h : t.mention symbol = .ok (u, id)) : (u.get id).isConstant = false := by
  unfold mention at h
  cases found : t.lookup symbol.name with
  | none =>
      rw [found] at h
      cases h
      exact (congrArg Symbol.isConstant get_pushNamed).trans value
  | some other =>
      rw [found] at h
      obtain ⟨_, checked, same⟩ := map_eq_ok.mp h
      cases same
      apply Symbol.isConstant_eq_false (wf.named _ (mem_of_lookup found)).2.2
      intro address
      simp [expectValue, address] at checked

end SymbolTable

section Written

variable {catalog : Catalog} {t u : SymbolTable} {id : SymbolId}

/-- The symbol that an atom stands for. A name that is in use keeps the symbol it has. -/
inductive Atom.StandsFor (catalog : Catalog) (t : SymbolTable) : Atom → SymbolId → Prop where
  | integer {value : Int} {id : SymbolId}
      (symbol : t.get id = ⟨toString value, .integer, .constant⟩) :
      StandsFor catalog t (.integer value) id
  | float {text : String} {id : SymbolId} (symbol : t.get id = ⟨text, .float, .constant⟩) :
      StandsFor catalog t (.float text) id
  | string {value : String} {id : SymbolId} (symbol : t.get id = ⟨value, .string, .constant⟩) :
      StandsFor catalog t (.string value) id
  | type {name : String} {number : Int} {id : SymbolId} (known : catalog.typeId name = some number)
      (symbol : t.get id = ⟨toString number, .integer, .constant⟩) :
      StandsFor catalog t (.typeName name) id
  | register {name : String} {id : SymbolId} (leads : t.lookup name = some id)
      (value : (t.get id).isConstant = false) : StandsFor catalog t (.register name) id
  | declared {name : String} {id : SymbolId} (leads : t.lookup name = some id)
      (value : (t.get id).isConstant = false) : StandsFor catalog t (.word name) id
  | machine {name : String} {cls : ValueClass} {index : Nat} {id : SymbolId}
      (spelled : machineRegister? name = some (cls, index))
      (leads : t.lookup (cls.machineRegister index) = some id)
      (value : (t.get id).isConstant = false) : StandsFor catalog t (.word name) id
  | label {name : String} {id : SymbolId} (ordinary : machineRegister? name = none)
      (leads : t.labelId name = some id) : StandsFor catalog t (.word name) id

theorem Atom.StandsFor.lt {a : Atom} (h : a.StandsFor catalog t id) (wf : t.WellFormed) :
    id < t.size := by
  cases h with
  | integer symbol | float symbol | string symbol | type known symbol =>
      exact SymbolTable.lt_of_kind (by simp [symbol])
  | register leads | declared leads | machine spelled leads => exact wf.lt_of_lookup leads
  | label ordinary leads => exact wf.lt_of_lookup (SymbolTable.labelId_eq_some.mp leads).1

theorem Atom.StandsFor.grows {a : Atom} (h : a.StandsFor catalog t id) (wf : t.WellFormed)
    (grown : t.Grows u) : a.StandsFor catalog u id := by
  have same := grown.get (h.lt wf)
  cases h with
  | integer symbol => exact .integer (same.trans symbol)
  | float symbol => exact .float (same.trans symbol)
  | string symbol => exact .string (same.trans symbol)
  | type known symbol => exact .type known (same.trans symbol)
  | register leads value => exact .register (grown.lookup leads) (same ▸ value)
  | declared leads value => exact .declared (grown.lookup leads) (same ▸ value)
  | machine spelled leads value => exact .machine spelled (grown.lookup leads) (same ▸ value)
  | label ordinary leads =>
      refine .label ordinary ?_
      rwa [SymbolTable.labelId_grows wf grown (SymbolTable.labelId_eq_some.mp leads).1]

/-- The symbols that atoms stand for, one by one. -/
def Atom.AllStandFor (catalog : Catalog) (t : SymbolTable) :
    List (Located Atom) → List SymbolId → Prop :=
  List.Forall₂ fun part id => part.node.StandsFor catalog t id

theorem Atom.AllStandFor.lt {parts : List (Located Atom)} {ids : List SymbolId}
    (h : AllStandFor catalog t parts ids) (wf : t.WellFormed) : ∀ id ∈ ids, id < t.size := by
  induction h with
  | nil => exact fun _ mem => absurd mem List.not_mem_nil
  | cons stands _ ih => exact List.forall_mem_cons.mpr ⟨stands.lt wf, ih⟩

/-- A lone key is itself, a longer chain is joined. -/
inductive Atom.KeyFor (catalog : Catalog) (t : SymbolTable) :
    List (Located Atom) → SymbolId → Prop where
  | lone {part : Located Atom} {id : SymbolId} (stands : part.node.StandsFor catalog t id) :
      KeyFor catalog t [part] id
  | chain {parts : List (Located Atom)} {ids : List SymbolId} {id : SymbolId}
      (several : 2 ≤ parts.length) (stand : AllStandFor catalog t parts ids)
      (symbol : t.get id = t.joined ids) : KeyFor catalog t parts id

theorem Atom.KeyFor.lt {parts : List (Located Atom)} (h : KeyFor catalog t parts id)
    (wf : t.WellFormed) : id < t.size := by
  cases h with
  | lone stands => exact stands.lt wf
  | chain several stand symbol =>
      apply SymbolTable.lt_of_cls
      rw [symbol]
      simp [SymbolTable.joined, Symbol.join]

theorem Atom.KeyFor.grows {parts : List (Located Atom)} (h : KeyFor catalog t parts id)
    (wf : t.WellFormed) (grown : t.Grows u) : KeyFor catalog u parts id := by
  have same := grown.get (h.lt wf)
  cases h with
  | lone stands => exact .lone (stands.grows wf grown)
  | chain several stand symbol =>
      refine .chain several (stand.imp fun _ _ stands => stands.grows wf grown) ?_
      rw [same, symbol, SymbolTable.joined_grows grown (stand.lt wf)]

/-- The slot that an operand stands for: its base, with the key that its keys come to. -/
inductive Operand.StandsFor (catalog : Catalog) (t : SymbolTable) : Operand → Slot → Prop where
  | plain {base : Atom} {id : SymbolId} (stands : base.StandsFor catalog t id) :
      StandsFor catalog t ⟨base, []⟩ (.plain id)
  | keyed {base : Atom} {keys : List (Located Atom)} {id key : SymbolId}
      (stands : base.StandsFor catalog t id) (chain : Atom.KeyFor catalog t keys key) :
      StandsFor catalog t ⟨base, keys⟩ (.keyed id key)

theorem Operand.StandsFor.grows {o : Operand} {slot : Slot} (h : o.StandsFor catalog t slot)
    (wf : t.WellFormed) (grown : t.Grows u) : o.StandsFor catalog u slot := by
  cases h with
  | plain stands => exact .plain (stands.grows wf grown)
  | keyed stands chain => exact .keyed (stands.grows wf grown) (chain.grows wf grown)

theorem Operand.StandsFor.key_lt {o : Operand} {container key : SymbolId}
    (h : o.StandsFor catalog t (.keyed container key)) (wf : t.WellFormed) : key < t.size := by
  cases h with
  | keyed stands chain => exact chain.lt wf

def Operand.AllStandFor (catalog : Catalog) (t : SymbolTable) :
    List (Located Operand) → List Slot → Prop :=
  List.Forall₂ fun o slot => o.node.StandsFor catalog t slot

theorem Operand.AllStandFor.grows {operands : List (Located Operand)} {slots : List Slot}
    (h : AllStandFor catalog t operands slots) (wf : t.WellFormed) (grown : t.Grows u) :
    AllStandFor catalog u operands slots :=
  h.imp fun _ _ stands => stands.grows wf grown

/-- The slots of the labels that a statement names as targets. -/
def Slot.AllTargets (t : SymbolTable) : List String → List Slot → Prop :=
  List.Forall₂ fun name slot => ∃ id, t.labelId name = some id ∧ slot = .plain id

/-- The operation that a statement comes to. Beyond the forms there are the creation of an
aggregate, and copies from and to a single character of a string. -/
inductive Statement.Performs (catalog : Catalog) (t : SymbolTable) :
    Statement → String → List Slot → Prop where
  | form {s : Statement} {f : Form} {slots targets : List Slot} (isForm : s.form = some f)
      (stand : Operand.AllStandFor catalog t f.operands slots)
      (labels : Slot.AllTargets t f.targets targets) :
      Performs catalog t s f.mnemonic (slots ++ targets)
  | create {target : Located Operand} {type : Located Atom} {slot : Slot} {number : Int}
      {id : SymbolId} (stands : target.node.StandsFor catalog t slot)
      (symbol : t.get id = ⟨toString number, .integer, .constant⟩)
      (name : String) (known : catalog.typeId name = some number) :
      Performs catalog t (.assign target (.new type)) "new" [slot, .plain id]
  | fetch {target source : Located Operand} {dest container key one : SymbolId}
      (isDest : target.node.StandsFor catalog t (.plain dest))
      (isSource : source.node.StandsFor catalog t (.keyed container key))
      (index : (t.get key).cls = .integer) (symbol : t.get one = ⟨"1", .integer, .constant⟩) :
      Performs catalog t (.assign target (.operand source)) "substr"
        [.plain dest, .plain container, .plain key, .plain one]
  | store {target source : Located Operand} {container key one value : SymbolId}
      (isTarget : target.node.StandsFor catalog t (.keyed container key))
      (isValue : source.node.StandsFor catalog t (.plain value))
      (index : (t.get key).cls = .integer) (symbol : t.get one = ⟨"1", .integer, .constant⟩) :
      Performs catalog t (.assign target (.operand source)) "substr"
        [.plain container, .plain key, .plain one, .plain value]

end Written

namespace Lowering

variable {σ τ : Lowering} {id : SymbolId}

theorem labelRef_labelId {name : String} {span : Span}
    (h : (labelRef name span).run σ = .ok (id, τ)) :
    τ.selector.symbols.labelId name = some id := by
  obtain ⟨table, found, rfl⟩ := labelRef_eq h
  obtain ⟨_, leads, address⟩ := SymbolTable.address_ok found
  rw [selector_note]
  exact SymbolTable.labelId_eq_some.mpr ⟨leads, address⟩

theorem constant_symbol {text : String} {cls : ValueClass} (wf : σ.selector.symbols.WellFormed)
    (h : (intern (·.constant text cls)).run σ = .ok (id, τ)) :
    τ.selector.symbols.get id = ⟨text, cls, .constant⟩ := by
  have symbol := (SymbolTable.constant_ok wf text cls).2
  rwa [(intern_ok h).1] at symbol

theorem Interned.catalog {names : List String} (h : Interned names σ τ) :
    τ.selector.catalog = σ.selector.catalog := by
  rw [h.rest]

theorem Finds.standsFor {a : Atom} {span : Span} (wf : σ.selector.symbols.WellFormed)
    (h : Finds σ span a id τ) : a.StandsFor τ.selector.catalog τ.selector.symbols id := by
  rw [h.interned.catalog]
  cases h with
  | constant literal interned =>
      have symbol := constant_symbol wf interned
      cases a with
      | integer value =>
          cases literal
          exact .integer symbol
      | float text =>
          cases literal
          exact .float symbol
      | string value =>
          cases literal
          exact .string symbol
      | typeName name =>
          obtain ⟨number, known, same⟩ := Option.map_eq_some_iff.mp literal
          cases same
          exact .type known symbol
      | register | word => cases literal
  | register ofClass found =>
      exact .register (SymbolTable.var_ok found).2 (SymbolTable.mention_value rfl wf found)
  | declared leads value =>
      apply Atom.StandsFor.declared leads
      exact Symbol.isConstant_eq_false (wf.named _ (SymbolTable.mem_of_lookup leads)).2.2 value
  | machine spelled found =>
      exact .machine spelled (SymbolTable.machineRegister_ok found).2
        (SymbolTable.mention_value rfl wf found)
  | label ordinary referred => exact .label ordinary (labelRef_labelId referred)

theorem atoms_standFor {parts : List (Located Atom)} {ids : List SymbolId}
    (wf : σ.selector.symbols.WellFormed)
    (h : (parts.mapM fun part => atom part.node part.span).run σ = .ok (ids, τ)) :
    Atom.AllStandFor τ.selector.catalog τ.selector.symbols parts ids := by
  refine mapM_forall₂ (P := fun (part : Located Atom) id (selector : Selector) =>
      part.node.StandsFor selector.catalog selector.symbols id)
    lowersAtoms_interned.atom (fun wf ran => (atom_finds ran).standsFor wf) ?_ wf h
  intro part id σ τ names wf interned stands
  rw [interned.catalog]
  exact stands.grows wf interned.grows

theorem key_keyFor {first : Located Atom} {rest : List (Located Atom)}
    (wf : σ.selector.symbols.WellFormed) (h : (key first rest).run σ = .ok (id, τ)) :
    Atom.KeyFor τ.selector.catalog τ.selector.symbols (first :: rest) id := by
  obtain ⟨head, tail, σ₁, lowered, collapsed, same⟩ := key_eq h
  have all := atoms_standFor wf lowered
  have wf₁ := (lowersAtoms_interned.mapM lowersAtoms_interned.atom lowered).wf wf
  have catalog : τ.selector.catalog = σ₁.selector.catalog := by
    rw [same]
    rfl
  have grown : σ₁.selector.symbols.Grows τ.selector.symbols := by
    have step := SymbolTable.grows_collapse ⟨head, tail⟩ σ₁.selector.symbols
    rwa [collapsed] at step
  rw [catalog]
  cases all with
  | cons isHead areTail =>
      cases areTail with
      | nil =>
          obtain ⟨_, rfl⟩ : σ₁.selector.symbols = τ.selector.symbols ∧ head = id :=
            Prod.mk.inj collapsed
          exact .lone (isHead.grows wf₁ grown)
      | @cons _ second _ last isSecond areLast =>
          have all : Atom.AllStandFor _ σ₁.selector.symbols _ (head :: second :: last) :=
            .cons isHead (.cons isSecond areLast)
          have pushed : σ₁.selector.symbols.push
              (σ₁.selector.symbols.joined (head :: second :: last)) =
                (τ.selector.symbols, id) := collapsed
          refine .chain (by simp) (all.imp fun _ _ stands => stands.grows wf₁ grown) ?_
          rw [SymbolTable.joined_grows grown (all.lt wf₁)]
          obtain ⟨table, rfl⟩ := Prod.mk.inj pushed
          rw [← table]
          exact SymbolTable.get_append_size ..

theorem slot_standsFor {o : Located Operand} {slot : Slot} (wf : σ.selector.symbols.WellFormed)
    (h : (Lowering.slot o).run σ = .ok (slot, τ)) :
    o.node.StandsFor τ.selector.catalog τ.selector.symbols slot := by
  obtain ⟨⟨base, keys⟩, span⟩ := o
  rcases slot_cases h with
    ⟨id, rfl, rfl, lowered⟩ | ⟨first, rest, id, index, σ₁, rfl, rfl, lowered, collapsed⟩
  · exact .plain ((atom_finds lowered).standsFor wf)
  · have wf₁ := (atom_finds lowered).interned.wf wf
    have more := lowersAtoms_interned.key collapsed
    have stands := ((atom_finds lowered).standsFor wf).grows wf₁ more.grows
    rw [← more.catalog] at stands
    exact .keyed stands (key_keyFor wf₁ collapsed)

theorem slots_standFor {operands : List (Located Operand)} {slots : List Slot}
    (wf : σ.selector.symbols.WellFormed) (h : (operands.mapM slot).run σ = .ok (slots, τ)) :
    Operand.AllStandFor τ.selector.catalog τ.selector.symbols operands slots := by
  refine mapM_forall₂ (P := fun (o : Located Operand) slot (selector : Selector) =>
      o.node.StandsFor selector.catalog selector.symbols slot)
    lowersAtoms_interned.slot slot_standsFor ?_ wf h
  intro o slot σ τ names wf interned stands
  rw [interned.catalog]
  exact stands.grows wf interned.grows

theorem targets_allTargets {targets : List String} {span : Span} {ids : List SymbolId}
    (wf : σ.selector.symbols.WellFormed)
    (h : (targets.mapM (labelRef · span)).run σ = .ok (ids, τ)) :
    Slot.AllTargets τ.selector.symbols targets (ids.map .plain) := by
  have each : List.Forall₂ (fun name id => τ.selector.symbols.labelId name = some id)
      targets ids := by
    refine mapM_forall₂ (P := fun name id (selector : Selector) =>
        selector.symbols.labelId name = some id)
      (fun ran => (labelRef_ok ran).1) (fun _ => labelRef_labelId) ?_ wf h
    intro name id σ τ names wf interned leads
    rwa [SymbolTable.labelId_grows wf interned.grows (SymbolTable.labelId_eq_some.mp leads).1]
  exact List.forall₂_map_right_iff.mpr (each.imp fun name id leads => ⟨id, leads, rfl⟩)

end Lowering

namespace Selector

variable {s t : Selector} {mnemonic : String} {slots : List Slot} {first : Nat}

/-- Of the selector, only the catalog and the settings decide what an operation can emit. -/
theorem Emits.congr {u : SymbolTable} {spelling : Spelling} (h : s.Emits mnemonic slots u spelling)
    (catalog : t.catalog = s.catalog) (config : t.config = s.config) :
    t.Emits mnemonic slots u spelling := by
  cases h with
  | whole => exact .whole
  | load slot temp mem register => exact .load slot temp mem register
  | store slot temp mem register => exact .store slot temp mem register
  | create type temp id register known number =>
      exact .create type temp id register (by rw [catalog, config]; exact known) number
  | operation temps registers => exact .operation temps registers

/-- From `s` to `t` instructions were appended that are parts of an operation. -/
def Carries (s : Selector) (mnemonic : String) (slots : List Slot) (t : Selector) : Prop :=
  ∃ group, t.instructions = s.instructions ++ group ∧
    ∀ i ∈ group, i.Built t.catalog t.symbols ∧ s.Emits mnemonic slots t.symbols i.spelling

theorem resolve_carries {context : Context} (wf : s.symbols.WellFormed)
    (limit : s.config.maxArity ≤ maskWidth) (admitted : s.Admits context)
    (filled : context.Filled slots) (h : s.resolve mnemonic context = (t, .ok first)) :
    s.Carries mnemonic slots t := by
  refine resolve_emits wf admitted filled ?_ h
  rw [← filled.arity]
  exact Nat.le_trans admitted.arity limit

theorem resolveSlots_carries (wf : s.symbols.WellFormed) (limit : s.config.maxArity ≤ maskWidth)
    (valid : ∀ id ∈ slots.flatMap Slot.operands, id < s.symbols.size)
    (h : s.resolveSlots mnemonic slots = (t, .ok first)) : s.Carries mnemonic slots t := by
  obtain ⟨context, filled, resolved⟩ := resolveSlots_eq_ok.mp h
  exact resolve_carries wf limit (s.admits_context.fill filled valid)
    ((Context.filled_context s).fill filled) resolved

/-- An operation on slots, one of which holds the constant one. -/
theorem resolveSlots_one_carries (slots : List Slot) {ids : List SymbolId}
    (wf : s.symbols.WellFormed) (limit : s.config.maxArity ≤ maskWidth)
    (valid : ∀ id ∈ ids, id < s.symbols.size)
    (operands : slots.flatMap Slot.operands ⊆ s.one.2 :: ids)
    (h : s.one.1.resolveSlots mnemonic slots = (t, .ok first)) :
    s.Carries mnemonic slots t ∧ t.symbols.get s.one.2 = ⟨"1", .integer, .constant⟩ := by
  have inside : ∀ id ∈ slots.flatMap Slot.operands, id < s.one.1.symbols.size :=
    fun id mem => valid_one wf valid id (operands mem)
  have one : s.one.1.symbols.get s.one.2 = ⟨"1", .integer, .constant⟩ :=
    (SymbolTable.constant_ok wf "1" .integer).2
  have wf₁ := wf.grows s.grows_one
  obtain ⟨group, instructions, each⟩ := resolveSlots_carries (s := s.one.1) wf₁ limit inside h
  have evolved := resolveSlots_evolves mnemonic wf₁ inside
  rw [h] at evolved
  refine ⟨⟨group, instructions, fun i mem => ⟨(each i mem).1, ?_⟩⟩,
    evolved.grows.symbol one (.inl (by simp))⟩
  exact (each i mem).2.congr rfl rfl

theorem fetchIndexed_carries {dest container key : SymbolId} (wf : s.symbols.WellFormed)
    (limit : s.config.maxArity ≤ maskWidth)
    (valid : ∀ id ∈ [dest, container, key], id < s.symbols.size)
    (h : s.fetchIndexed dest container key = (t, .ok first)) :
    s.Carries "set" [.plain dest, .keyed container key] t ∨
      (s.symbols.get key).cls = .integer ∧ ∃ one,
        t.symbols.get one = ⟨"1", .integer, .constant⟩ ∧
        s.Carries "substr" [.plain dest, .plain container, .plain key, .plain one] t := by
  unfold fetchIndexed at h
  split at h
  · rename_i index
    obtain ⟨carries, symbol⟩ := resolveSlots_one_carries
      [.plain dest, .plain container, .plain key, .plain s.one.2] wf limit valid
      (by simp [Slot.operands]) h
    exact .inr ⟨index, s.one.2, symbol, carries⟩
  · exact .inl (resolveSlots_carries wf limit valid h)

theorem storeIndexed_carries {container key value : SymbolId} (wf : s.symbols.WellFormed)
    (limit : s.config.maxArity ≤ maskWidth)
    (valid : ∀ id ∈ [container, key, value], id < s.symbols.size)
    (h : s.storeIndexed container key value = (t, .ok first)) :
    s.Carries "set" [.keyed container key, .plain value] t ∨
      (s.symbols.get key).cls = .integer ∧ ∃ one,
        t.symbols.get one = ⟨"1", .integer, .constant⟩ ∧
        s.Carries "substr" [.plain container, .plain key, .plain one, .plain value] t := by
  unfold storeIndexed at h
  split at h
  · rename_i index _
    obtain ⟨carries, symbol⟩ := resolveSlots_one_carries
      [.plain container, .plain key, .plain s.one.2, .plain value] wf limit valid
      (by simp [Slot.operands]) h
    exact .inr ⟨index, s.one.2, symbol, carries⟩
  · exact .inl (resolveSlots_carries wf limit valid h)
  · cases h

theorem Emits.grows {u v : SymbolTable} {spelling : Spelling}
    (h : s.Emits mnemonic slots u spelling) (grown : u.Grows v) :
    s.Emits mnemonic slots v spelling := by
  cases h with
  | whole => exact .whole
  | load slot temp mem register => exact .load slot temp mem (register.grows grown)
  | store slot temp mem register => exact .store slot temp mem (register.grows grown)
  | create type temp id register known number =>
      exact .create type temp id (register.grows grown) known
        (grown.symbol number (.inl (by simp)))
  | operation temps registers =>
      exact .operation temps fun temp mem => (registers temp mem).grows grown

end Selector

theorem Slot.AllTargets.grows {t u : SymbolTable} {names : List String} {targets : List Slot}
    (h : AllTargets t names targets) (wf : t.WellFormed) (grown : t.Grows u) :
    AllTargets u names targets := by
  refine h.imp ?_
  rintro name _ ⟨id, leads, rfl⟩
  refine ⟨id, ?_, rfl⟩
  rwa [SymbolTable.labelId_grows wf grown (SymbolTable.labelId_eq_some.mp leads).1]

theorem Statement.Performs.grows {catalog : Catalog} {t u : SymbolTable} {s : Statement}
    {mnemonic : String} {slots : List Slot} (h : s.Performs catalog t mnemonic slots)
    (wf : t.WellFormed) (grown : t.Grows u) : s.Performs catalog u mnemonic slots := by
  cases h with
  | form isForm stand labels =>
      exact .form isForm (stand.grows wf grown) (labels.grows wf grown)
  | create stands symbol name known =>
      exact .create (stands.grows wf grown) (grown.symbol symbol (.inl (by simp))) name known
  | fetch isDest isSource index symbol =>
      refine .fetch (isDest.grows wf grown) (isSource.grows wf grown) ?_
        (grown.symbol symbol (.inl (by simp)))
      rwa [grown.get (isSource.key_lt wf)]
  | store isTarget isValue index symbol =>
      refine .store (isTarget.grows wf grown) (isValue.grows wf grown) ?_
        (grown.symbol symbol (.inl (by simp)))
      rwa [grown.get (isTarget.key_lt wf)]

/-- The instruction is part of the operation that a statement comes to. -/
structure Instruction.PartOf (selector : Selector) (t : SymbolTable) (s : Statement)
    (i : Instruction) : Prop where
  built : i.Built selector.catalog t
  performed : ∃ mnemonic slots, s.Performs selector.catalog t mnemonic slots ∧
    selector.Emits mnemonic slots t i.spelling

theorem Instruction.PartOf.congr {s s' : Selector} {t : SymbolTable} {statement : Statement}
    {i : Instruction} (h : i.PartOf s t statement) (catalog : s'.catalog = s.catalog)
    (config : s'.config = s.config) : i.PartOf s' t statement := by
  obtain ⟨mnemonic, slots, performs, emits⟩ := h.performed
  exact ⟨catalog ▸ h.built, mnemonic, slots, catalog ▸ performs, emits.congr catalog config⟩

theorem Instruction.PartOf.grows {selector : Selector} {t u : SymbolTable} {s : Statement}
    {i : Instruction} (h : i.PartOf selector t s) (wf : t.WellFormed) (grown : t.Grows u) :
    i.PartOf selector u s := by
  obtain ⟨mnemonic, slots, performs, emits⟩ := h.performed
  exact ⟨h.built.grows grown, mnemonic, slots, performs.grows wf grown, emits.grows grown⟩

namespace Lowering

variable {σ τ : Lowering} {s : Statement} {r : Request} {mnemonic : String} {slots : List Slot}
  {selector : Selector} {first : Nat}

/-- The group holds labels and parts of the statement's operation. -/
def PartsOf (selector : Selector) (t : SymbolTable) (s : Statement) (group : List Instruction) :
    Prop :=
  ∀ i ∈ group, i.isLabel = false → i.PartOf selector t s

/-- From `σ` on, labels and parts of the statement's operation were appended. -/
def Adds (s : Statement) (σ : Lowering) (selector : Selector) : Prop :=
  ∃ group, selector.instructions = σ.selector.instructions ++ group ∧
    PartsOf σ.selector selector.symbols s group

/-- What is known when a statement's request has been made and answered. -/
structure Answered (s : Located Statement) (σ τ : Lowering) (r : Request) (selector : Selector) :
    Prop where
  wf : σ.selector.symbols.WellFormed
  limit : σ.selector.config.maxArity ≤ maskWidth
  asks : Asks s σ (some r) τ
  answer : ∃ first, r.answer τ.selector = (selector, .ok first)

namespace Answered

variable {s : Located Statement}

theorem wf' (h : Answered s σ τ r selector) : τ.selector.symbols.WellFormed :=
  h.asks.interned.wf h.wf

theorem limit' (h : Answered s σ τ r selector) : τ.selector.config.maxArity ≤ maskWidth := by
  rw [h.asks.evolves.config]
  exact h.limit

theorem after (h : Answered s σ τ r selector) : τ.selector.Evolves selector := by
  obtain ⟨first, answer⟩ := h.answer
  have evolved := (h.asks.admitted h.wf).evolves h.wf'
  rwa [answer] at evolved

theorem instructions (h : Answered s σ τ r selector) :
    τ.selector.instructions = σ.selector.instructions := by
  rw [h.asks.interned.rest]

theorem adds_of_carries (h : Answered s σ τ r selector)
    (performs : s.node.Performs τ.selector.catalog selector.symbols mnemonic slots)
    (carries : τ.selector.Carries mnemonic slots selector) : Adds s.node σ selector := by
  obtain ⟨group, instructions, each⟩ := carries
  refine ⟨group, by rw [instructions, h.instructions], fun i mem _ => ?_⟩
  obtain ⟨built, emits⟩ := each i mem
  rw [h.after.catalog] at built
  have part : i.PartOf τ.selector selector.symbols s.node :=
    ⟨built, mnemonic, slots, performs, emits⟩
  exact part.congr h.asks.evolves.catalog.symm h.asks.evolves.config.symm

theorem adds_of_operation {c : Context} (h : Answered s σ τ (.operation mnemonic c) selector)
    (performs : s.node.Performs τ.selector.catalog τ.selector.symbols mnemonic slots)
    (filled : σ.selector.context.fill slots = .ok c) : Adds s.node σ selector := by
  obtain ⟨first, answer⟩ := h.answer
  have all := (Context.filled_context σ.selector).fill filled
  rw [List.nil_append] at all
  exact h.adds_of_carries (performs.grows h.wf' h.after.grows)
    (Selector.resolve_carries h.wf' h.limit' (h.asks.admitted h.wf) all answer)

/-- A copy of a single element is keyed, or works on a character. -/
theorem adds_of_store {target source : Located Operand} {container key value : SymbolId}
    (h : Answered s σ τ (.store container key value) selector)
    (isCopy : s.node = .assign target (.operand source))
    (stand : Operand.AllStandFor τ.selector.catalog τ.selector.symbols [target, source]
      [.keyed container key, .plain value]) : Adds s.node σ selector := by
  obtain ⟨first, answer⟩ := h.answer
  have valid : ∀ id ∈ [container, key, value], id < τ.selector.symbols.size :=
    h.asks.admitted h.wf
  have now := stand.grows h.wf' h.after.grows
  rcases Selector.storeIndexed_carries h.wf' h.limit' valid answer with
    carries | ⟨index, one, symbol, carries⟩
  · refine h.adds_of_carries ?_ carries
    rw [isCopy]
    exact .form (f := ⟨"set", [target, source], []⟩) rfl now .nil
  · refine h.adds_of_carries ?_ carries
    rw [isCopy]
    cases now with
    | cons isTarget rest =>
        cases rest with
        | cons isSource _ =>
            refine .store isTarget isSource ?_ symbol
            rwa [h.after.grows.get (valid key (by simp))]

theorem adds_of_fetch {target source : Located Operand} {dest container key : SymbolId}
    (h : Answered s σ τ (.fetch dest container key) selector)
    (isCopy : s.node = .assign target (.operand source))
    (stand : Operand.AllStandFor τ.selector.catalog τ.selector.symbols [target, source]
      [.plain dest, .keyed container key]) : Adds s.node σ selector := by
  obtain ⟨first, answer⟩ := h.answer
  have valid : ∀ id ∈ [dest, container, key], id < τ.selector.symbols.size :=
    h.asks.admitted h.wf
  have now := stand.grows h.wf' h.after.grows
  rcases Selector.fetchIndexed_carries h.wf' h.limit' valid answer with
    carries | ⟨index, one, symbol, carries⟩
  · refine h.adds_of_carries ?_ carries
    rw [isCopy]
    exact .form (f := ⟨"set", [target, source], []⟩) rfl now .nil
  · refine h.adds_of_carries ?_ carries
    rw [isCopy]
    cases now with
    | cons isTarget rest =>
        cases rest with
        | cons isSource _ =>
            refine .fetch isTarget isSource ?_ symbol
            rwa [h.after.grows.get (valid key (by simp))]

theorem adds_of_label {name : String} (h : Answered s σ τ (.label name) selector) :
    Adds s.node σ selector := by
  obtain ⟨first, answer⟩ := h.answer
  change τ.selector.label name = (selector, .ok first) at answer
  unfold Selector.label at answer
  split at answer
  · cases answer
  · rename_i id _
    cases answer
    exact ⟨[.label name id], by rw [h.instructions], Instruction.forall_mem_label name id⟩

/-- The instructions of a statement: those of its operation, or one label. -/
theorem adds (h : Answered s σ τ r selector) : Adds s.node σ selector := by
  have asks := h.asks
  cases asks with
  | operation isForm lowered referred filled =>
      have wf₁ := (lowersAtoms_interned.slots lowered).wf h.wf
      have more := lowersStatements_interned.mapM lowersStatements_interned.labelRef referred
      have stand := (slots_standFor h.wf lowered).grows wf₁ more.grows
      rw [← more.catalog] at stand
      exact h.adds_of_operation (.form isForm stand (targets_allTargets wf₁ referred)) filled
  | create isNew numbered lowered filled =>
      obtain ⟨name, number, known, interned⟩ := typeNumber_eq numbered
      have wf₁ := (constant_interned interned).wf h.wf
      have stands := slot_standsFor wf₁ lowered
      have symbol := (lowersAtoms_interned.slot lowered).grows.symbol
        (constant_symbol h.wf interned) (.inl (by simp))
      rw [← h.asks.interned.catalog] at known
      refine h.adds_of_operation ?_ filled
      rw [isNew]
      exact .create stands symbol name known
  | store isCopy lowered => exact h.adds_of_store isCopy (slots_standFor h.wf lowered)
  | fetch isCopy lowered => exact h.adds_of_fetch isCopy (slots_standFor h.wf lowered)
  | label isLabel => exact h.adds_of_label

end Answered

theorem statement_adds {s : Located Statement} (wf : σ.selector.symbols.WellFormed)
    (limit : σ.selector.config.maxArity ≤ maskWidth)
    (h : (statement s).run σ = .ok ((), τ)) : Adds s.node σ τ.selector := by
  rcases statement_ok h with requested | ⟨r, reached, selector, first, requested, answer, rfl⟩
  · refine ⟨[], ?_, fun _ mem => absurd mem List.not_mem_nil⟩
    rw [(request_asks requested).interned.rest, List.append_nil]
  · exact Answered.adds ⟨wf, limit, request_asks requested, first, answer⟩

/-- Statements are lowered one after the other, and each appends a group of instructions. -/
inductive EmitsEach :
    Lowering → List (Located Statement) → List (List Instruction) → Lowering → Prop where
  | nil (σ : Lowering) : EmitsEach σ [] [] σ
  | cons {σ τ υ : Lowering} {s : Located Statement} {statements : List (Located Statement)}
      {group : List Instruction} {groups : List (List Instruction)}
      (ran : (statement s).run σ = .ok ((), τ))
      (appended : τ.selector.instructions = σ.selector.instructions ++ group)
      (rest : EmitsEach τ statements groups υ) : EmitsEach σ (s :: statements) (group :: groups) υ

theorem EmitsEach.instructions {statements : List (Located Statement)}
    {groups : List (List Instruction)} (h : EmitsEach σ statements groups τ) :
    τ.selector.instructions = σ.selector.instructions ++ groups.flatten := by
  induction h with
  | nil σ => exact (List.append_nil _).symm
  | cons ran appended rest ih => rw [ih, appended, List.flatten_cons, List.append_assoc]

theorem run_emits {statements : List (Located Statement)} (wf : σ.selector.symbols.WellFormed)
    (limit : σ.selector.config.maxArity ≤ maskWidth)
    (h : (statements.forM statement).run σ = .ok ((), τ)) :
    ∃ groups, EmitsEach σ statements groups τ ∧
      List.Forall₂ (fun s group => PartsOf σ.selector τ.selector.symbols s.node group)
        statements groups := by
  induction statements generalizing σ with
  | nil =>
      obtain ⟨_, rfl⟩ := pure_ok h
      exact ⟨[], .nil _, .nil⟩
  | cons s statements ih =>
      obtain ⟨_, σ₁, head, rest⟩ := bind_ok h
      have step := statement_evolves wf head
      have wf₁ := wf.grows step.grows
      have later := (run_evolves wf₁ rest).grows
      obtain ⟨group, appended, parts⟩ := statement_adds wf limit head
      obtain ⟨groups, emits, others⟩ := ih wf₁ (by rwa [step.config]) rest
      refine ⟨group :: groups, .cons head appended emits, .cons ?_ (others.imp ?_)⟩
      · exact fun i mem operation => (parts i mem operation).grows wf₁ later
      · intro s group parts i mem operation
        exact (parts i mem operation).congr step.catalog.symm step.config.symm

end Lowering

namespace CompiledRun

variable {catalog : Catalog} {config : Config} {source : String} {lowered : Lowered}
  {statements : List (Located Statement)} {state : Lowering}

theorem tracks (h : CompiledRun catalog config source lowered statements state) :
    Lowering.Tracks (statements.flatMap Statement.references)
      (statements.flatMap (·.node.defines)) state := by
  have started : Selector.start catalog config = .ok { catalog, config } := by
    rw [Selector.start, h.valid]
    rfl
  simpa using (Lowering.tracks_start started).run h.ran

theorem labelsMatch (h : CompiledRun catalog config source lowered statements state) :
    lowered.unit.LabelsMatch := by
  rw [h.result]
  apply h.tracks.labelsMatch
  have reports := h.tracks.undefinedLabels_eq
  rw [h.resolved] at reports
  exact List.map_eq_nil_iff.mp reports.symm

/-- Each statement emits a group of instructions, and these are labels and parts of its
operation. -/
theorem emits (h : CompiledRun catalog config source lowered statements state) :
    ∃ groups, Lowering.EmitsEach { selector := { catalog, config } } statements groups state ∧
      lowered.unit.instructions = groups.flatten ∧
      List.Forall₂ (fun s group =>
        Lowering.PartsOf { catalog, config } lowered.unit.symbols s.node group)
        statements groups := by
  obtain ⟨groups, emits, parts⟩ :=
    Lowering.run_emits SymbolTable.wellFormed_empty (Config.maxArity_le h.valid) h.ran
  rw [h.result]
  exact ⟨groups, emits, emits.instructions, parts⟩

/-- Every instruction that is no label is part of the operation of a statement. -/
theorem partOf (h : CompiledRun catalog config source lowered statements state)
    {i : Instruction} (mem : i ∈ lowered.unit.instructions) (operation : i.isLabel = false) :
    ∃ s ∈ statements, i.PartOf { catalog, config } lowered.unit.symbols s.node := by
  obtain ⟨groups, _, whole, parts⟩ := h.emits
  rw [whole] at mem
  obtain ⟨group, isGroup, inside⟩ := List.mem_flatten.mp mem
  obtain ⟨s, isStatement, part⟩ := exists_mem_of_forall₂ parts.flip isGroup
  exact ⟨s, isStatement, part i inside operation⟩

theorem built (h : CompiledRun catalog config source lowered statements state)
    {i : Instruction} (mem : i ∈ lowered.unit.instructions) (operation : i.isLabel = false) :
    i.Built catalog lowered.unit.symbols := by
  obtain ⟨_, _, part⟩ := h.partOf mem operation
  exact part.built

end CompiledRun
end OpSelect
