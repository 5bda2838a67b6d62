import OpSelect.Proofs.Selector.Rendering
import OpSelect.Proofs.Selector.Session

/-!
Assignments with one indexed side. The built-in table has a `substr` and a keyed `set` for every
kind of operand that these assignments can have, and an extension takes none of them away. So
where there is room for four operands, an assignment through a string or an aggregate is one
instruction, and one through anything else is refused for its class.
-/

namespace OpSelect

namespace BuiltIn

variable {key value : Symbol}

/-- An integer that is no key has one of two tags. -/
theorem text_of_integer (integer : key.cls = .integer) :
    (ArgTag.of key false).text ∈ ["i", "ic"] := by
  obtain ⟨name, cls, kind⟩ := key
  cases integer
  cases kind <;> simp [ArgTag.of, ArgTag.text, ValueClass.tag]

/-- So has a string, for an address is an integer. -/
theorem text_of_string (string : value.cls = .string) (place : value.kind ≠ .address) :
    (ArgTag.of value false).text ∈ ["s", "sc"] := by
  obtain ⟨name, cls, kind⟩ := value
  cases string
  cases kind with
  | address => exact absurd rfl place
  | var | constant | machineRegister index => simp [ArgTag.of, ArgTag.text, ValueClass.tag]

theorem has_character (integer : key.cls = .integer) :
    Has "substr" ["s", "s", (ArgTag.of key false).text, "ic"] := by
  have all : ∀ tag ∈ ["i", "ic"], Has "substr" ["s", "s", tag, "ic"] := by decide +kernel
  exact all _ (text_of_integer integer)

theorem has_replaceCharacter (integer : key.cls = .integer) (string : value.cls = .string)
    (place : value.kind ≠ .address) :
    Has "substr" ["s", (ArgTag.of key false).text, "ic", (ArgTag.of value false).text] := by
  have all : ∀ tag ∈ ["i", "ic"], ∀ other ∈ ["s", "sc"], Has "substr" ["s", tag, "ic", other] := by
    decide +kernel
  exact all _ (text_of_integer integer) _ (text_of_string string place)

end BuiltIn

namespace SymbolTable

variable {t u : SymbolTable} {name : String} {id : SymbolId}

/-- Every address is an integer. -/
def IntegerAddresses (t : SymbolTable) : Prop :=
  ∀ id < t.size, (t.get id).kind = .address → (t.get id).cls = .integer

theorem IntegerAddresses.quiet (h : t.IntegerAddresses) (k : t.Quiet u) : u.IntegerAddresses := by
  intro id below address
  cases Nat.lt_or_ge id t.size with
  | inl old =>
      rw [k.grows.get old] at address ⊢
      exact h id old address
  | inr new => exact absurd address (k.values id new below)

theorem IntegerAddresses.address (h : t.IntegerAddresses) (found : t.address name = .ok (u, id)) :
    u.IntegerAddresses := by
  rcases address_cases found with ⟨rfl, _, _⟩ | ⟨fresh, pushed⟩
  · exact h
  · have grown := (address_ok found).1
    cases pushed
    intro id below address
    cases Nat.lt_or_ge id t.size with
    | inl old =>
        rw [grown.get old] at address ⊢
        exact h id old address
    | inr new =>
        have last : id = t.size :=
          Nat.le_antisymm (Nat.le_of_lt_succ (by simpa [size] using below)) new
        rw [last]
        exact congrArg Symbol.cls get_pushNamed

theorem IntegerAddresses.placeLabel (h : t.IntegerAddresses) (name : String) :
    (t.placeLabel name).1.IntegerAddresses := by
  unfold SymbolTable.placeLabel
  cases found : t.address name with
  | error e => exact h
  | ok answer =>
      have added := h.address found
      dsimp only
      split <;> exact added

/-- What one call of the table keeps. -/
theorem IntegerAddresses.perform (h : t.IntegerAddresses) (call : TableCall) :
    (call.perform t).IntegerAddresses := by
  have answered : ∀ {result : Except SymbolError (SymbolTable × SymbolId)},
      (∀ {u id}, result = .ok (u, id) → u.IntegerAddresses) →
      (TableCall.answered t result).IntegerAddresses := by
    intro result kept
    cases result with
    | error e => exact h
    | ok answer => exact kept rfl
  cases call with
  | declare name cls => exact answered fun declared => h.quiet (quiet_declare declared)
  | var name cls => exact answered fun mentioned => h.quiet (quiet_var mentioned)
  | machineRegister cls index =>
      exact answered fun mentioned => h.quiet (quiet_machineRegister mentioned)
  | constant text cls => exact h.quiet (t.quiet_constant text cls)
  | address name => exact answered h.address
  | defineLabel name => exact h.placeLabel name
  | temporary supply cls =>
      exact h.quiet (quiet_pushNamed (supply.lookup_nextNumber cls t) (by simp)
        (by simp [Symbol.NameFits]) (by simp))
  | collapse chain => exact h.quiet (quiet_collapse chain t)

end SymbolTable

namespace Selector

variable {s : Selector}

theorem GainsOne.quiet {t : Selector} (h : s.GainsOne t) : s.symbols.Quiet t.symbols := by
  obtain ⟨fresh, rfl⟩ := h
  exact SymbolTable.quiet_of_grows (.single (.constant "1" .integer fresh)) rfl rfl (by simp)

/-- A request that adds no address when it is answered adds none when it is refused. -/
theorem quiet_of_outcome {α : Type} {answer : Selector × Except Fault α}
    (answered : ∀ {t a}, answer = (t, .ok a) → s.Quiet t)
    (refused : ∀ {fault}, answer.2 = .error fault → answer.1 = s ∨ s.GainsOne answer.1) :
    s.symbols.Quiet answer.1.symbols := by
  obtain ⟨t, result⟩ := answer
  cases result with
  | ok a => exact (answered rfl).table
  | error fault =>
      cases refused rfl with
      | inl same => exact same ▸ .refl _
      | inr gains => exact gains.quiet

end Selector

namespace Session

variable {σ τ : Session} {call : Call}

/-- What one call of a session keeps. -/
theorem perform_integerAddresses (sound : σ.Sound) (h : σ.selector.symbols.IntegerAddresses)
    (performed : σ.perform call = some τ) : τ.selector.symbols.IntegerAddresses := by
  cases perform_step performed with
  | contexts => exact h
  | table call => exact h.perform call
  | resolve mnemonic context =>
      exact h.quiet (Selector.quiet_of_outcome Selector.resolve_quiet
        fun refused => .inl (Selector.resolve_refused sound.wf refused))
  | indexed indexes =>
      exact h.quiet (Selector.quiet_of_outcome indexes.quiet (indexes.gainsOne sound.wf))
  | label name =>
      have placed := h.placeLabel name
      dsimp only
      unfold Selector.label
      split
      · rename_i failed
        rwa [failed] at placed
      · rename_i defined
        rwa [defined] at placed
  | aggregateType name =>
      exact h.quiet (Selector.quiet_of_outcome Selector.aggregateType_quiet
        fun refused => .inl (Selector.aggregateType_refused refused))

theorem run_integerAddresses {calls : List Call} (sound : σ.Sound)
    (h : σ.selector.symbols.IntegerAddresses) (ran : σ.run calls = some τ) :
    τ.selector.symbols.IntegerAddresses :=
  run_keeps perform_integerAddresses sound h ran

end Session

/-- A register or variable of the class. -/
def Symbol.IsRegister (symbol : Symbol) (cls : ValueClass) : Prop :=
  symbol.cls = cls ∧ symbol.isConstant = false

theorem Symbol.IsRegister.text {symbol : Symbol} {cls : ValueClass} (h : symbol.IsRegister cls) :
    (ArgTag.of symbol false).text = cls.tag := by
  rw [ArgTag.text_of_register h.2, h.1]

namespace Selector

variable {s : Selector} {mnemonic : String} {slots : List Slot}
  {dest container key value : SymbolId}

/-- Slots with at most one key among them are resolved by what is built over their operands. -/
theorem resolveSlots_eq (room : Slot.width slots ≤ s.config.maxArity)
    (limit : s.config.maxArity ≤ maskWidth) (single : (Slot.mask 0 slots).count ≤ 1) :
    s.resolveSlots mnemonic slots =
      match s.build mnemonic (slots.flatMap Slot.operands) (Slot.mask 0 slots) with
      | .error fault => (s, .error fault)
      | .ok i => s.emit [i] := by
  obtain ⟨context, filled, holds⟩ := Context.fill_of_room (Context.filled_context s) room limit
  have few : ¬ 2 ≤ context.keyed.count := by
    rw [holds.keyed]
    exact Nat.not_le_of_lt (Nat.lt_succ_of_le single)
  rw [resolveSlots, filled]
  dsimp only
  rw [resolve, if_neg few, holds.operands, holds.keyed]
  rfl

/-- The answer is the selector with one more instruction, which says this and is shown with these
texts. -/
def Appends (s : Selector) (spelling : Spelling) (texts : List String)
    (answer : Selector × Except Fault Nat) : Prop :=
  ∃ i, i.spelling = spelling ∧
    i.render s.symbols = spelling.mnemonic ++ " " ++ String.intercalate ", " texts ∧
    answer = ({ s with instructions := s.instructions ++ [i] }, .ok s.instructions.length)

/-- The selector of a session over the built-in operations and more, with room for four
operands. -/
structure Equipped (s : Selector) : Prop where
  accepted : ∃ extension, Catalog.builtIn.extended extension = .ok s.catalog
  room : 4 ≤ s.config.maxArity
  limit : s.config.maxArity ≤ maskWidth
  wf : s.symbols.WellFormed
  addresses : s.symbols.IntegerAddresses

/-- An operation of the built-in table over a few slots becomes one instruction. -/
theorem Equipped.appends (h : s.Equipped) (mnemonic : String) (slots : List Slot)
    (some : slots ≠ []) (few : Slot.width slots ≤ 4)
    (single : (Slot.mask 0 slots).count ≤ 1)
    (checked : s.checkKeyed (slots.flatMap Slot.operands) (Slot.mask 0 slots) = .ok ())
    (has : BuiltIn.Has mnemonic
      ((Signature.of s.symbols (slots.flatMap Slot.operands) (Slot.mask 0 slots)).map
        ArgTag.text)) :
    s.Appends (Slot.spelling mnemonic slots) (slots.map (Slot.text s.symbols))
      (s.resolveSlots mnemonic slots) := by
  obtain ⟨extension, accepted⟩ := h.accepted
  obtain ⟨entry, found, count⟩ := Catalog.lookup_of_has accepted has
  have built := build_eq_ok.mpr ⟨checked, entry, found, rfl⟩
  have paired := paired_of_checked checked single
  have enough : (slots.flatMap Slot.operands).length ≤ entry.directions.length := by
    rw [count]
    simp [Signature.of]
  have named : s.catalog.lookup entry.fullName = .some entry :=
    (Catalog.lookup_some found).2 ▸ found
  have grouped : Slot.group (Slot.mask 0 slots) 0 (slots.flatMap Slot.operands) = slots := by
    refine Slot.group_of_marks (Slot.marksFrom_mask slots) ?_
    have inside : 4 ≤ maskWidth := by decide
    omega
  have operands : slots.flatMap Slot.operands ≠ [] := by
    intro none
    rw [none] at grouped
    exact some grouped.symm
  refine ⟨s.instructionOf entry mnemonic (slots.flatMap Slot.operands) (Slot.mask 0 slots), rfl,
    ?_, ?_⟩
  · rw [render_of_build built paired named enough, if_neg operands, grouped]
    rfl
  · rw [resolveSlots_eq (Nat.le_trans few h.room) h.limit single, built]
    rfl

/-- The text of an operand. -/
def shown (s : Selector) (id : SymbolId) : String := (s.symbols.get id).displayText

/-- So does one without keys. -/
theorem Equipped.appends_plain (h : s.Equipped) (mnemonic : String) (operands : List SymbolId)
    (some : operands ≠ []) (few : operands.length ≤ 4)
    (has : BuiltIn.Has mnemonic
      (operands.map fun id => (ArgTag.of (s.symbols.get id) false).text)) :
    s.Appends ⟨mnemonic, operands, .empty⟩ (operands.map s.shown)
      (s.resolveSlots mnemonic (operands.map .plain)) := by
  have spelled := Slot.spelling_plain mnemonic operands
  have flat : (operands.map Slot.plain).flatMap Slot.operands = operands :=
    congrArg Spelling.operands spelled
  have mask : Slot.mask 0 (operands.map .plain) = .empty := congrArg Spelling.keyed spelled
  have present : operands.map Slot.plain ≠ [] := by simpa using some
  have appended := h.appends mnemonic (operands.map .plain) present
    (by rw [Slot.width, flat]; exact few) (by rw [mask]; decide)
    (by rw [mask]; exact checkKeyed_empty)
    (by rw [flat, mask, Signature.of_empty, List.map_map]; exact has)
  rw [spelled, List.map_map] at appended
  exact appended

/-- A key of anything but an aggregate is refused for its class. -/
theorem Equipped.illegal_container (h : s.Equipped) (scalar : s.classOf container ≠ .aggregate) :
    s.resolveSlots mnemonic [.plain dest, .keyed container key] =
      (s, .error (.rejected (.illegalKeyedOperand (s.symbols.get container).displayText
        (s.classOf container)))) := by
  have mask : Slot.mask 0 [.plain dest, .keyed container key] = .single 1 := rfl
  have single : (KeyedMask.single 1).count ≤ 1 := by decide
  have positions : (KeyedMask.single 1).positions = [1] := by decide
  have here : s.checkKeyedAt [dest, container, key] 1 = _ :=
    checkKeyedAt_eq rfl (Nat.lt_succ_self 2)
  have refused : s.build mnemonic [dest, container, key] (.single 1) = .error (.rejected
      (.illegalKeyedOperand (s.symbols.get container).displayText (s.classOf container))) := by
    rw [build, checkKeyed, positions, List.forM, here, if_neg scalar]
    rfl
  rw [resolveSlots_eq (Nat.le_trans (Nat.le_succ 3) h.room) h.limit (mask ▸ single), mask]
  have operands : [Slot.plain dest, .keyed container key].flatMap Slot.operands =
      [dest, container, key] := rfl
  rw [operands, refused]

/-- The constant one is there, and everything else is as it was. -/
theorem Equipped.one (h : s.Equipped) : s.one.1.Equipped where
  accepted := h.accepted
  room := h.room
  limit := h.limit
  wf := h.wf.grows (s.symbols.grows_constant "1" .integer)
  addresses := h.addresses.quiet (s.symbols.quiet_constant "1" .integer)

theorem Equipped.get_one (h : s.Equipped) :
    s.one.1.symbols.get s.one.2 = ⟨"1", .integer, .constant⟩ :=
  (SymbolTable.constant_ok h.wf "1" .integer).2

theorem get_one_of_lt {id : SymbolId} (inside : id < s.symbols.size) :
    s.one.1.symbols.get id = s.symbols.get id :=
  (s.symbols.grows_constant "1" .integer).get inside

theorem shown_one_of_lt {id : SymbolId} (inside : id < s.symbols.size) :
    s.one.1.shown id = s.shown id :=
  congrArg Symbol.displayText (get_one_of_lt inside)

theorem Equipped.shown_one (h : s.Equipped) : s.one.1.shown s.one.2 = "1" :=
  congrArg Symbol.displayText h.get_one

/-- A character of a string. -/
theorem Equipped.fetch_string (h : s.Equipped)
    (inside : ∀ id ∈ [dest, container, key], id < s.symbols.size)
    (isDest : (s.symbols.get dest).IsRegister .string)
    (isContainer : (s.symbols.get container).IsRegister .string)
    (integer : s.classOf key = .integer) :
    s.one.1.Appends ⟨"substr", [dest, container, key, s.one.2], .empty⟩
      [s.shown dest, s.shown container, s.shown key, "1"] (s.fetchIndexed dest container key) := by
  obtain ⟨destIn, containerIn, keyIn⟩ : dest < s.symbols.size ∧ container < s.symbols.size ∧
      key < s.symbols.size := by simpa using inside
  have answer : s.fetchIndexed dest container key = s.one.1.resolveSlots "substr"
      ([dest, container, key, s.one.2].map .plain) := by
    unfold fetchIndexed
    rw [show s.classOf dest = .string from isDest.1,
      show s.classOf container = .string from isContainer.1, integer]
    rfl
  have appended : s.one.1.Appends _ _ _ :=
    h.one.appends_plain "substr" [dest, container, key, s.one.2]
      (List.cons_ne_nil _ _) (Nat.le_refl 4) (by
        simp only [List.map_cons, List.map_nil, get_one_of_lt destIn, get_one_of_lt containerIn,
          get_one_of_lt keyIn, h.get_one, isDest.text, isContainer.text]
        exact BuiltIn.has_character integer)
  simp only [List.map_cons, List.map_nil, shown_one_of_lt destIn, shown_one_of_lt containerIn,
    shown_one_of_lt keyIn, h.shown_one] at appended
  rw [answer]
  exact appended

/-- A character of a string is replaced. -/
theorem Equipped.store_string (h : s.Equipped)
    (inside : ∀ id ∈ [container, key, value], id < s.symbols.size)
    (isContainer : (s.symbols.get container).IsRegister .string)
    (integer : s.classOf key = .integer) (string : s.classOf value = .string) :
    s.one.1.Appends ⟨"substr", [container, key, s.one.2, value], .empty⟩
      [s.shown container, s.shown key, "1", s.shown value]
      (s.storeIndexed container key value) := by
  obtain ⟨containerIn, keyIn, valueIn⟩ : container < s.symbols.size ∧ key < s.symbols.size ∧
      value < s.symbols.size := by simpa using inside
  have answer : s.storeIndexed container key value = s.one.1.resolveSlots "substr"
      ([container, key, s.one.2, value].map .plain) := by
    unfold storeIndexed
    rw [show s.classOf container = .string from isContainer.1, integer, string]
    rfl
  have place : (s.symbols.get value).kind ≠ .address := by
    intro address
    cases string.symm.trans (h.addresses value valueIn address)
  have appended : s.one.1.Appends _ _ _ :=
    h.one.appends_plain "substr" [container, key, s.one.2, value]
      (List.cons_ne_nil _ _) (Nat.le_refl 4) (by
        simp only [List.map_cons, List.map_nil, get_one_of_lt containerIn, get_one_of_lt keyIn,
          get_one_of_lt valueIn, h.get_one, isContainer.text]
        exact BuiltIn.has_replaceCharacter integer string place)
  simp only [List.map_cons, List.map_nil, shown_one_of_lt containerIn, shown_one_of_lt keyIn,
    shown_one_of_lt valueIn, h.shown_one] at appended
  rw [answer]
  exact appended

theorem fetchIndexed_eq_set (other : ¬ (s.classOf dest = .string ∧
    s.classOf container = .string ∧ s.classOf key = .integer)) :
    s.fetchIndexed dest container key =
      s.resolveSlots "set" [.plain dest, .keyed container key] := by
  unfold fetchIndexed
  split
  · rename_i string string' integer
    exact absurd ⟨string, string', integer⟩ other
  · rfl

/-- A part of an aggregate. -/
theorem Equipped.fetch_aggregate (h : s.Equipped)
    (isContainer : (s.symbols.get container).IsAggregate)
    (register : (s.symbols.get dest).isConstant = false) :
    s.Appends ⟨"set", [dest, container, key], .single 1⟩
      [s.shown dest, s.shown container ++ "[" ++ s.shown key ++ "]"]
      (s.fetchIndexed dest container key) := by
  have other : ¬ (s.classOf dest = .string ∧ s.classOf container = .string ∧
      s.classOf key = .integer) := by
    rintro ⟨_, string, _⟩
    cases isContainer.1.symm.trans string
  have has : BuiltIn.Has "set" ((Signature.of s.symbols [dest, container, key]
      (.single 1)).map ArgTag.text) := by
    change BuiltIn.Has "set" [(ArgTag.of (s.symbols.get dest) false).text,
      (ArgTag.of (s.symbols.get container) false).text, _]
    rw [ArgTag.text_of_register register, isContainer.text]
    exact BuiltIn.has_fetch _ _
  rw [fetchIndexed_eq_set other]
  exact h.appends "set" [.plain dest, .keyed container key] (List.cons_ne_nil _ _)
    (Nat.le_succ 3) (by decide : (KeyedMask.single 1).count ≤ 1)
    (checkKeyed_single (Nat.lt_succ_self 2) rfl isContainer) has

/-- A part of an aggregate is replaced. -/
theorem Equipped.store_aggregate (h : s.Equipped)
    (isContainer : (s.symbols.get container).IsAggregate)
    (fits : s.classOf value = .aggregate → (s.symbols.get value).kind ≠ .constant) :
    s.Appends ⟨"set", [container, key, value], .single 0⟩
      [s.shown container ++ "[" ++ s.shown key ++ "]", s.shown value]
      (s.storeIndexed container key value) := by
  have answer : s.storeIndexed container key value =
      s.resolveSlots "set" [.keyed container key, .plain value] := by
    unfold storeIndexed
    rw [show s.classOf container = .aggregate from isContainer.1]
  have has : BuiltIn.Has "set" ((Signature.of s.symbols [container, key, value]
      (.single 0)).map ArgTag.text) := by
    change BuiltIn.Has "set" [(ArgTag.of (s.symbols.get container) false).text, _, _]
    rw [isContainer.text]
    exact BuiltIn.has_store _ fits
  rw [answer]
  exact h.appends "set" [.keyed container key, .plain value] (List.cons_ne_nil _ _)
    (Nat.le_succ 3) (by decide : (KeyedMask.single 0).count ≤ 1)
    (checkKeyed_single (Nat.succ_lt_succ Nat.zero_lt_two) rfl isContainer) has

theorem Equipped.fetch_scalar (h : s.Equipped) (scalar : s.classOf container ≠ .aggregate)
    (other : ¬ (s.classOf dest = .string ∧ s.classOf container = .string ∧
      s.classOf key = .integer)) :
    s.fetchIndexed dest container key =
      (s, .error (.rejected (.illegalKeyedOperand (s.shown container) (s.classOf container)))) := by
  rw [fetchIndexed_eq_set other]
  exact h.illegal_container scalar

theorem storeIndexed_scalar (scalar : s.classOf container ≠ .aggregate)
    (other : ¬ (s.classOf container = .string ∧ s.classOf key = .integer ∧
      s.classOf value = .string)) :
    s.storeIndexed container key value =
      (s, .error (.rejected (.unsupportedIndexedAssignment (s.classOf container) (s.classOf key)
        (s.classOf value)))) := by
  unfold storeIndexed
  split
  · rename_i string integer string'
    exact absurd ⟨string, integer, string'⟩ other
  · rename_i aggregate
    exact absurd aggregate scalar
  · rfl

end Selector

namespace Session

variable {extension : Extension} {catalog : Catalog} {config : Config} {selector : Selector}
  {calls : List Call} {σ : Session}

theorem equipped_of_reached (accepted : Catalog.builtIn.extended extension = .ok catalog)
    (started : Selector.start catalog config = .ok selector) (room : 4 ≤ config.maxArity)
    (reached : Session.run { selector } calls = some σ) : σ.selector.Equipped := by
  have sound := sound_start started
  obtain ⟨evolved, after⟩ := run_sound sound reached
  have empty : selector.symbols.IntegerAddresses := by
    rw [Selector.start_ok started]
    exact fun id below => absurd below (Nat.not_lt_zero id)
  obtain ⟨_, valid, _⟩ := map_eq_ok.mp started
  have sameCatalog : σ.selector.catalog = catalog := by
    rw [evolved.catalog, Selector.start_ok started]
  have sameConfig : σ.selector.config = config := by
    rw [evolved.config, Selector.start_ok started]
  exact ⟨⟨extension, sameCatalog ▸ accepted⟩, sameConfig ▸ room,
    sameConfig ▸ Config.maxArity_le valid, after.wf, run_integerAddresses sound empty reached⟩

/-- In every state of a session, an assignment with one indexed side is one instruction if it goes
through a string or an aggregate and its operands are of the right kinds, and is refused for its
classes otherwise. A `substr` may bring the constant one with it. -/
theorem indexed_access_total (accepted : Catalog.builtIn.extended extension = .ok catalog)
    (started : Selector.start catalog config = .ok selector) (room : 4 ≤ config.maxArity)
    (reached : Session.run { selector } calls = some σ) :
    let s := σ.selector
    (s.one.1 = s ∨ s.GainsOne s.one.1) ∧
    (∀ dest container key, (∀ id ∈ [dest, container, key], id < s.symbols.size) →
      ((s.symbols.get dest).IsRegister .string → (s.symbols.get container).IsRegister .string →
        s.classOf key = .integer →
        s.one.1.Appends ⟨"substr", [dest, container, key, s.one.2], .empty⟩
          [s.shown dest, s.shown container, s.shown key, "1"]
          (s.fetchIndexed dest container key)) ∧
      ((s.symbols.get container).IsAggregate → (s.symbols.get dest).isConstant = false →
        s.Appends ⟨"set", [dest, container, key], .single 1⟩
          [s.shown dest, s.shown container ++ "[" ++ s.shown key ++ "]"]
          (s.fetchIndexed dest container key)) ∧
      (s.classOf container ≠ .aggregate →
        ¬ (s.classOf dest = .string ∧ s.classOf container = .string ∧
          s.classOf key = .integer) →
        s.fetchIndexed dest container key =
          (s, .error (.rejected (.illegalKeyedOperand (s.shown container)
            (s.classOf container)))))) ∧
    ∀ container key value, (∀ id ∈ [container, key, value], id < s.symbols.size) →
      ((s.symbols.get container).IsRegister .string → s.classOf key = .integer →
        s.classOf value = .string →
        s.one.1.Appends ⟨"substr", [container, key, s.one.2, value], .empty⟩
          [s.shown container, s.shown key, "1", s.shown value]
          (s.storeIndexed container key value)) ∧
      ((s.symbols.get container).IsAggregate →
        ¬ (s.classOf value = .aggregate ∧ (s.symbols.get value).kind = .constant) →
        s.Appends ⟨"set", [container, key, value], .single 0⟩
          [s.shown container ++ "[" ++ s.shown key ++ "]", s.shown value]
          (s.storeIndexed container key value)) ∧
      (s.classOf container ≠ .aggregate →
        ¬ (s.classOf container = .string ∧ s.classOf key = .integer ∧
          s.classOf value = .string) →
        s.storeIndexed container key value =
          (s, .error (.rejected (.unsupportedIndexedAssignment (s.classOf container)
            (s.classOf key) (s.classOf value))))) := by
  intro s
  have equipped : s.Equipped := equipped_of_reached accepted started room reached
  refine ⟨s.one_cases, fun dest container key inside => ⟨?_, ?_, ?_⟩,
    fun container key value inside => ⟨?_, ?_, ?_⟩⟩
  · exact equipped.fetch_string inside
  · exact equipped.fetch_aggregate
  · exact equipped.fetch_scalar
  · exact equipped.store_string inside
  · exact fun isContainer fits =>
      equipped.store_aggregate isContainer fun aggregate constant => fits ⟨aggregate, constant⟩
  · exact Selector.storeIndexed_scalar

/-- A string, an aggregate and a number. -/
def indexedCalls : List Call :=
  [.table (.declare "s" .string), .table (.declare "a" .aggregate), .table (.constant "0" .integer)]

theorem run_indexedCalls :
    ∃ σ, Session.run { selector := { catalog := Selector.swapSample.catalog, config := {} } }
        indexedCalls = some σ ∧
      σ.selector.symbols =
        { symbols := [⟨"s", .string, .var⟩, ⟨"a", .aggregate, .var⟩, ⟨"0", .integer, .constant⟩]
          names := [("s", 0), ("a", 1)]
          constants := [(("0", .integer), 2)] } := by
  refine Option.map_eq_some_iff.mp ?_
  rfl

theorem indexed_access_total_indexedCalls :
    ∃ selector σ, Selector.start Selector.swapSample.catalog {} = .ok selector ∧
      Session.run { selector } indexedCalls = some σ ∧
      σ.selector.one.1.Appends ⟨"substr", [0, 0, 2, σ.selector.one.2], .empty⟩ ["s", "s", "0", "1"]
        (σ.selector.fetchIndexed 0 0 2) ∧
      σ.selector.Appends ⟨"set", [1, 2, 0], .single 0⟩ ["a[0]", "s"]
        (σ.selector.storeIndexed 1 2 0) ∧
      σ.selector.storeIndexed 2 2 0 = (σ.selector,
        .error (.rejected (.unsupportedIndexedAssignment .integer .integer .string))) := by
  have started : Selector.start Selector.swapSample.catalog {} =
      .ok { catalog := Selector.swapSample.catalog, config := {} } := by
    unfold Selector.start
    rfl
  obtain ⟨σ, reached, symbols⟩ := run_indexedCalls
  obtain ⟨_, fetch, store⟩ :=
    indexed_access_total Selector.extended_swap started (by decide) reached
  have size : σ.selector.symbols.size = 3 := by rw [symbols]; rfl
  have string : σ.selector.symbols.get 0 = ⟨"s", .string, .var⟩ := by rw [symbols]; rfl
  have aggregate : σ.selector.symbols.get 1 = ⟨"a", .aggregate, .var⟩ := by rw [symbols]; rfl
  have number : σ.selector.symbols.get 2 = ⟨"0", .integer, .constant⟩ := by rw [symbols]; rfl
  refine ⟨_, σ, started, reached, ?_, ?_, ?_⟩
  · obtain ⟨fetched, _⟩ := fetch 0 0 2 (by rw [size]; decide)
    have appended := fetched (string ▸ ⟨rfl, rfl⟩) (string ▸ ⟨rfl, rfl⟩)
      (congrArg Symbol.cls number)
    simp only [Selector.shown, string, number] at appended
    exact appended
  · obtain ⟨_, stored, _⟩ := store 1 2 0 (by rw [size]; decide)
    have appended := stored (aggregate ▸ ⟨rfl, rfl⟩) (by simp [string])
    simp only [Selector.shown, string, aggregate, number] at appended
    exact appended
  · obtain ⟨_, _, refused⟩ := store 2 2 0 (by rw [size]; decide)
    have integer : σ.selector.classOf 2 = .integer := congrArg Symbol.cls number
    have answer := refused (by simp [integer]) (by simp [integer])
    rwa [integer, show σ.selector.classOf 0 = .string from congrArg Symbol.cls string] at answer

end Session
end OpSelect
