import OpSelect.Catalog.BuiltIn
import OpSelect.Proofs.List
import OpSelect.Proofs.Symbol.Temporary
import OpSelect.Selector.Expansion

/-!
What the expansion of an operation with several keyed operands emits, and what it adds to
the symbol table. `Expands` holds all of it; the results about expansions are read off it.
-/

namespace OpSelect

/-- What an instruction says. The rest of it comes from the catalog. -/
structure Spelling where
  mnemonic : String
  operands : List SymbolId
  keyed : KeyedMask
deriving DecidableEq, Repr

def Instruction.spelling (i : Instruction) : Spelling := ⟨i.mnemonic, i.operands, i.keyed⟩

namespace Slot

/-- `set temp, container[key]` or `set temp, operand` -/
def load (temp : SymbolId) : Slot → Spelling
  | .keyed container key => ⟨"set", [temp, container, key], .single 1⟩
  | .plain operand => ⟨"set", [temp, operand], .empty⟩

/-- `set container[key], temp` or `set operand, temp` -/
def store (temp : SymbolId) : Slot → Spelling
  | .keyed container key => ⟨"set", [container, key, temp], .single 0⟩
  | .plain operand => ⟨"set", [operand, temp], .empty⟩

/-- Whether the slot is a container with its key. -/
def isKeyed : Slot → Bool
  | .keyed _ _ => true
  | .plain _ => false

/-- The slots divide the operands, whose first is at `position`, from left to right: an operand that
is marked makes a keyed slot with the one after it, if there is one, and every other is plain. -/
structure Divides (keyed : KeyedMask) (position : Nat) (operands : List SymbolId)
    (slots : List Slot) : Prop where
  flat : slots.flatMap Slot.operands = operands
  marked : ∀ before slot after, slots = before ++ slot :: after →
    (slot.isKeyed = true ↔
      keyed.contains (position + (before.flatMap Slot.operands).length) = true ∧
        (before.flatMap Slot.operands).length + 1 < operands.length)

variable {keyed : KeyedMask} {position : Nat} {operands : List SymbolId} {slot : Slot}
  {slots : List Slot}

theorem divides_nil : Divides keyed position operands [] ↔ operands = [] := by
  refine ⟨fun h => h.flat.symm, ?_⟩
  rintro rfl
  exact ⟨rfl, by simp⟩

theorem divides_cons : Divides keyed position operands (slot :: slots) ↔
    ∃ rest, operands = slot.operands ++ rest ∧
      (slot.isKeyed = true ↔ keyed.contains position = true ∧ 1 < operands.length) ∧
      Divides keyed (position + slot.operands.length) rest slots := by
  constructor
  · intro h
    refine ⟨slots.flatMap Slot.operands, h.flat.symm, h.marked [] slot slots rfl, rfl, ?_⟩
    rintro before other after rfl
    have marked := h.marked (slot :: before) other after rfl
    rw [← h.flat] at marked
    simp only [List.flatMap_cons, List.length_append, Nat.add_assoc, Nat.add_lt_add_iff_left]
      at marked ⊢
    exact marked
  · rintro ⟨rest, rfl, first, h⟩
    refine ⟨by rw [List.flatMap_cons, h.flat], fun before other after split => ?_⟩
    cases before with
    | nil =>
        obtain ⟨rfl, _⟩ := List.cons.inj split
        exact first
    | cons head before =>
        obtain ⟨rfl, tail⟩ := List.cons.inj split
        have marked := h.marked before other after tail
        simp only [List.flatMap_cons, List.length_append, Nat.add_assoc,
          Nat.add_lt_add_iff_left] at marked ⊢
        exact marked

theorem divides_nil_operands : Divides keyed position [] slots ↔ slots = [] := by
  cases slots with
  | nil => exact divides_nil.trans (by simp)
  | cons slot slots => cases slot <;> simp [divides_cons, Slot.operands]

/-- There is one way to divide operands. -/
theorem divides_iff : Divides keyed position operands slots ↔
    slots = group keyed position operands := by
  fun_induction group keyed position operands generalizing slots with
  | case1 position => exact divides_nil_operands
  | case2 position operand =>
      cases slots with
      | nil => simp [divides_nil]
      | cons slot slots =>
          rw [divides_cons]
          cases slot <;> simp [Slot.operands, isKeyed, divides_nil_operands, @eq_comm _ operand]
  | case3 position first second rest marked ih =>
      cases slots with
      | nil => simp [divides_nil]
      | cons slot slots =>
          rw [divides_cons, List.cons.injEq, ← ih]
          cases slot <;> simp [Slot.operands, isKeyed, marked, @eq_comm _ first,
            @eq_comm _ second, and_assoc]
  | case4 position first second rest unmarked ih =>
      cases slots with
      | nil => simp [divides_nil]
      | cons slot slots =>
          rw [divides_cons, List.cons.injEq, ← ih]
          cases slot <;> simp [Slot.operands, isKeyed, unmarked, @eq_comm _ first]

theorem flatMap_group (keyed : KeyedMask) (position : Nat) (operands : List SymbolId) :
    (group keyed position operands).flatMap Slot.operands = operands :=
  (divides_iff.mpr rfl).flat

end Slot

theorem Context.flatMap_slots (c : Context) : c.slots.flatMap Slot.operands = c.operands :=
  Slot.flatMap_group c.keyed 0 c.operands

/-- Whether an operation reads the operand at a position. -/
def OpEntry.reads (entry : OpEntry) (position : Nat) : Bool :=
  (entry.directions[position]?).any Direction.reads

theorem getLsbD_foldl_mask {α : Type} (test : α → Bool) (position : Nat) (items : List α)
    (start : Nat) (bits : BitVec maskWidth) :
    ((items.zipIdx start).foldl (fun bits (item, position) =>
      if test item then bits ||| BitVec.twoPow maskWidth position else bits) bits).getLsbD
        position =
      (bits.getLsbD position || (decide (position < maskWidth) && decide (start ≤ position) &&
        (items[position - start]?).any test)) := by
  induction items generalizing start bits with
  | nil => simp
  | cons item items ih =>
      rw [List.zipIdx_cons, List.foldl_cons, ih]
      rcases Nat.lt_trichotomy start position with lt | rfl | lt
      · have next : position - start = position - (start + 1) + 1 := by omega
        have other : start ≠ position := Nat.ne_of_lt lt
        rw [next, List.getElem?_cons_succ]
        by_cases h : test item <;>
          simp [h, BitVec.getLsbD_twoPow, other, Nat.le_of_lt lt, Nat.succ_le_of_lt lt]
      · have past : ¬ start + 1 ≤ start := Nat.not_succ_le_self start
        by_cases h : test item <;> simp [h, BitVec.getLsbD_twoPow, past]
      · have other : start ≠ position := Nat.ne_of_gt lt
        have after : ¬ start ≤ position := Nat.not_le_of_lt lt
        have past : ¬ start + 1 ≤ position := by omega
        by_cases h : test item <;> simp [h, BitVec.getLsbD_twoPow, other, after, past]

theorem getLsbD_maskOf {α : Type} (test : α → Bool) (items : List α) (position : Nat) :
    (maskOf test items).getLsbD position =
      (decide (position < maskWidth) && (items[position]?).any test) := by
  rw [maskOf, getLsbD_foldl_mask]
  simp

theorem DirectionMask.reads_ofDirections (entry : OpEntry) :
    (DirectionMask.ofDirections entry.directions).reads 0 = entry.reads 0 :=
  (getLsbD_maskOf Direction.reads entry.directions 0).trans (Bool.true_and _)

namespace Signature

/-- Without keys, each operand has its own tag. -/
theorem of_empty (t : SymbolTable) (operands : List SymbolId) :
    Signature.of t operands .empty = operands.map fun id => ArgTag.of (t.get id) false := by
  have plain : ∀ position, KeyedMask.empty.isKey position = false := by
    intro position
    cases position <;> simp [KeyedMask.isKey, KeyedMask.contains, KeyedMask.empty]
  calc
    Signature.of t operands .empty
      = (operands.zipIdx.map Prod.fst).map fun id => ArgTag.of (t.get id) false := by
        simp only [Signature.of, plain, List.map_map, Function.comp_def]
    _ = _ := by rw [List.zipIdx_map_fst]

/-- Temporaries are plain registers of their class in a signature. -/
theorem of_registers {t : SymbolTable} {cls : ValueClass} {operands : List SymbolId}
    (registers : ∀ id ∈ operands, (t.get id).cls = cls ∧ (t.get id).kind = .var) :
    Signature.of t operands .empty = List.replicate operands.length (.register cls) := by
  rw [of_empty]
  refine List.eq_replicate_iff.mpr ⟨List.length_map _, ?_⟩
  intro tag mem
  obtain ⟨id, isOperand, rfl⟩ := List.mem_map.mp mem
  obtain ⟨class_, kind⟩ := registers id isOperand
  simp [ArgTag.of, class_, kind]

/-- An operation over aggregates only is named by as many tags of theirs. -/
theorem mangle_aggregates {t : SymbolTable} {operands : List SymbolId}
    (aggregates : ∀ id ∈ operands, (t.get id).cls = .aggregate ∧ (t.get id).kind = .var)
    (mnemonic : String) :
    (Signature.of t operands .empty).mangle mnemonic =
      fullName mnemonic (List.replicate operands.length "p") := by
  rw [of_registers aggregates, mangle, List.map_replicate]
  rfl

end Signature

namespace Selector

variable {s : Selector} {mnemonic : String} {operands : List SymbolId} {keyed : KeyedMask}
  {i : Instruction}

/-- A keyed position with a key behind it is checked for its class. -/
theorem checkKeyedAt_eq {position : Nat} {id : SymbolId} (place : operands[position]? = some id)
    (followed : position + 1 < operands.length) :
    s.checkKeyedAt operands position =
      if s.classOf id = .aggregate then .ok ()
      else .error (.rejected (.illegalKeyedOperand (s.symbols.get id).displayText
        (s.classOf id))) := by
  obtain ⟨inside, rfl⟩ := List.getElem?_eq_some_iff.mp place
  rw [checkKeyedAt, List.drop_eq_getElem_cons inside, List.drop_eq_getElem_cons followed]
  rfl

/-- A keyed position that is checked has a container and a key. -/
theorem checkKeyed_ok (h : s.checkKeyed operands keyed = .ok ()) {position : Nat}
    (marked : position ∈ keyed.positions) :
    ∃ container key rest, operands.drop position = container :: key :: rest ∧
      s.classOf container = .aggregate := by
  have checked := forM_eq_ok.mp h position marked
  unfold checkKeyedAt at checked
  split at checked
  · rename_i container key rest dropped
    dsimp only at checked
    split at checked
    · rename_i aggregate
      exact ⟨container, key, rest, dropped, aggregate⟩
    · cases checked
  · cases checked

/-- The instruction over these operands that stands for an entry of the catalog. -/
def instructionOf (s : Selector) (entry : OpEntry) (mnemonic : String) (operands : List SymbolId)
    (keyed : KeyedMask) : Instruction where
  mnemonic := mnemonic
  fullName := entry.fullName
  opcode := some entry.opcode
  operands := operands
  layout := operandLayout operands.length entry.directions.length keyed
  directions := .ofDirections entry.directions
  keyed := keyed
  kind := s.classify entry mnemonic operands

theorem build_eq_ok : s.build mnemonic operands keyed = .ok i ↔
    s.checkKeyed operands keyed = .ok () ∧
      ∃ entry, s.catalog.lookup ((Signature.of s.symbols operands keyed).mangle mnemonic) =
        some entry ∧ i = s.instructionOf entry mnemonic operands keyed := by
  unfold build
  rw [bind_eq_ok]
  dsimp only
  constructor
  · rintro ⟨_, checked, h⟩
    refine ⟨checked, ?_⟩
    split at h
    · cases h
    · rename_i entry found
      cases h
      exact ⟨entry, found, rfl⟩
  · rintro ⟨checked, entry, found, rfl⟩
    refine ⟨(), checked, ?_⟩
    rw [found]
    rfl

theorem build_ok (h : s.build mnemonic operands keyed = .ok i) :
    i.spelling = ⟨mnemonic, operands, keyed⟩ ∧
      ∃ entry, s.catalog.lookup ((Signature.of s.symbols operands keyed).mangle mnemonic) =
        some entry ∧ i.directions = .ofDirections entry.directions := by
  obtain ⟨_, entry, found, rfl⟩ := build_eq_ok.mp h
  exact ⟨rfl, entry, found, rfl⟩

theorem loadSlot_ok {slot : Slot} {temp : SymbolId} (h : s.loadSlot slot temp = .ok i) :
    i.spelling = slot.load temp := by
  cases slot with
  | plain operand | keyed container key => exact (build_ok h).1

theorem storeSlot_ok {slot : Slot} {temp : SymbolId} (h : s.storeSlot slot temp = .ok i) :
    i.spelling = slot.store temp := by
  cases slot with
  | plain operand | keyed container key => exact (build_ok h).1

/-- The temporaries that the expansion of a context takes. -/
def temporariesFor (s : Selector) (context : Context) : List SymbolId :=
  (s.symbols.temporaries s.names .aggregate context.slots.length).2.2

theorem temporariesFor_eq (s : Selector) (context : Context) :
    s.temporariesFor context = List.range' s.symbols.size context.slots.length := by
  obtain ⟨_, _, _, _, _, places⟩ :=
    s.symbols.temporaries_eq s.names .aggregate context.slots.length
  exact places

/-- The spelling that prepares the first temporary, and the table with what it needs. -/
inductive Prepares (s : Selector) (entry : OpEntry) (dest : Slot) (t : SymbolTable) :
    Spelling → SymbolTable → Prop where
  | load (reads : entry.reads 0 = true) : Prepares s entry dest t (dest.load s.symbols.size) t
  | create (type : Int) (overwrites : entry.reads 0 = false)
      (known : s.catalog.typeId s.config.initType = some type) :
      Prepares s entry dest t
        ⟨"new", [s.symbols.size, (t.constant (toString type) .integer).2], .empty⟩
        (t.constant (toString type) .integer).1

/-- An expanded group: the slots `dest :: others`, the numbers of the temporaries' names, the
catalog's entry for the operation, and the instructions. -/
structure Group where
  dest : Slot
  others : List Slot
  numbers : List Nat
  entry : OpEntry
  loads : List Instruction
  prepare : Instruction
  operation : Instruction
  writeBack : Instruction

def Group.instructions (g : Group) : List Instruction :=
  g.loads ++ [g.prepare, g.operation, g.writeBack]

/-- A successful expansion from `s` to `s'`. The temporaries are the next places of the
arena. -/
structure Expands (s : Selector) (mnemonic : String) (context : Context) (s' : Selector)
    (g : Group) : Prop where
  slots : context.slots = g.dest :: g.others
  length : g.numbers.length = context.slots.length
  sorted : g.numbers.Pairwise (· < ·)
  fresh : ∀ n ∈ g.numbers, s.symbols.lookup (ValueClass.aggregate.virtualRegister n) = none
  grows : s.symbols.Grows (s.symbols.withRegisters .aggregate g.numbers)
  found : s.catalog.lookup (fullName mnemonic (List.replicate context.slots.length "p")) =
    some g.entry
  instructions : s'.instructions = s.instructions ++ g.instructions
  loaded : g.loads.map Instruction.spelling =
    (g.others.zip (List.range' (s.symbols.size + 1) g.others.length)).map fun (slot, temp) =>
      slot.load temp
  prepared : Prepares s g.entry g.dest (s.symbols.withRegisters .aggregate g.numbers)
    g.prepare.spelling s'.symbols
  operated : g.operation.spelling =
    ⟨mnemonic, List.range' s.symbols.size context.slots.length, .empty⟩
  written : g.writeBack.spelling = g.dest.store s.symbols.size

variable {context : Context} {first : Nat} {fault : Fault}

theorem slots_ne_nil (checked : s.checkKeyed context.operands context.keyed = .ok ())
    (keys : 2 ≤ context.keyed.count) : context.slots ≠ [] := by
  intro none
  have operands : context.operands = [] := by
    rw [← context.flatMap_slots, none, List.flatMap_nil]
  obtain ⟨position, marked⟩ : ∃ position, position ∈ context.keyed.positions :=
    List.exists_mem_of_length_pos (Nat.lt_of_lt_of_le Nat.zero_lt_two keys)
  obtain ⟨container, key, rest, dropped, _⟩ := checkKeyed_ok checked marked
  rw [operands, List.drop_nil] at dropped
  cases dropped

/-- The selector with the temporaries of a context. -/
def withTemporaries (s : Selector) (context : Context) : Selector :=
  let (symbols, names, _) := s.symbols.temporaries s.names .aggregate context.slots.length
  { s with symbols, names }

/-- An expansion is what its group makes of the selector with the temporaries. -/
theorem expand_eq (checked : s.checkKeyed context.operands context.keyed = .ok ()) :
    s.expand mnemonic context =
      match (s.withTemporaries context).buildGroup mnemonic
        (context.slots.zip (s.temporariesFor context)) with
      | (t, .error fault) =>
          ({ t with symbols := t.symbols.truncate s.symbols.size, names := s.names },
            .error fault)
      | (t, .ok group) => t.emit group := by
  unfold expand
  rw [checked]
  rfl

/-- A successful expansion has its containers and keys in place, and emits the group that it
built. -/
theorem expand_ok {t : Selector} {first : Nat} (h : s.expand mnemonic context = (t, .ok first)) :
    s.checkKeyed context.operands context.keyed = .ok () ∧
      ∃ after group, (s.withTemporaries context).buildGroup mnemonic
          (context.slots.zip (s.temporariesFor context)) = (after, .ok group) ∧
        t = { after with instructions := after.instructions ++ group } := by
  cases checked : s.checkKeyed context.operands context.keyed with
  | error fault => simp [expand, checked] at h
  | ok =>
      rw [expand_eq checked] at h
      split at h
      · cases h
      · rename_i after group built
        cases h
        exact ⟨rfl, after, group, built, rfl⟩

theorem resolve_ok {t : Selector} {first : Nat} (h : s.resolve mnemonic context = (t, .ok first)) :
    (2 ≤ context.keyed.count ∧ s.expand mnemonic context = (t, .ok first)) ∨
    (context.keyed.count ≤ 1 ∧ ∃ i, s.build mnemonic context.operands context.keyed = .ok i ∧
      t = { s with instructions := s.instructions ++ [i] }) := by
  unfold resolve at h
  split at h
  · rename_i keys
    exact .inl ⟨keys, h⟩
  · rename_i keys
    split at h
    · cases h
    · rename_i i built
      cases h
      exact .inr ⟨Nat.le_of_not_lt keys, i, built, rfl⟩

/-- The operation, the write-back and the loads are built one after the other. -/
theorem buildFixed_built {dest : Slot × SymbolId} {others : List (Slot × SymbolId)}
    {operation writeBack : Instruction} {loads : List Instruction}
    (h : s.buildFixed mnemonic dest others = .ok (operation, writeBack, loads)) :
    s.build mnemonic (dest.2 :: others.map Prod.snd) .empty = .ok operation ∧
      s.storeSlot dest.1 dest.2 = .ok writeBack ∧
      others.mapM (fun (slot, temp) => s.loadSlot slot temp) = .ok loads := by
  obtain ⟨_, built, h⟩ := bind_eq_ok.mp h
  obtain ⟨_, stored, h⟩ := bind_eq_ok.mp h
  obtain ⟨_, loaded, h⟩ := bind_eq_ok.mp h
  cases h
  exact ⟨built, stored, loaded⟩

theorem buildFixed_ok {dest : Slot × SymbolId} {others : List (Slot × SymbolId)}
    {operation writeBack : Instruction} {loads : List Instruction}
    (h : s.buildFixed mnemonic dest others = .ok (operation, writeBack, loads)) :
    s.build mnemonic (dest.2 :: others.map Prod.snd) .empty = .ok operation ∧
      writeBack.spelling = dest.1.store dest.2 ∧
      loads.map Instruction.spelling = others.map fun (slot, temp) => slot.load temp := by
  obtain ⟨built, stored, loaded⟩ := buildFixed_built h
  have spelled := (mapM_eq_ok.mp loaded).imp fun _ _ h => (loadSlot_ok h).symm
  rw [← List.forall₂_map_right_iff (f := Instruction.spelling), ← List.forall₂_map_left_iff,
    List.forall₂_eq_eq_eq] at spelled
  exact ⟨built, storeSlot_ok stored, spelled.symm⟩

theorem aggregateType_eq_ok {t : Selector} {name : String} {id : SymbolId} :
    s.aggregateType name = (t, .ok id) ↔
      ∃ type, s.catalog.typeId name = some type ∧
        t = { s with symbols := (s.symbols.constant (toString type) .integer).1 } ∧
        id = (s.symbols.constant (toString type) .integer).2 := by
  unfold aggregateType
  cases s.catalog.typeId name with
  | none => simp
  | some type => simp [eq_comm]

/-- The first temporary is loaded, or made from the number of the initial type. -/
theorem prepareSlot_eq_ok {operation prepare : Instruction} {slot : Slot} {temp : SymbolId}
    {t : Selector} :
    s.prepareSlot operation slot temp = (t, .ok prepare) ↔
      (operation.directions.reads 0 = true ∧ t = s ∧ s.loadSlot slot temp = .ok prepare) ∨
      (operation.directions.reads 0 = false ∧
        ∃ type, s.aggregateType s.config.initType = (t, .ok type) ∧
          t.build "new" [temp, type] .empty = .ok prepare) := by
  unfold prepareSlot
  cases operation.directions.reads 0 with
  | true => simp [eq_comm]
  | false =>
      rcases s.aggregateType s.config.initType with ⟨u, fault | type⟩
      · simp
      · simp only [Bool.false_eq_true, ↓reduceIte, Prod.mk.injEq, Except.ok.injEq, false_and,
          true_and, false_or]
        exact ⟨fun ⟨same, built⟩ => ⟨type, ⟨same, rfl⟩, same ▸ built⟩,
          fun ⟨_, ⟨same, number⟩, built⟩ => ⟨same, by rwa [same, number]⟩⟩

theorem prepareSlot_ok {operation prepare : Instruction} {slot : Slot} {temp : SymbolId}
    {t : Selector} (h : s.prepareSlot operation slot temp = (t, .ok prepare)) :
    t.instructions = s.instructions ∧
      (operation.directions.reads 0 = true ∧ t.symbols = s.symbols ∧
          prepare.spelling = slot.load temp ∨
        operation.directions.reads 0 = false ∧
          ∃ type, s.catalog.typeId s.config.initType = some type ∧
            t.symbols = (s.symbols.constant (toString type) .integer).1 ∧
            prepare.spelling =
              ⟨"new", [temp, (s.symbols.constant (toString type) .integer).2], .empty⟩) := by
  rcases prepareSlot_eq_ok.mp h with ⟨reads, rfl, loaded⟩ | ⟨overwrites, id, made, built⟩
  · exact ⟨rfl, .inl ⟨reads, rfl, loadSlot_ok loaded⟩⟩
  · obtain ⟨type, known, rfl, rfl⟩ := aggregateType_eq_ok.mp made
    exact ⟨rfl, .inr ⟨overwrites, type, known, rfl, (build_ok built).1⟩⟩

/-- The operation is looked up over registers alone. -/
theorem lookup_operation {t : SymbolTable} {numbers : List Nat} {temps : List SymbolId}
    {operation : Instruction} (symbols : s.symbols = t.withRegisters .aggregate numbers)
    (places : temps = List.range' t.size numbers.length)
    (built : s.build mnemonic temps .empty = .ok operation) :
    ∃ entry, s.catalog.lookup (fullName mnemonic (List.replicate numbers.length "p")) =
        some entry ∧ operation.directions.reads 0 = entry.reads 0 := by
  obtain ⟨_, entry, found, directions⟩ := build_ok built
  have aggregates := SymbolTable.register_withRegisters symbols
  rw [← places] at aggregates
  rw [Signature.mangle_aggregates aggregates, places, List.length_range'] at found
  exact ⟨entry, found, directions ▸ DirectionMask.reads_ofDirections entry⟩

theorem buildGroup_ok {dest : Slot × SymbolId} {others : List (Slot × SymbolId)} {t : Selector}
    {group : List Instruction} (h : s.buildGroup mnemonic (dest :: others) = (t, .ok group)) :
    ∃ operation writeBack loads prepare,
      s.buildFixed mnemonic dest others = .ok (operation, writeBack, loads) ∧
        s.prepareSlot operation dest.1 dest.2 = (t, .ok prepare) ∧
        group = loads ++ [prepare, operation, writeBack] := by
  unfold buildGroup at h
  cases fixed : s.buildFixed mnemonic dest others with
  | error fault => simp [fixed] at h
  | ok parts =>
      obtain ⟨operation, writeBack, loads⟩ := parts
      cases prepared : s.prepareSlot operation dest.1 dest.2 with
      | mk after result =>
          cases result with
          | error fault => simp [fixed, prepared, Except.map] at h
          | ok prepare =>
              simp only [fixed, prepared, Except.map, Prod.mk.injEq, Except.ok.injEq] at h
              obtain ⟨rfl, rfl⟩ := h
              exact ⟨operation, writeBack, loads, prepare, rfl, prepared, rfl⟩

/-- Where the instructions of a group come from. -/
theorem buildGroup_mem {dest : Slot × SymbolId} {others : List (Slot × SymbolId)} {t : Selector}
    {group : List Instruction} {i : Instruction}
    (h : s.buildGroup mnemonic (dest :: others) = (t, .ok group)) (mem : i ∈ group) :
    (∃ pair ∈ others, s.loadSlot pair.1 pair.2 = .ok i) ∨
      (∃ operation, s.prepareSlot operation dest.1 dest.2 = (t, .ok i)) ∨
      s.build mnemonic ((dest :: others).map Prod.snd) .empty = .ok i ∨
      s.storeSlot dest.1 dest.2 = .ok i := by
  obtain ⟨operation, writeBack, loads, prepare, fixed, prepared, rfl⟩ := buildGroup_ok h
  obtain ⟨operated, stored, loaded⟩ := buildFixed_built fixed
  simp only [List.mem_append, List.mem_cons, List.not_mem_nil, or_false] at mem
  rcases mem with isLoad | rfl | rfl | rfl
  · exact .inl (exists_mem_of_forall₂ (mapM_eq_ok.mp loaded).flip isLoad)
  · exact .inr (.inl ⟨operation, prepared⟩)
  · exact .inr (.inr (.inl operated))
  · exact .inr (.inr (.inr stored))

/-- The slots with their temporaries, which begin at the end of the arena. -/
theorem zip_temporaries {dest : Slot} {others : List Slot}
    (slots : context.slots = dest :: others) :
    context.slots.zip (s.temporariesFor context) =
      (dest, s.symbols.size) :: others.zip (List.range' (s.symbols.size + 1) others.length) := by
  rw [temporariesFor_eq, slots, List.length_cons, List.range'_succ, List.zip_cons_cons]

theorem map_snd_zip_temporaries {dest : Slot} {others : List Slot}
    (slots : context.slots = dest :: others) :
    s.symbols.size ::
        (others.zip (List.range' (s.symbols.size + 1) others.length)).map Prod.snd =
      List.range' s.symbols.size context.slots.length := by
  rw [List.map_snd_zip (by simp), slots, List.length_cons, List.range'_succ]

/-- A group that is built over the temporaries of a context expands it. -/
theorem expands_of_buildGroup {dest : Slot} {others : List Slot} {t : Selector}
    {group : List Instruction} (slots : context.slots = dest :: others)
    (built : (s.withTemporaries context).buildGroup mnemonic
      ((dest, s.symbols.size) ::
        others.zip (List.range' (s.symbols.size + 1) others.length)) = (t, .ok group)) :
    t.instructions = s.instructions ∧ ∃ g, Expands s mnemonic context (t.emit group).1 g := by
  obtain ⟨numbers, length, sorted, fresh, table, _⟩ :=
    s.symbols.temporaries_eq s.names .aggregate context.slots.length
  obtain ⟨operation, writeBack, loads, prepare, fixed, prepared, rfl⟩ := buildGroup_ok built
  obtain ⟨operated, written, loaded⟩ := buildFixed_ok fixed
  obtain ⟨kept, how⟩ := prepareSlot_ok prepared
  have symbols : (s.withTemporaries context).symbols =
      s.symbols.withRegisters .aggregate numbers := table
  rw [map_snd_zip_temporaries slots] at operated
  obtain ⟨entry, found, reads⟩ := lookup_operation symbols (length ▸ rfl) operated
  rw [reads, symbols] at how
  refine ⟨kept, ⟨dest, others, numbers, entry, loads, prepare, operation, writeBack⟩, ?_⟩
  refine ⟨slots, length, sorted, fun n mem => (fresh n mem).2,
    table ▸ SymbolTable.grows_temporaries .., length ▸ found, congrArg (· ++ _) kept, loaded, ?_,
    (build_ok operated).1, written⟩
  rcases how with ⟨reads, same, spelled⟩ | ⟨overwrites, type, known, grown, spelled⟩
  · rw [spelled]
    exact same ▸ .load reads
  · rw [spelled]
    exact grown ▸ .create type overwrites known

theorem resolve_expands (keys : 2 ≤ context.keyed.count)
    (resolved : (s.resolve mnemonic context).2 = .ok first) :
    first = s.instructions.length ∧
      ∃ g, Expands s mnemonic context (s.resolve mnemonic context).1 g := by
  rw [resolve, if_pos keys] at resolved ⊢
  cases checked : s.checkKeyed context.operands context.keyed with
  | error fault => simp [expand, checked] at resolved
  | ok =>
      obtain ⟨dest, others, slots⟩ := List.exists_cons_of_ne_nil (slots_ne_nil checked keys)
      rw [expand_eq checked, zip_temporaries slots] at resolved ⊢
      cases built : (s.withTemporaries context).buildGroup mnemonic
          ((dest, s.symbols.size) ::
            others.zip (List.range' (s.symbols.size + 1) others.length)) with
      | mk t result =>
          cases result with
          | error fault => simp [built] at resolved
          | ok group =>
              rw [built] at resolved
              obtain ⟨kept, expands⟩ := expands_of_buildGroup slots built
              exact ⟨(Except.ok.inj resolved).symm.trans (congrArg List.length kept), expands⟩

section Expands

variable {s' : Selector} {g : Group}

theorem Expands.spelled (h : Expands s mnemonic context s' g) :
    g.instructions.map Instruction.spelling =
      (g.others.zip (List.range' (s.symbols.size + 1) g.others.length)).map
          (fun (slot, temp) => slot.load temp) ++
        [g.prepare.spelling,
          ⟨mnemonic, List.range' s.symbols.size context.slots.length, .empty⟩,
          g.dest.store s.symbols.size] := by
  simp [Group.instructions, h.loaded, h.operated, h.written]

theorem Expands.group_length (h : Expands s mnemonic context s' g) :
    g.instructions.length = context.slots.length + 2 := by
  have count := congrArg List.length h.spelled
  simpa [h.slots] using count

/-- The first temporary belongs to the first slot. -/
theorem Expands.temporaries_cons (h : Expands s mnemonic context s' g) :
    List.range' s.symbols.size context.slots.length =
      s.symbols.size :: List.range' (s.symbols.size + 1) g.others.length := by
  rw [h.slots, List.length_cons, List.range'_succ]

/-- The operands of the slots are those of the context. -/
theorem Expands.mem_operands (h : Expands s mnemonic context s' g) {slot : Slot} {id : Nat}
    (mem : slot ∈ g.dest :: g.others) (inside : id ∈ slot.operands) : id ∈ context.operands := by
  rw [← context.flatMap_slots, h.slots]
  exact List.mem_flatMap.mpr ⟨slot, mem, inside⟩

end Expands

/-- The symbols that the preparation adds: none, or the number of the initial type. -/
theorem Prepares.added {s : Selector} {entry : OpEntry} {dest : Slot} {t u : SymbolTable}
    {spelling : Spelling} (h : Prepares s entry dest t spelling u) :
    ∃ added, u.symbols = t.symbols ++ added ∧
      (added = [] ∨ entry.reads 0 = false ∧ ∃ type,
        s.catalog.typeId s.config.initType = some type ∧
          added = [⟨toString type, .integer, .constant⟩]) := by
  cases h with
  | load => exact ⟨[], (List.append_nil _).symm, .inl rfl⟩
  | create type overwrites known =>
      rcases SymbolTable.constant_cases t (toString type) .integer with ⟨id, _, eq⟩ | ⟨_, eq⟩
      · rw [eq]
        exact ⟨[], (List.append_nil _).symm, .inl rfl⟩
      · rw [eq]
        exact ⟨_, rfl, .inr ⟨overwrites, type, known, rfl⟩⟩

theorem Prepares.spelled {s : Selector} {entry : OpEntry} {dest : Slot} {t u : SymbolTable}
    {spelling : Spelling} (wf : t.WellFormed) (h : Prepares s entry dest t spelling u) :
    entry.reads 0 = true ∧ spelling = dest.load s.symbols.size ∨
      entry.reads 0 = false ∧ ∃ type constant,
        s.catalog.typeId s.config.initType = some type ∧
        u.get constant = ⟨toString type, .integer, .constant⟩ ∧
        spelling = ⟨"new", [s.symbols.size, constant], .empty⟩ := by
  cases h with
  | load reads => exact .inl ⟨reads, rfl⟩
  | create type overwrites known =>
      exact .inr ⟨overwrites, type, _, known, (SymbolTable.constant_ok wf _ _).2, rfl⟩

/-- The slots are the one division of the operands that the mask allows. An expansion of `n` slots
appends `n + 2` instructions: the loads of the slots after the first into their temporaries, the
preparation of the first temporary, the operation on the temporaries, and the store into the first
slot. The temporaries are new variables at the end of the arena whose names were free. -/
theorem expansion_shape (s : Selector) (mnemonic : String) (context : Context) (first : Nat)
    (wf : s.symbols.WellFormed) (keys : 2 ≤ context.keyed.count)
    (resolved : (s.resolve mnemonic context).2 = .ok first) :
    (∀ slots, Slot.Divides context.keyed 0 context.operands slots ↔ slots = context.slots) ∧
    context.slots.flatMap Slot.operands = context.operands ∧
    first = s.instructions.length ∧
    ∃ (dest : Slot) (others : List Slot) (entry : OpEntry) (group : List Instruction)
      (prepare : Spelling) (numbers : List Nat) (added : List Symbol),
      context.slots = dest :: others ∧
      s.catalog.lookup (fullName mnemonic (List.replicate context.slots.length "p")) =
        some entry ∧
      (s.resolve mnemonic context).1.instructions = s.instructions ++ group ∧
      group.length = context.slots.length + 2 ∧
      group.map Instruction.spelling =
        (others.zip (List.range' (s.symbols.size + 1) others.length)).map
            (fun (slot, temp) => slot.load temp) ++
          [prepare, ⟨mnemonic, List.range' s.symbols.size context.slots.length, .empty⟩,
            dest.store s.symbols.size] ∧
      (entry.reads 0 = true ∧ prepare = dest.load s.symbols.size ∨
        entry.reads 0 = false ∧ ∃ type constant,
          s.catalog.typeId s.config.initType = some type ∧
          (s.resolve mnemonic context).1.symbols.get constant =
            ⟨toString type, .integer, .constant⟩ ∧
          prepare = ⟨"new", [s.symbols.size, constant], .empty⟩) ∧
      numbers.length = context.slots.length ∧
      numbers.Pairwise (· < ·) ∧
      (∀ n ∈ numbers, s.symbols.lookup (ValueClass.aggregate.virtualRegister n) = none) ∧
      (s.resolve mnemonic context).1.symbols.symbols =
        s.symbols.symbols ++
          numbers.map (fun n => ⟨ValueClass.aggregate.virtualRegister n, .aggregate, .var⟩) ++
          added ∧
      (added = [] ∨ entry.reads 0 = false ∧ ∃ type,
        s.catalog.typeId s.config.initType = some type ∧
          added = [⟨toString type, .integer, .constant⟩]) := by
  obtain ⟨place, g, h⟩ := resolve_expands keys resolved
  obtain ⟨added, symbols, only⟩ := h.prepared.added
  exact ⟨fun _ => Slot.divides_iff, context.flatMap_slots, place, g.dest, g.others, g.entry,
    g.instructions, g.prepare.spelling, g.numbers, added, h.slots, h.found, h.instructions,
    h.group_length, h.spelled, h.prepared.spelled (wf.grows h.grows), h.length, h.sorted, h.fresh,
    symbols, only⟩

open BuiltIn in
/-- A product of aggregates, and what its expansion takes. -/
def sampleCatalog : Catalog :=
  [op "set" [out "p", use "p"], op "set" [out "p", use "p", use "kic"],
    op "set" [update "p", use "kic", use "p"], op "new" [out "p", use "ic"],
    op "mul" [out "p", use "p", use "p"]].foldl Catalog.insert
      { types := [("Undef", 0), ("Hash", 5)] }

/-- Two aggregates, a key and a register that bears the name of a temporary. -/
def sample : Selector where
  catalog := sampleCatalog
  config := {}
  symbols :=
    { symbols := [⟨"a", .aggregate, .var⟩, ⟨"b", .aggregate, .var⟩, ⟨"0", .integer, .constant⟩,
        ⟨"$P2", .aggregate, .var⟩]
      names := [("a", 0), ("b", 1), ("$P2", 3)]
      constants := [(("0", .integer), 2)] }

/-- The operands of `a[0], $P2, b[0]`. -/
def sampleContext : Context where
  maxArity := 6
  operands := [0, 2, 3, 1, 2]
  keyed := (KeyedMask.single 0).insert 3

theorem resolve_sample : (sample.resolve "mul" sampleContext).2 = .ok 0 := by decide +kernel

/-- The operands are divided by the marks: the second slot is plain. -/
theorem expansion_shape_mul :
    sample.symbols.WellFormed ∧ 2 ≤ sampleContext.keyed.count ∧
      (sample.resolve "mul" sampleContext).2 = .ok 0 ∧
      Slot.Divides sampleContext.keyed 0 sampleContext.operands
        [.keyed 0 2, .plain 3, .keyed 1 2] ∧
      ∃ (group : List Instruction) (numbers : List Nat),
        (sample.resolve "mul" sampleContext).1.instructions = sample.instructions ++ group ∧
        group.length = 5 ∧ numbers.length = 3 ∧ numbers.Pairwise (· < ·) ∧
        ∀ n ∈ numbers, sample.symbols.lookup (ValueClass.aggregate.virtualRegister n) = none := by
  have wf : sample.symbols.WellFormed := by decide +kernel
  have keys : 2 ≤ sampleContext.keyed.count := by decide
  obtain ⟨divided, _, _, _, _, _, group, _, numbers, _, _, _, instructions, length, _, _, count,
    sorted, fresh, _⟩ := expansion_shape sample "mul" sampleContext 0 wf keys resolve_sample
  exact ⟨wf, keys, resolve_sample, (divided _).mpr (by decide +kernel), group, numbers,
    instructions, length, count, sorted, fresh⟩

end Selector
end OpSelect
