import OpSelect.Proofs.Selector.Justified
import OpSelect.Proofs.Selector.Slots

/-!
The selector with checks. Some steps of the selector rely on what they are given: an id is one of
the table, an index is inside its list, a container has its key, an operation that is expanded has
two keyed operands and one that is built has fewer. Here every such step checks this first, and a
run ends at the first breach. For contexts over known symbols whose containers have their keys no
check fails, and the result is what the selector gives without checks.
-/

namespace OpSelect

/-- What a check found. -/
inductive Breach where
  | unknownSymbol (id : SymbolId)
  | operandOutOfRange (position : Nat)
  | slotOutOfRange (position : Nat)
  | keyedCount (count : Nat)
  | misuse (misuse : Misuse)
  | emptyChain
  | overflow (value : Nat)
deriving DecidableEq, Repr

/-- A run that ends at the first breach. -/
abbrev Checked := Except Breach

namespace Checked

def require (condition : Prop) [Decidable condition] (breach : Breach) : Checked Unit :=
  if condition then .ok () else .error breach

/-- The item at an index. -/
def item {α : Type} (items : List α) (position : Nat) (breach : Nat → Breach) : Checked α :=
  match items[position]? with
  | some found => .ok found
  | none => .error (breach position)

/-- The symbol is looked at. -/
def known (t : SymbolTable) (id : SymbolId) : Checked Unit :=
  require (id < t.size) (.unknownSymbol id)

/-- The symbol that a name leads to is looked at, if there is one. -/
def leads (t : SymbolTable) (name : String) : Checked Unit :=
  match t.lookup name with
  | some id => known t id
  | none => .ok ()

/-- Misuse of the selector is a breach. -/
def settled {α : Type} : Except Fault α → Checked (Except Fault α)
  | .error (.misuse misuse) => .error (.misuse misuse)
  | result => .ok result

/-- The slots from a position on, read off by index. -/
def group (keyed : KeyedMask) (operands : List SymbolId) (position : Nat) : Checked (List Slot) :=
  if position < operands.length then do
    let first ← item operands position .operandOutOfRange
    if keyed.contains position then
      let second ← item operands (position + 1) .operandOutOfRange
      return .keyed first second :: (← group keyed operands (position + 2))
    else
      return .plain first :: (← group keyed operands (position + 1))
  else return []
termination_by operands.length - position

/-- The operands are looked at for their tags, and the containers for their classes. -/
def build (s : Selector) (mnemonic : String) (operands : List SymbolId) (keyed : KeyedMask) :
    ExceptT Fault Checked Instruction := ExceptT.mk do
  require (keyed.count < 2) (.keyedCount keyed.count)
  operands.forM (known s.symbols)
  settled (s.build mnemonic operands keyed)

def loadSlot (s : Selector) (slot : Slot) (temp : SymbolId) : ExceptT Fault Checked Instruction :=
  match slot with
  | .keyed container key => build s "set" [temp, container, key] (.single 1)
  | .plain operand => build s "set" [temp, operand] .empty

def storeSlot (s : Selector) (slot : Slot) (temp : SymbolId) : ExceptT Fault Checked Instruction :=
  match slot with
  | .keyed container key => build s "set" [container, key, temp] (.single 0)
  | .plain operand => build s "set" [operand, temp] .empty

def prepareSlot (s : Selector) (operation : Instruction) (slot : Slot) (temp : SymbolId) :
    Checked (Selector × Except Fault Instruction) := do
  if operation.directions.reads 0 then
    return (s, ← (loadSlot s slot temp).run)
  else match s.aggregateType s.config.initType with
    | (t, .error fault) => return (t, .error fault)
    | (t, .ok type) => return (t, ← (build t "new" [temp, type] .empty).run)

def buildFixed (s : Selector) (mnemonic : String) (slots : List Slot) (temps : List SymbolId) :
    ExceptT Fault Checked (Instruction × Instruction × List Instruction) := do
  let operation ← build s mnemonic temps .empty
  let slot ← ExceptT.lift (item slots 0 .slotOutOfRange)
  let temp ← ExceptT.lift (item temps 0 .slotOutOfRange)
  let writeBack ← storeSlot s slot temp
  let loads ← ((slots.zip temps).drop 1).mapM fun (slot, temp) => loadSlot s slot temp
  return (operation, writeBack, loads)

def buildGroup (s : Selector) (mnemonic : String) (slots : List Slot) (temps : List SymbolId) :
    Checked (Selector × Except Fault (List Instruction)) := do
  match ← (buildFixed s mnemonic slots temps).run with
  | .error fault => return (s, .error fault)
  | .ok (operation, writeBack, loads) =>
      let slot ← item slots 0 .slotOutOfRange
      let temp ← item temps 0 .slotOutOfRange
      let (t, prepared) ← prepareSlot s operation slot temp
      return (t, prepared.map fun prepare => loads ++ [prepare, operation, writeBack])

def expand (s : Selector) (mnemonic : String) (context : Context) :
    Checked (Selector × Except Fault Nat) := do
  require (2 ≤ context.keyed.count) (.keyedCount context.keyed.count)
  context.operands.forM (known s.symbols)
  match ← settled (s.checkKeyed context.operands context.keyed) with
  | .error fault => return (s, .error fault)
  | .ok () =>
      let slots ← group context.keyed context.operands 0
      let (symbols, names, temps) := s.symbols.temporaries s.names .aggregate slots.length
      match ← buildGroup { s with symbols, names } mnemonic slots temps with
      | (t, .error fault) =>
          return ({ t with symbols := t.symbols.truncate s.symbols.size, names := s.names },
            .error fault)
      | (t, .ok group) => return t.emit group

def resolve (s : Selector) (mnemonic : String) (context : Context) :
    Checked (Selector × Except Fault Nat) := do
  if 2 ≤ context.keyed.count then expand s mnemonic context
  else match ← (build s mnemonic context.operands context.keyed).run with
    | .error fault => return (s, .error fault)
    | .ok instruction => return s.emit [instruction]

def resolveSlots (s : Selector) (mnemonic : String) (slots : List Slot) :
    Checked (Selector × Except Fault Nat) := do
  match ← settled (s.context.fill slots) with
  | .error fault => return (s, .error fault)
  | .ok context => resolve s mnemonic context

def fetchIndexed (s : Selector) (dest container key : SymbolId) :
    Checked (Selector × Except Fault Nat) := do
  [dest, container, key].forM (known s.symbols)
  match s.classOf dest, s.classOf container, s.classOf key with
  | .string, .string, .integer =>
      let (t, one) := s.one
      resolveSlots t "substr" [.plain dest, .plain container, .plain key, .plain one]
  | _, _, _ => resolveSlots s "set" [.plain dest, .keyed container key]

def storeIndexed (s : Selector) (container key value : SymbolId) :
    Checked (Selector × Except Fault Nat) := do
  [container, key, value].forM (known s.symbols)
  match s.classOf container, s.classOf key, s.classOf value with
  | .string, .integer, .string =>
      let (t, one) := s.one
      resolveSlots t "substr" [.plain container, .plain key, .plain one, .plain value]
  | .aggregate, _, _ => resolveSlots s "set" [.keyed container key, .plain value]
  | container, key, value =>
      return (s, .error (.rejected (.unsupportedIndexedAssignment container key value)))

end Checked

def Fault.IsMisuse : Fault → Prop
  | .misuse _ => True
  | .rejected _ => False

/-- A marked container has its key among so many operands. -/
def KeyedMask.HasKeys (m : KeyedMask) (count : Nat) : Prop :=
  ∀ position, m.contains position = true → position + 1 < count

theorem KeyedMask.hasKeys_empty (count : Nat) : KeyedMask.empty.HasKeys count := by
  intro position marked
  rw [contains_empty] at marked
  cases marked

theorem KeyedMask.HasKeys.of_mem_positions {m : KeyedMask} {count position : Nat}
    (h : m.HasKeys count) (mem : position ∈ m.positions) : position + 1 < count :=
  h position (List.mem_filter.mp mem).2

theorem KeyedMask.HasKeys.mono {m : KeyedMask} {count more : Nat} (h : m.HasKeys count)
    (le : count ≤ more) : m.HasKeys more :=
  fun position marked => Nat.lt_of_lt_of_le (h position marked) le

theorem KeyedMask.HasKeys.insert {m : KeyedMask} {count position : Nat} (h : m.HasKeys count)
    (inside : position + 1 < count) : (m.insert position).HasKeys count := by
  intro other marked
  by_cases same : position = other
  · exact same ▸ inside
  · rw [contains_insert_ne same] at marked
    exact h other marked

theorem KeyedMask.hasKeys_single {count position : Nat} (inside : position + 1 < count) :
    (KeyedMask.single position).HasKeys count :=
  (hasKeys_empty count).insert inside

namespace Checked

section Passes

variable {ε α β : Type} {isMisuse : ε → Prop}

/-- No check fails, the outcome is the given one, and it is no misuse. -/
structure Passes (isMisuse : ε → Prop) (checked : ExceptT ε Checked α) (outcome : Except ε α) :
    Prop where
  run : checked.run = .ok outcome
  proper : ∀ e, outcome = .error e → ¬ isMisuse e

theorem passes_ok (a : α) : Passes isMisuse (ExceptT.mk (.ok (.ok a))) (.ok a) :=
  ⟨rfl, nofun⟩

/-- A check before a step. -/
theorem Passes.after {check : Checked β} {b : β} {step : β → ExceptT ε Checked α}
    {outcome : Except ε α} (passed : check = .ok b) (h : Passes isMisuse (step b) outcome) :
    Passes isMisuse (ExceptT.lift check >>= step) outcome := by
  rw [passed]
  exact h

theorem Passes.bind {checked : ExceptT ε Checked α} {m : Except ε α}
    {next : α → ExceptT ε Checked β} {f : α → Except ε β} (h : Passes isMisuse checked m)
    (k : ∀ a, m = .ok a → Passes isMisuse (next a) (f a)) :
    Passes isMisuse (checked >>= next) (m >>= f) := by
  cases m with
  | error e =>
      refine ⟨?_, fun e' same => ?_⟩
      · rw [ExceptT.run_bind, h.run]
        rfl
      · cases same
        exact h.proper e rfl
  | ok a =>
      refine ⟨?_, (k a rfl).proper⟩
      rw [ExceptT.run_bind, h.run]
      exact (k a rfl).run

theorem passes_mapM {next : α → ExceptT ε Checked β} {f : α → Except ε β} {as : List α}
    (h : ∀ a ∈ as, Passes isMisuse (next a) (f a)) :
    Passes isMisuse (as.mapM next) (as.mapM f) := by
  induction as with
  | nil => exact passes_ok []
  | cons a as ih =>
      obtain ⟨first, others⟩ := List.forall_mem_cons.mp h
      rw [List.mapM_cons, List.mapM_cons]
      exact first.bind fun b _ => (ih others).bind fun bs _ => passes_ok (b :: bs)

/-- The same for a step of the selector, which gives back the selector with its outcome. -/
structure Answers (checked : Checked (Selector × Except Fault α))
    (answer : Selector × Except Fault α) : Prop where
  run : checked = .ok answer
  proper : ∀ fault, answer.2 = .error fault → ¬ fault.IsMisuse

theorem answers_ok (s : Selector) (a : α) : Answers (.ok (s, .ok a)) (s, .ok a) :=
  ⟨rfl, fun _ same => by cases same⟩

theorem answers_error (s : Selector) {fault : Fault} (h : ¬ fault.IsMisuse) :
    Answers (.ok (s, .error fault)) ((s, .error fault) : Selector × Except Fault α) := by
  refine ⟨rfl, fun _ same => ?_⟩
  cases same
  exact h

end Passes

section Checks

variable {t : SymbolTable} {ids : List SymbolId} {id : SymbolId} {α : Type}

theorem require_eq_ok {condition : Prop} [Decidable condition] {breach : Breach} :
    require condition breach = .ok () ↔ condition := by
  refine ⟨fun passed => ?_, fun met => if_pos met⟩
  by_contra unmet
  rw [require, if_neg unmet] at passed
  cases passed

theorem item_ok {items : List α} {position : Nat} (inside : position < items.length)
    (breach : Nat → Breach) : item items position breach = .ok (items.get ⟨position, inside⟩) := by
  simp [item, inside]

theorem known_eq_ok : ids.forM (known t) = .ok () ↔ ∀ id ∈ ids, id < t.size := by
  rw [forM_eq_ok]
  exact forall₂_congr fun id mem => require_eq_ok

theorem leads_ok (wf : t.WellFormed) (name : String) : leads t name = .ok () := by
  unfold leads
  split
  · rename_i id found
    exact require_eq_ok.mpr (wf.lt_of_lookup found)
  · rfl

theorem settled_eq_ok {result : Except Fault α} :
    settled result = .ok result ↔ ∀ fault, result = .error fault → ¬ fault.IsMisuse := by
  constructor
  · rintro passed fault rfl isMisuse
    cases fault with
    | misuse misuse => cases passed
    | rejected error => exact isMisuse
  · intro proper
    unfold settled
    split
    · exact absurd trivial (proper _ rfl)
    · rfl

end Checks

section Slots

variable {keyed : KeyedMask} {operands : List SymbolId}

theorem group_plain {position : Nat} (unmarked : keyed.contains position = false)
    (first : SymbolId) (rest : List SymbolId) :
    Slot.group keyed position (first :: rest) =
      .plain first :: Slot.group keyed (position + 1) rest := by
  cases rest with
  | nil => rfl
  | cons second rest => rw [Slot.group, unmarked]; rfl

/-- Reading the slots off by index stays inside the operands. -/
theorem group_eq (keys : keyed.HasKeys operands.length) (position : Nat) :
    group keyed operands position = .ok (Slot.group keyed position (operands.drop position)) := by
  fun_induction group keyed operands position with
  | case1 position inside keyedStep plainStep =>
      rw [List.drop_eq_getElem_cons inside, item_ok inside, keyedStep, plainStep]
      cases marked : keyed.contains position with
      | false =>
          rw [group_plain marked]
          rfl
      | true =>
          -- the second read is inside, as the container has its key
          have next := keys position marked
          rw [List.drop_eq_getElem_cons next, item_ok next, Slot.group, if_pos marked]
          rfl
  | case2 position outside =>
      rw [List.drop_eq_nil_of_le (Nat.le_of_not_lt outside)]
      rfl

end Slots

section Selector

variable {s : Selector} {mnemonic : String} {operands : List SymbolId} {keyed : KeyedMask}
  {slot : Slot} {temp : SymbolId} {context : Context}

/-- A container that has its key is at most of the wrong class. -/
theorem checkKeyed_proper (keys : keyed.HasKeys operands.length) :
    ∀ fault, s.checkKeyed operands keyed = .error fault → ¬ fault.IsMisuse := by
  intro fault failed
  obtain ⟨before, position, after, split, _, failed⟩ := forM_eq_error failed
  have mem : position ∈ keyed.positions := split ▸ List.mem_append_right _ List.mem_cons_self
  have inside := keys.of_mem_positions mem
  have place := List.getElem?_eq_getElem (Nat.lt_of_succ_lt inside)
  rw [Selector.checkKeyedAt_eq place inside] at failed
  split at failed
  · cases failed
  · cases failed
    exact id

theorem build_proper (mnemonic : String) (keys : keyed.HasKeys operands.length) :
    ∀ fault, s.build mnemonic operands keyed = .error fault → ¬ fault.IsMisuse := by
  intro fault failed
  unfold Selector.build at failed
  cases checked : s.checkKeyed operands keyed with
  | error other =>
      rw [checked] at failed
      cases failed
      exact checkKeyed_proper keys fault checked
  | ok =>
      rw [checked] at failed
      dsimp only [bind, Except.bind] at failed
      split at failed
      · cases failed
        exact id
      · cases failed

theorem build_passes (valid : ∀ id ∈ operands, id < s.symbols.size)
    (keys : keyed.HasKeys operands.length) (single : keyed.count < 2) :
    Passes Fault.IsMisuse (build s mnemonic operands keyed) (s.build mnemonic operands keyed) := by
  have proper := build_proper (s := s) mnemonic keys
  refine ⟨?_, proper⟩
  unfold build
  rw [ExceptT.run_mk, require_eq_ok.mpr single, known_eq_ok.mpr valid, settled_eq_ok.mpr proper]
  rfl

theorem loadSlot_passes (held : s.Holds slot temp) :
    Passes Fault.IsMisuse (loadSlot s slot temp) (s.loadSlot slot temp) := by
  have valid : ∀ id ∈ temp :: slot.operands, id < s.symbols.size := List.forall_mem_cons.mpr held
  cases slot with
  | plain operand => exact build_passes valid (KeyedMask.hasKeys_empty _) (by decide)
  | keyed container key =>
      exact build_passes valid (KeyedMask.hasKeys_single (by simp)) (by decide)

theorem storeSlot_passes (held : s.Holds slot temp) :
    Passes Fault.IsMisuse (storeSlot s slot temp) (s.storeSlot slot temp) := by
  have valid : ∀ id ∈ slot.operands ++ [temp], id < s.symbols.size :=
    List.forall_mem_append.mpr ⟨held.2, List.forall_mem_singleton.mpr held.1⟩
  cases slot with
  | plain operand => exact build_passes valid (KeyedMask.hasKeys_empty _) (by decide)
  | keyed container key =>
      exact build_passes valid (KeyedMask.hasKeys_single (by simp)) (by decide)

theorem prepareSlot_answers {operation : Instruction} (wf : s.symbols.WellFormed)
    (held : s.Holds slot temp) :
    Answers (prepareSlot s operation slot temp) (s.prepareSlot operation slot temp) := by
  unfold prepareSlot Selector.prepareSlot
  split
  · have loads := loadSlot_passes held
    refine ⟨?_, loads.proper⟩
    rw [loads.run]
    rfl
  · unfold Selector.aggregateType
    cases known : s.catalog.typeId s.config.initType with
    | none => exact answers_error s id
    | some type =>
        let t : Selector := { s with symbols := (s.symbols.constant (toString type) .integer).1 }
        let number := (s.symbols.constant (toString type) .integer).2
        have grown : s.symbols.Grows t.symbols := s.symbols.grows_constant _ _
        have valid : ∀ id ∈ [temp, number], id < t.symbols.size :=
          List.forall_mem_cons.mpr ⟨Nat.lt_of_lt_of_le held.1 grown.size_le,
            List.forall_mem_singleton.mpr (SymbolTable.constant_ok wf _ _).1⟩
        have built : Passes Fault.IsMisuse (build t "new" [temp, number] .empty)
            (t.build "new" [temp, number] .empty) :=
          build_passes valid (KeyedMask.hasKeys_empty _) (by decide)
        refine ⟨?_, built.proper⟩
        dsimp only
        rw [built.run]
        rfl

theorem buildFixed_passes {slots : List Slot} {temps : List SymbolId}
    (same : temps.length = slots.length)
    (held : ∀ pair ∈ (slot, temp) :: slots.zip temps, s.Holds pair.1 pair.2) :
    Passes Fault.IsMisuse (buildFixed s mnemonic (slot :: slots) (temp :: temps))
      (s.buildFixed mnemonic (slot, temp) (slots.zip temps)) := by
  obtain ⟨first, others⟩ := List.forall_mem_cons.mp held
  have operands : temp :: (slots.zip temps).map Prod.snd = temp :: temps := by
    rw [List.map_snd_zip (Nat.le_of_eq same)]
  have valid : ∀ id ∈ temp :: temps, id < s.symbols.size := by
    rw [← operands]
    refine List.forall_mem_cons.mpr ⟨first.1, List.forall_mem_map.mpr fun pair mem => ?_⟩
    exact (others pair mem).1
  unfold buildFixed Selector.buildFixed
  rw [operands]
  refine (build_passes valid (KeyedMask.hasKeys_empty _) (by decide)).bind fun operation _ => ?_
  refine (storeSlot_passes first).bind fun writeBack _ => ?_
  refine (passes_mapM fun pair mem => loadSlot_passes (others pair mem)).bind fun loads _ => ?_
  exact passes_ok _

theorem buildGroup_answers {slots : List Slot} {temps : List SymbolId}
    (wf : s.symbols.WellFormed) (some : slots ≠ []) (same : temps.length = slots.length)
    (held : ∀ pair ∈ slots.zip temps, s.Holds pair.1 pair.2) :
    Answers (buildGroup s mnemonic slots temps) (s.buildGroup mnemonic (slots.zip temps)) := by
  obtain ⟨slot, slots, rfl⟩ := List.exists_cons_of_ne_nil some
  cases temps with
  | nil => cases same
  | cons temp temps =>
      -- the first slot is there to be read, and so is the first temporary
      have fixed : Passes Fault.IsMisuse (buildFixed s mnemonic (slot :: slots) (temp :: temps))
          (s.buildFixed mnemonic (slot, temp) (slots.zip temps)) :=
        buildFixed_passes (Nat.succ.inj same) held
      unfold buildGroup
      rw [fixed.run, List.zip_cons_cons, Selector.buildGroup]
      cases built : s.buildFixed mnemonic (slot, temp) (slots.zip temps) with
      | error fault => exact answers_error s (fixed.proper fault built)
      | ok parts =>
          obtain ⟨operation, writeBack, loads⟩ := parts
          have prepared : Answers (prepareSlot s operation slot temp)
              (s.prepareSlot operation slot temp) :=
            prepareSlot_answers wf (held _ List.mem_cons_self)
          refine ⟨?_, fun fault failed => ?_⟩
          · change (prepareSlot s operation slot temp >>= _) = _
            rw [prepared.run]
            rfl
          · dsimp only at failed
            cases outcome : (s.prepareSlot operation slot temp).2 with
            | error other =>
                rw [outcome] at failed
                cases failed
                exact prepared.proper fault outcome
            | ok prepare =>
                rw [outcome] at failed
                cases failed

theorem expand_answers (wf : s.symbols.WellFormed) (admitted : s.Admits context)
    (keys : context.keyed.HasKeys context.operands.length) (several : 2 ≤ context.keyed.count) :
    Answers (expand s mnemonic context) (s.expand mnemonic context) := by
  have proper := checkKeyed_proper (s := s) keys
  unfold expand
  rw [require_eq_ok.mpr several, known_eq_ok.mpr admitted.operands, settled_eq_ok.mpr proper]
  cases checked : s.checkKeyed context.operands context.keyed with
  | error fault =>
      rw [Selector.expand, checked]
      exact answers_error s (proper fault checked)
  | ok =>
      have slots : group context.keyed context.operands 0 = .ok context.slots := group_eq keys 0
      have taken : s.symbols.Grows (s.withTemporaries context).symbols :=
        SymbolTable.grows_temporaries ..
      have built : Answers
          (buildGroup (s.withTemporaries context) mnemonic context.slots (s.temporariesFor context))
          ((s.withTemporaries context).buildGroup mnemonic
            (context.slots.zip (s.temporariesFor context))) := by
        refine buildGroup_answers (wf.grows taken) (Selector.slots_ne_nil checked several) ?_
          admitted.holds
        rw [Selector.temporariesFor_eq, List.length_range']
      rw [slots, Selector.expand_eq checked]
      change Answers (buildGroup (s.withTemporaries context) mnemonic context.slots
        (s.temporariesFor context) >>= _) _
      rw [built.run]
      cases answer : (s.withTemporaries context).buildGroup mnemonic
          (context.slots.zip (s.temporariesFor context)) with
      | mk t outcome =>
          cases outcome with
          | error fault => exact answers_error _ (built.proper fault (congrArg Prod.snd answer))
          | ok group => exact answers_ok ..

theorem resolve_answers (wf : s.symbols.WellFormed) (admitted : s.Admits context)
    (keys : context.keyed.HasKeys context.operands.length) :
    Answers (resolve s mnemonic context) (s.resolve mnemonic context) := by
  unfold resolve Selector.resolve
  split
  · rename_i several
    exact expand_answers wf admitted keys several
  · rename_i few
    have built : Passes Fault.IsMisuse (build s mnemonic context.operands context.keyed)
        (s.build mnemonic context.operands context.keyed) :=
      build_passes admitted.operands keys (Nat.lt_of_not_le few)
    rw [built.run]
    cases outcome : s.build mnemonic context.operands context.keyed with
    | error fault => exact answers_error s (built.proper fault outcome)
    | ok instruction => exact answers_ok ..

end Selector

section Contexts

variable {s : Selector} {c d : Context} {slot : Slot} {slots : List Slot} {mnemonic : String}

theorem append_proper {operand : SymbolId} :
    ∀ fault, (c.append operand).2 = .error fault → ¬ fault.IsMisuse := by
  intro fault failed
  unfold Context.append at failed
  split at failed
  · cases failed
    exact id
  · cases failed

/-- The position of a container is below the limit of operands, and so within the mask. -/
theorem appendSlot_proper (limit : c.maxArity ≤ maskWidth) :
    ∀ fault, (c.appendSlot slot).2 = .error fault → ¬ fault.IsMisuse := by
  cases slot with
  | plain operand => exact append_proper
  | keyed container key =>
      intro fault failed
      change (c.appendKeyed container key).2 = .error fault at failed
      unfold Context.appendKeyed at failed
      split at failed
      · rename_i refused
        cases failed
        exact append_proper fault (congrArg Prod.snd refused)
      · rename_i added
        split at failed
        · rename_i refused
          cases failed
          exact append_proper fault (congrArg Prod.snd refused)
        · have inside : c.arity < maskWidth :=
            Nat.lt_of_lt_of_le (Context.append_eq_ok added).1 limit
          rw [Context.setKeyed, if_pos inside] at failed
          cases failed

theorem appendSlot_maxArity (h : c.appendSlot slot = (d, .ok ())) : d.maxArity = c.maxArity := by
  cases slot with
  | plain operand => rw [(Context.append_eq_ok h).2]
  | keyed container key => rw [Context.appendKeyed_eq_ok h]

theorem fill_maxArity (filled : c.fill slots = .ok d) : d.maxArity = c.maxArity :=
  Context.fill_keeps (P := fun d => d.maxArity = c.maxArity) rfl
    (fun _ _ _ _ before added => (appendSlot_maxArity added).trans before) filled

theorem fill_proper (limit : c.maxArity ≤ maskWidth) :
    ∀ fault, c.fill slots = .error fault → ¬ fault.IsMisuse := by
  induction slots generalizing c with
  | nil =>
      intro fault failed
      cases failed
  | cons slot slots ih =>
      intro fault failed
      unfold Context.fill at failed
      split at failed
      · rename_i refused
        cases failed
        exact appendSlot_proper limit fault (congrArg Prod.snd refused)
      · rename_i added
        exact ih (by rwa [appendSlot_maxArity added]) fault failed

/-- A container is marked when its key has been added. -/
theorem fill_hasKeys (h : c.keyed.HasKeys c.operands.length) (filled : c.fill slots = .ok d) :
    d.keyed.HasKeys d.operands.length := by
  refine Context.fill_keeps (P := fun c => c.keyed.HasKeys c.operands.length) h
    (fun slot _ c d before added => ?_) filled
  cases slot with
  | plain operand =>
      obtain ⟨_, rfl⟩ := Context.append_eq_ok added
      exact before.mono (by simp)
  | keyed container key =>
      obtain rfl := Context.appendKeyed_eq_ok added
      exact (before.mono (by simp)).insert (by simp [Context.arity])

theorem resolveSlots_answers (wf : s.symbols.WellFormed) (limit : s.config.maxArity ≤ maskWidth)
    (valid : ∀ id ∈ slots.flatMap Slot.operands, id < s.symbols.size) :
    Answers (resolveSlots s mnemonic slots) (s.resolveSlots mnemonic slots) := by
  have proper : ∀ fault, s.context.fill slots = .error fault → ¬ fault.IsMisuse :=
    fill_proper limit
  unfold resolveSlots Selector.resolveSlots
  rw [settled_eq_ok.mpr proper]
  cases filled : s.context.fill slots with
  | error fault => exact answers_error s (proper fault filled)
  | ok context =>
      have keys := fill_hasKeys (KeyedMask.hasKeys_empty _) filled
      exact resolve_answers wf (s.admits_context.fill filled valid) keys

/-- An operation on slots, one of which holds the constant one. -/
theorem resolveSlots_one_answers (slots : List Slot) {ids : List SymbolId}
    (wf : s.symbols.WellFormed) (limit : s.config.maxArity ≤ maskWidth)
    (valid : ∀ id ∈ ids, id < s.symbols.size)
    (operands : slots.flatMap Slot.operands ⊆ s.one.2 :: ids) :
    Answers (resolveSlots s.one.1 mnemonic slots) (s.one.1.resolveSlots mnemonic slots) := by
  refine resolveSlots_answers (wf.grows s.grows_one) limit fun id mem => ?_
  exact Selector.valid_one wf valid id (operands mem)

theorem fetchIndexed_answers {dest container key : SymbolId} (wf : s.symbols.WellFormed)
    (limit : s.config.maxArity ≤ maskWidth)
    (valid : ∀ id ∈ [dest, container, key], id < s.symbols.size) :
    Answers (fetchIndexed s dest container key) (s.fetchIndexed dest container key) := by
  have character : Answers
      (resolveSlots s.one.1 "substr" [.plain dest, .plain container, .plain key, .plain s.one.2])
      (s.one.1.resolveSlots "substr"
        [.plain dest, .plain container, .plain key, .plain s.one.2]) :=
    resolveSlots_one_answers _ wf limit valid (by simp [Slot.operands])
  have element : Answers (resolveSlots s "set" [.plain dest, .keyed container key])
      (s.resolveSlots "set" [.plain dest, .keyed container key]) :=
    resolveSlots_answers wf limit valid
  unfold fetchIndexed Selector.fetchIndexed
  rw [known_eq_ok.mpr valid]
  dsimp only [bind, Except.bind]
  cases s.classOf dest with
  | integer | float | aggregate => exact element
  | string =>
      cases s.classOf container with
      | integer | float | aggregate => exact element
      | string =>
          cases s.classOf key with
          | float | string | aggregate => exact element
          | integer => exact character

theorem storeIndexed_answers {container key value : SymbolId} (wf : s.symbols.WellFormed)
    (limit : s.config.maxArity ≤ maskWidth)
    (valid : ∀ id ∈ [container, key, value], id < s.symbols.size) :
    Answers (storeIndexed s container key value) (s.storeIndexed container key value) := by
  have character : Answers
      (resolveSlots s.one.1 "substr" [.plain container, .plain key, .plain s.one.2, .plain value])
      (s.one.1.resolveSlots "substr"
        [.plain container, .plain key, .plain s.one.2, .plain value]) :=
    resolveSlots_one_answers _ wf limit valid (by simp [Slot.operands])
  unfold storeIndexed Selector.storeIndexed
  rw [known_eq_ok.mpr valid]
  dsimp only [bind, Except.bind]
  cases s.classOf container with
  | integer | float => exact answers_error s id
  | aggregate => exact resolveSlots_answers wf limit valid
  | string =>
      cases s.classOf key with
      | float | string | aggregate => exact answers_error s id
      | integer =>
          cases s.classOf value with
          | integer | float | aggregate => exact answers_error s id
          | string => exact character

end Contexts
end Checked
end OpSelect
