import OpSelect.Proofs.Lowering.Arity
import OpSelect.Proofs.Lowering.Operation

/-!
Where jumps go. The last operand of a jump, or of `set_addr`, has the tag `ic`, which labels share
with integers. The sugar for jumps always names a label there; an instruction that is written out
may have a number. The main result says statement by statement that there is no other case, and
that the labels are defined in the unit.
-/

namespace OpSelect

/-- Kinds of instructions that say where to go. -/
def InstructionKind.jumps : InstructionKind → Bool
  | branch _ _ | addressTaking _ => true
  | plain | label | registerAlias => false

/-- Atoms that stand for an integer constant. -/
def Atom.isNumber : Atom → Bool
  | integer _ | typeName _ => true
  | float _ | string _ | register _ | word _ => false

theorem Instruction.Built.kind_eq {catalog : Catalog} {t : SymbolTable} {i : Instruction}
    (h : i.Built catalog t) :
    ∃ entry, catalog.lookup i.fullName = some entry ∧
      i.kind = Selector.classify { catalog, config := {}, symbols := t } entry i.mnemonic
        i.operands := by
  have built := h.again { catalog, config := {}, symbols := t } rfl rfl
  obtain ⟨_, _, built⟩ := bind_eq_ok.mp built
  dsimp only at built
  split at built
  · cases built
  · rename_i entry found
    have same := Except.ok.inj built
    have name := (Catalog.lookup_some found).2
    refine ⟨entry, ?_, (congrArg Instruction.kind same).symm⟩
    rw [← congrArg Instruction.fullName same]
    dsimp only
    rw [name]
    exact found

namespace Selector

variable {s : Selector} {entry : OpEntry} {mnemonic : String} {ids : List SymbolId}

/-- An instruction jumps if its entry does and it has an operand, or if it is `set_addr`. -/
theorem classify_jumps (h : (s.classify entry mnemonic ids).jumps = true) :
    (entry.jump = true ∧ ids ≠ [] ∧
      ∃ always, s.classify entry mnemonic ids = .branch (ids.length - 1) always) ∨
    mnemonic = "set_addr" ∧ s.classify entry mnemonic ids = .addressTaking 1 := by
  unfold classify at h ⊢
  split at h
  · rename_i jump
    cases ids with
    | nil => cases h
    | cons id ids => exact .inl ⟨jump.1, by simp, _, if_pos jump⟩
  · rename_i other
    rw [if_neg other]
    split at h
    · split at h
      · split at h <;> cases h
      · cases h
    · rename_i notSet
      rw [if_neg notSet]
      split at h
      · rename_i isAddr
        exact .inr ⟨isAddr, if_pos isAddr⟩
      · cases h

end Selector

/-- Where the operations of the catalog jump to, if they have operands. -/
theorem BuiltIn.last_tag_of_jump : ∀ op ∈ BuiltIn.ops, op.jump = true ∨ op.mnemonic = "set_addr" →
    op.args = [] ∨ (op.args.map Prod.fst).getLast? = some "ic" := by
  decide +kernel

theorem BuiltIn.args_set_addr : ∀ op ∈ BuiltIn.ops, op.mnemonic = "set_addr" →
    op.args.map Prod.fst = ["i", "ic"] := by
  decide +kernel

/-- The mnemonics that sugar and expansions use for what is no jump. -/
def quietMnemonics : List String :=
  ["set", "new", "substr", "defined", "clone", "not", "neg", "bnot", "add", "sub", "mul", "div",
    "mod", "pow", "shl", "shr", "lsr", "and", "or", "xor", "band", "bor", "bxor", "concat"]

theorem BinaryOp.mnemonic_quiet (op : BinaryOp) : op.mnemonic ∈ quietMnemonics := by
  cases op <;> decide

theorem UnaryOp.mnemonic_quiet (op : UnaryOp) : op.mnemonic ∈ quietMnemonics := by
  cases op <;> decide

theorem BuiltIn.not_quiet_of_jump : ∀ op ∈ BuiltIn.ops, op.jump = true ∨ op.mnemonic = "set_addr" →
    ∀ n ≤ op.args.length,
      fullName op.mnemonic ((op.args.map Prod.fst).take n) ∉ quietMnemonics := by
  decide +kernel

theorem ArgTag.text_eq_ic {tag : ArgTag} (h : tag.text = "ic") :
    tag = .address ∨ tag = .constant .integer := by
  cases tag with
  | address => exact .inl rfl
  | constant cls => cases cls <;> revert h <;> decide
  | register cls => cases cls <;> revert h <;> decide
  | key integer constant => cases integer <;> cases constant <;> revert h <;> decide

theorem ArgTag.of_text_eq_ic {symbol : Symbol} {isKey : Bool}
    (h : (ArgTag.of symbol isKey).text = "ic") :
    isKey = false ∧
      (symbol.kind = .address ∨ symbol.kind = .constant ∧ symbol.cls = .integer) := by
  have tag := text_eq_ic h
  unfold ArgTag.of at tag
  cases isKey with
  | true => simp at tag
  | false =>
      refine ⟨rfl, ?_⟩
      cases kind : symbol.kind with
      | address => exact .inl rfl
      | constant => exact .inr ⟨rfl, by simpa [kind] using tag⟩
      | var | machineRegister index => simp [kind] at tag

theorem Signature.of_append_singleton (t : SymbolTable) (ids : List SymbolId) (id : SymbolId)
    (keyed : KeyedMask) :
    Signature.of t (ids ++ [id]) keyed =
      Signature.of t ids keyed ++ [ArgTag.of (t.get id) (keyed.isKey ids.length)] := by
  simp [Signature.of, List.zipIdx_append]

section Target

variable {t : SymbolTable} {i : Instruction} {limit : Nat}

/-- The operation behind an instruction that jumps. -/
theorem jump_division (built : i.Built .builtIn t) (justified : i.Justified .builtIn limit t)
    (jumps : i.kind.jumps = true) :
    ∃ op ∈ BuiltIn.ops, ∃ extra, (op.jump = true ∨ op.mnemonic = "set_addr") ∧
      i.mnemonic = fullName op.mnemonic extra ∧
      op.args.map Prod.fst = extra ++ (Signature.of t i.operands i.keyed).map ArgTag.text ∧
      i.operands ≠ [] ∧ i.target = i.operands.getLast? := by
  obtain ⟨entry, found, kind⟩ := built.kind_eq
  obtain ⟨op, isOp, opcode, extra, found', _, mnemonic, divided⟩ := division_of_justified justified
  rw [found'] at found
  obtain rfl := Option.some.inj found
  refine ⟨op, isOp, extra, ?_⟩
  rw [kind] at jumps
  rcases Selector.classify_jumps jumps with ⟨jump, some, always, isBranch⟩ | ⟨isAddr, takes⟩
  · refine ⟨.inl jump, mnemonic, divided, some, ?_⟩
    rw [Instruction.target, kind, isBranch, List.getLast?_eq_getElem?]
  · -- `set_addr` is a mnemonic of the catalog, so nothing is attached to it
    have none : extra = [] := by
      have regular := BuiltIn.regular_ops op isOp
      apply Catalog.byMnemonic_builtIn_fullName (m := op.mnemonic)
      · intro tag mem
        exact regular.mem_operandTags (divided ▸ List.mem_append_left _ mem)
      · rw [← mnemonic, isAddr, Catalog.byMnemonic, Catalog.entries_builtIn]
        decide +kernel
    subst none
    have same : op.mnemonic = "set_addr" := mnemonic.symm.trans isAddr
    have two : i.operands.length = 2 := by
      have counted := congrArg List.length divided
      rw [BuiltIn.args_set_addr op isOp same] at counted
      simpa [Signature.of] using counted.symm
    refine ⟨.inr same, mnemonic, divided, ?_, ?_⟩
    · intro empty
      simp [empty] at two
    · rw [Instruction.target, kind, takes, List.getLast?_eq_getElem?, two]

/-- The target of a jump is its last operand. It has no key before it, and it is a label or an
integer. -/
theorem jump_target (built : i.Built .builtIn t) (justified : i.Justified .builtIn limit t)
    (jumps : i.kind.jumps = true) :
    ∃ ids id, i.operands = ids ++ [id] ∧ i.target = some id ∧ i.keyed.isKey ids.length = false ∧
      ((t.get id).kind = .address ∨ (t.get id).kind = .constant ∧ (t.get id).cls = .integer) := by
  obtain ⟨op, isOp, extra, isJump, _, divided, some, target⟩ := jump_division built justified jumps
  obtain ⟨ids, id, operands⟩ := (List.eq_nil_or_concat i.operands).resolve_left some
  rw [List.concat_eq_append] at operands
  rw [operands, Signature.of_append_singleton, List.map_append, ← List.append_assoc] at divided
  have last := BuiltIn.last_tag_of_jump op isOp isJump
  rw [divided] at last
  rcases last with none | last
  · rw [none] at divided
    simp at divided
  · have tag := ArgTag.of_text_eq_ic (by simpa using last)
    refine ⟨ids, id, operands, ?_, tag⟩
    rw [target, operands]
    simp

theorem jump_not_quiet (built : i.Built .builtIn t) (justified : i.Justified .builtIn limit t)
    (jumps : i.kind.jumps = true) : i.mnemonic ∉ quietMnemonics := by
  obtain ⟨op, isOp, extra, isJump, mnemonic, divided, _⟩ := jump_division built justified jumps
  have attached := BuiltIn.not_quiet_of_jump op isOp isJump extra.length
  rw [divided, List.take_left, ← mnemonic] at attached
  apply attached
  have counted := congrArg List.length divided
  rw [List.length_map, List.length_append] at counted
  omega

end Target

/-- A form without a target is an instruction that is written out, or quiet. -/
theorem Statement.form_cases {s : Statement} {f : Form} (h : s.form = some f)
    (none : f.targets = []) :
    s = .instruction f.mnemonic f.operands ∨ f.mnemonic ∈ quietMnemonics := by
  cases s with
  | instruction mnemonic operands =>
      cases h
      exact .inl rfl
  | assign target value =>
      right
      cases value with
      | operand source | defined source | clone source =>
          cases h
          simp [quietMnemonics]
      | binary op lhs rhs =>
          cases h
          exact op.mnemonic_quiet
      | unary op source =>
          cases h
          exact op.mnemonic_quiet
      | addr label =>
          cases h
          cases none
      | new type => cases h
  | jump name | call name =>
      cases h
      cases none
  | branch negated condition name =>
      cases condition with
      | truth operand | compare relation lhs rhs =>
          cases h
          cases none
  | openSub | closeSub | declare | label => cases h

theorem Atom.StandsFor.isNumber {catalog : Catalog} {t : SymbolTable} {a : Atom} {id : SymbolId}
    (h : a.StandsFor catalog t id) (kind : (t.get id).kind = .constant)
    (cls : (t.get id).cls = .integer) : a.isNumber = true := by
  cases h with
  | integer symbol | type known symbol => rfl
  | float symbol | string symbol =>
      rw [symbol] at cls
      cases cls
  | register leads value | declared leads value | machine spelled leads value =>
      rw [Symbol.isConstant, kind] at value
      cases value
  | label ordinary leads =>
      rw [(SymbolTable.labelId_eq_some.mp leads).2] at kind
      cases kind

theorem Atom.StandsFor.number {catalog : Catalog} {t : SymbolTable} {a : Atom} {id : SymbolId}
    (h : a.StandsFor catalog t id) (number : a.isNumber = true) :
    (t.get id).kind = .constant ∧ (t.get id).cls = .integer := by
  cases h with
  | integer symbol | type known symbol => simp [symbol]
  | float | string | register | declared | machine | label => cases number

/-- An operand that has its only symbol last, where no key stands. -/
theorem Slot.eq_plain_of_last {slots : List Slot} {slot : Slot} {ids : List SymbolId}
    {id : SymbolId} (few : width (slots ++ [slot]) ≤ maskWidth)
    (operands : (slots ++ [slot]).flatMap Slot.operands = ids ++ [id])
    (unmarked : (mask 0 (slots ++ [slot])).isKey ids.length = false) : slot = .plain id := by
  cases slot with
  | plain operand =>
      simp only [List.flatMap_append, List.flatMap_cons, List.flatMap_nil, Slot.operands,
        List.append_nil] at operands
      rw [(List.append_inj' operands rfl).2 |> List.singleton_inj.mp]
  | keyed container key =>
      have before : ids = slots.flatMap Slot.operands ++ [container] := by
        simp only [List.flatMap_append, List.flatMap_cons, List.flatMap_nil, Slot.operands,
          List.append_nil] at operands
        rw [← List.singleton_append, ← List.append_assoc] at operands
        exact (List.append_inj' operands rfl).1.symm
      have length : ids.length = width slots + 1 := by
        rw [before, List.length_append, width, List.length_singleton]
      rw [width_append, width_keyed] at few
      rw [length, KeyedMask.isKey, mask_append, Nat.zero_add] at unmarked
      simp [mask, KeyedMask.contains_insert_self (show width slots < maskWidth by omega)]
        at unmarked

/-- What a statement says about where to go, in a label that it names or in its last operand. -/
inductive Statement.Targets (catalog : Catalog) (t : SymbolTable) :
    Statement → SymbolId → Prop where
  | label {s : Statement} {f : Form} {names : List String} {name : String} {id : SymbolId}
      (isForm : s.form = some f) (named : f.targets = names ++ [name])
      (leads : t.labelId name = some id) : Targets catalog t s id
  | operand {mnemonic : String} {operands : List (Located Operand)} {last : Located Operand}
      {id : SymbolId} (plain : last.node.keys = [])
      (stands : last.node.base.StandsFor catalog t id) :
      Targets catalog t (.instruction mnemonic (operands ++ [last])) id

/-- Instructions that are written out with a number for their last operand. -/
def Statement.endsInNumber : Statement → Bool
  | .instruction _ operands =>
      operands.getLast?.any fun last => last.node.keys.isEmpty && last.node.base.isNumber
  | .assign .. | .jump _ | .call _ | .branch .. | .openSub _ | .closeSub | .declare .. | .label _ =>
      false

/-- A symbol that a jump may have for its target is a number where the statement ends in one, and
otherwise a label. -/
theorem Statement.Targets.kind {catalog : Catalog} {t : SymbolTable} {s : Statement}
    {id : SymbolId} (h : s.Targets catalog t id)
    (symbol : (t.get id).kind = .address ∨
      (t.get id).kind = .constant ∧ (t.get id).cls = .integer) :
    if s.endsInNumber then (t.get id).kind = .constant ∧ (t.get id).cls = .integer
    else (t.get id).kind = .address := by
  cases h with
  | label isForm named leads =>
      have sugar : s.endsInNumber = false := by
        cases s with
        | instruction =>
            cases isForm
            simp at named
        | assign | jump | call | branch | openSub | closeSub | declare | label => rfl
      rw [sugar]
      exact (SymbolTable.labelId_eq_some.mp leads).2
  | @operand mnemonic operands last _ plain stands =>
      have ends : (instruction mnemonic (operands ++ [last])).endsInNumber =
          last.node.base.isNumber := by
        simp [endsInNumber, plain]
      rw [ends]
      split
      · rename_i number
        exact stands.number number
      · rename_i other
        refine symbol.resolve_right fun number => other ?_
        exact stands.isNumber number.1 number.2

/-- The last operand of an operation that is no sugar is where its statement says to go. -/
theorem Statement.Performs.targets {catalog : Catalog} {t : SymbolTable} {s : Statement}
    {mnemonic : String} {slots : List Slot} {id : SymbolId}
    (h : s.Performs catalog t mnemonic (slots ++ [.plain id])) (loud : mnemonic ∉ quietMnemonics) :
    s.Targets catalog t id := by
  generalize whole : slots ++ [Slot.plain id] = all at h
  cases h with
  | create | fetch | store => exact absurd (by simp [quietMnemonics]) loud
  | @form s f own targets isForm stand labels =>
      rcases List.eq_nil_or_concat targets with rfl | ⟨front, back, rfl⟩
      · have none : f.targets = [] := List.forall₂_nil_right_iff.mp labels
        rw [List.append_nil] at whole
        obtain rfl := (Statement.form_cases isForm none).resolve_right loud
        rw [← whole] at stand
        obtain ⟨operands, last, isLast, stands⟩ := exists_concat_of_forall₂ stand
        rw [isLast]
        obtain ⟨⟨base, keys⟩, span⟩ := last
        cases stands with
        | plain stands => exact .operand rfl stands
      · rw [List.concat_eq_append] at labels whole
        obtain ⟨names, name, named, other, leads, rfl⟩ := exists_concat_of_forall₂ labels
        rw [← List.append_assoc] at whole
        obtain rfl := Slot.plain.inj (List.singleton_inj.mp (List.append_inj' whole rfl).2)
        exact .label isForm named leads

/-- The same of an instruction that is part of a statement's operation. -/
theorem Instruction.PartOf.targets {selector : Selector} {t : SymbolTable} {s : Statement}
    {i : Instruction} {ids : List SymbolId} {id : SymbolId} (h : i.PartOf selector t s)
    (loud : i.mnemonic ∉ quietMnemonics) (few : i.operands.length ≤ maskWidth)
    (operands : i.operands = ids ++ [id]) (unmarked : i.keyed.isKey ids.length = false)
    (symbol : (t.get id).kind = .address ∨
      (t.get id).kind = .constant ∧ (t.get id).cls = .integer) :
    s.Targets selector.catalog t id := by
  obtain ⟨mnemonic, slots, performs, emits⟩ := h.performed
  generalize spelled : i.spelling = spelling at emits
  have isMnemonic := congrArg Spelling.mnemonic spelled
  cases emits with
  | load | store | create =>
      refine absurd ?_ loud
      rw [show i.mnemonic = _ from isMnemonic]
      simp [Slot.spelling, quietMnemonics]
  | operation temps registers =>
      -- temporaries are registers
      rw [Slot.spelling_plain] at spelled
      have same : temps = ids ++ [id] :=
        (congrArg Spelling.operands spelled).symm.trans operands
      obtain ⟨n, register⟩ := registers id (by simp [same])
      simp [register] at symbol
  | whole =>
      have same : i.operands = slots.flatMap Slot.operands := congrArg Spelling.operands spelled
      have marked : i.keyed = Slot.mask 0 slots := congrArg Spelling.keyed spelled
      obtain rfl : i.mnemonic = mnemonic := isMnemonic
      rcases List.eq_nil_or_concat slots with rfl | ⟨front, slot, rfl⟩
      · rw [operands] at same
        simp at same
      · rw [List.concat_eq_append] at same marked performs
        have width : Slot.width (front ++ [slot]) ≤ maskWidth := by
          rw [Slot.width, ← same]
          exact few
        rw [marked] at unmarked
        obtain rfl := Slot.eq_plain_of_last width (same.symm.trans operands) unmarked
        exact performs.targets loud

theorem Instruction.isLabel_of_jumps {i : Instruction} (jumps : i.kind.jumps = true) :
    i.isLabel = false := by
  unfold isLabel
  cases eq : i.kind with
  | label =>
      rw [eq] at jumps
      cases jumps
  | plain | branch | addressTaking | registerAlias => rfl

/-- An address of the finished table is defined by a label. -/
theorem CompiledRun.label_mem {catalog : Catalog} {config : Config} {source : String}
    {lowered : Lowered} {statements : List (Located Statement)} {state : Lowering}
    {id : SymbolId} (h : CompiledRun catalog config source lowered statements state)
    (address : (lowered.unit.symbols.get id).kind = .address) :
    .label (lowered.unit.symbols.get id).name id ∈ lowered.unit.instructions := by
  obtain ⟨labels, _, all, filtered⟩ := h.labelsMatch
  have valid : id < lowered.unit.symbols.size := SymbolTable.lt_of_kind (by simp [address])
  apply List.mem_of_mem_filter (p := Instruction.isLabel)
  rw [filtered]
  exact List.mem_map_of_mem ((all id).mpr ⟨valid, address⟩)

/-- Every jump of a compiled text, and every `set_addr`, goes where its own statement says. Where
this statement is an instruction that is written out and ends in a number, the target is that
number. Everywhere else it is a label, and the unit defines it. -/
theorem jump_targets_label_unless_number_written {config : Config} {source : String}
    {lowered : Lowered} (compiled : compile .builtIn config source = .ok lowered) :
    ∃ statements groups state, parse source = .ok statements ∧
      Lowering.EmitsEach { selector := { catalog := .builtIn, config } } statements groups state ∧
      lowered.unit = state.selector.finish ∧ lowered.unit.instructions = groups.flatten ∧
      List.Forall₂ (fun s group => ∀ i ∈ group, i.kind.jumps = true →
        ∃ id, i.target = some id ∧ s.node.Targets .builtIn lowered.unit.symbols id ∧
          if s.node.endsInNumber then
            (lowered.unit.symbols.get id).kind = .constant ∧
              (lowered.unit.symbols.get id).cls = .integer
          else
            (lowered.unit.symbols.get id).kind = .address ∧
              .label (lowered.unit.symbols.get id).name id ∈ lowered.unit.instructions)
        statements groups := by
  obtain ⟨statements, state, run⟩ := compile_eq_ok_iff.mp compiled
  obtain ⟨groups, emits, whole, parts⟩ := run.emits
  refine ⟨statements, groups, state, run.parsed, emits, by rw [run.result], whole, ?_⟩
  have parts := (List.forall₂_and_left _ _).mpr ⟨fun _ => id, parts.flip⟩
  refine parts.flip.imp fun s group inside i mem jumps => ?_
  obtain ⟨isGroup, parts⟩ := inside
  have operation := Instruction.isLabel_of_jumps jumps
  have emitted : i ∈ lowered.unit.instructions := by
    rw [whole]
    exact List.mem_flatten.mpr ⟨group, isGroup, mem⟩
  have part := parts i mem operation
  have built := run.built emitted operation
  have justified := run.justified emitted operation
  obtain ⟨ids, id, operands, target, unmarked, symbol⟩ := jump_target built justified jumps
  have loud := jump_not_quiet built justified jumps
  have few := Nat.le_trans justified.arity (Config.maxArity_le run.valid)
  have targets := part.targets loud few operands unmarked symbol
  dsimp only at targets
  refine ⟨id, target, targets, ?_⟩
  have kind := targets.kind symbol
  by_cases number : s.node.endsInNumber = true
  · rwa [if_pos number] at kind ⊢
  · rw [if_neg number] at kind ⊢
    exact ⟨kind, run.label_mem kind⟩

/-- One jump goes to a label, and one that is written out has a number. -/
def numberedSource : String := "L:\nbranch L\nbranch 5\n"

def gotoSource : String := "L:\ngoto L\nbranch 5\n"

def labelJump : Instruction where
  mnemonic := "branch"
  fullName := "branch_ic"
  opcode := some 112
  operands := [0]
  layout := [.plain]
  directions := .ofDirections [.input]
  keyed := .empty
  kind := .branch 0 true

def numberJump : Instruction := { labelJump with operands := [1] }

theorem compile_numberedSource : ∀ source ∈ [numberedSource, gotoSource],
    ∃ lowered, compile .builtIn {} source = .ok lowered ∧
      (lowered.unit.instructions, lowered.unit.symbols.symbols) =
        ([.label "L" 0, labelJump, numberJump],
          [⟨"L", .integer, .address⟩, ⟨"5", .integer, .constant⟩]) := by
  intro source mem
  refine map_eq_ok.mp ?_
  revert source
  decide +kernel

/-- Only the last of the three statements ends in a number, so the jump of the second goes to a
label of the unit. -/
theorem goto_targets_label :
    ∃ lowered groups, compile .builtIn {} gotoSource = .ok lowered ∧
      groups.flatten = [.label "L" 0, labelJump, numberJump] ∧
      List.Forall₂ (fun number group => ∀ i ∈ group, i.kind.jumps = true →
        ∃ id, i.target = some id ∧
          if number then (lowered.unit.symbols.get id).kind = .constant
          else .label (lowered.unit.symbols.get id).name id ∈ lowered.unit.instructions)
        [false, false, true] groups := by
  obtain ⟨lowered, compiled, unit⟩ := compile_numberedSource gotoSource (by simp)
  obtain ⟨statements, groups, _, parsed, _, _, whole, targets⟩ :=
    jump_targets_label_unless_number_written compiled
  obtain ⟨_, parsed', numbers⟩ : ∃ statements, parse gotoSource = .ok statements ∧
      statements.map (·.node.endsInNumber) = [false, false, true] :=
    map_eq_ok.mp (by decide +kernel)
  obtain rfl := Except.ok.inj (parsed.symm.trans parsed')
  refine ⟨lowered, groups, compiled, whole.symm.trans (Prod.mk.inj unit).1, ?_⟩
  rw [← numbers]
  refine List.forall₂_map_left_iff.mpr (targets.imp fun s group each i mem jumps => ?_)
  obtain ⟨id, target, _, kind⟩ := each i mem jumps
  refine ⟨id, target, ?_⟩
  by_cases number : s.node.endsInNumber = true
  · rw [if_pos number] at kind ⊢
    exact kind.1
  · rw [if_neg number] at kind ⊢
    exact kind.2

/-- A jump to a number is accepted, and its target is not a label. -/
theorem number_jump_targets_no_label :
    ∃ lowered, compile .builtIn {} numberedSource = .ok lowered ∧
      numberJump ∈ lowered.unit.instructions ∧ numberJump.kind.jumps = true ∧
      ∃ id, numberJump.target = some id ∧
        (lowered.unit.symbols.get id).kind ≠ .address ∧
        ∀ i ∈ lowered.unit.instructions, i.isLabel = true → id ∉ i.operands := by
  obtain ⟨lowered, compiled, unit⟩ := compile_numberedSource numberedSource (by simp)
  obtain ⟨instructions, symbols⟩ := Prod.mk.inj unit
  refine ⟨lowered, compiled, ?_, rfl, 1, rfl, ?_, ?_⟩
  · rw [instructions]
    exact List.mem_cons_of_mem _ (List.mem_cons_of_mem _ List.mem_cons_self)
  · rw [SymbolTable.get, symbols]
    decide
  · rw [instructions]
    decide

end OpSelect
