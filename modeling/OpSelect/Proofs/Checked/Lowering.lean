import OpSelect.Proofs.Checked.Selector
import OpSelect.Proofs.Lowering.Operation
import OpSelect.Proofs.Lowering.Simulation
import OpSelect.Proofs.Token.Munch

/-!
Compiling with checks. Lowering is written out once more, with the checks that its steps rely on
and with the checked selector in place of the selector. A text is compiled to the same unit, or
refused for the same reasons, and no check fails: not for any text, catalog or settings.
-/

namespace OpSelect

/-- The names that an atom is looked up by. A word that is a machine register has two. -/
def Atom.lookups : Atom → List String
  | .register name => [name]
  | .word name =>
      name :: (machineRegister? name).toList.map fun (cls, index) => cls.machineRegister index
  | .integer _ | .float _ | .string _ | .typeName _ => []

/-- A number and its negation fit into 64 bits. -/
def Negatable (value : Nat) : Prop :=
  (BitVec.ofNat 64 value).toInt = value ∧ (BitVec.ofNat 64 value).negOverflow = false

instance (value : Nat) : Decidable (Negatable value) := inferInstanceAs (Decidable (_ ∧ _))

/-- Lowering that ends at the first breach. -/
abbrev CheckedLower := StateT Lowering (ExceptT Stop Checked)

namespace Checked

/-- A step of lowering after a check. -/
def watched {α : Type} (check : Lowering → Checked Unit) (m : Lower α) : CheckedLower α :=
  fun σ => ExceptT.mk do
    check σ
    return m.run σ

/-- A step that relies on nothing. -/
def unwatched {α : Type} (m : Lower α) : CheckedLower α := watched (fun _ => .ok ()) m

def expect {α : Type} (span : Span) : Except Fault α → CheckedLower α
  | .error (.misuse misuse) => fun _ => ExceptT.mk (.error (.misuse misuse))
  | result => unwatched (Lowering.expect span result)

def select {α : Type} (span : Span) (step : Selector → Checked (Selector × Except Fault α)) :
    CheckedLower α := do
  let state ← get
  let (selector, result) ← (step state.selector : Checked (Selector × Except Fault α))
  let a ← expect span result
  set { state with selector }
  return a

def labelRef (name : String) (span : Span) : CheckedLower SymbolId :=
  watched (fun σ => leads σ.selector.symbols name) (Lowering.labelRef name span)

def atom (a : Atom) (span : Span) : CheckedLower SymbolId :=
  watched (fun σ => a.lookups.forM (leads σ.selector.symbols)) (Lowering.atom a span)

/-- The parts of a key are looked at when they are joined. -/
def key : List (Located Atom) → CheckedLower SymbolId
  | [] => fun _ => ExceptT.mk (.error .emptyChain)
  | first :: rest => do
      let head ← atom first.node first.span
      let tail ← rest.mapM fun part => atom part.node part.span
      watched (fun σ => (head :: tail).forM (known σ.selector.symbols))
        (Lowering.intern (KeyChain.collapse ⟨head, tail⟩))

def slot (o : Located Operand) : CheckedLower Slot := do
  let base ← atom o.node.base o.span
  if o.node.keys.isEmpty then return .plain base
  else return .keyed base (← key o.node.keys)

def append (context : Context) (o : Located Operand) : CheckedLower Context := do
  expect o.span (context.fill [← slot o])

def appendSymbol (context : Context) (span : Span) (id : SymbolId) : CheckedLower Context :=
  expect span (context.fill [.plain id])

def operation (mnemonic : String) (operands : List (Located Operand)) : CheckedLower Request := do
  return .operation mnemonic (← operands.foldlM append (← unwatched Lowering.context))

def labelOperation (span : Span) (mnemonic : String) (operands : List (Located Operand))
    (label : String) : CheckedLower Request := do
  let context ← operands.foldlM append (← unwatched Lowering.context)
  let target ← labelRef label span
  return .operation mnemonic (← appendSymbol context span target)

def copy (target source : Located Operand) : CheckedLower Request := do
  match target.node.keys.isEmpty, source.node.keys.isEmpty with
  | false, true =>
      let container ← atom target.node.base target.span
      let key ← key target.node.keys
      let value ← atom source.node.base source.span
      return .store container key value
  | true, false =>
      let dest ← atom target.node.base target.span
      let container ← atom source.node.base source.span
      let key ← key source.node.keys
      return .fetch dest container key
  | _, _ => operation "set" [target, source]

def create (span : Span) (target : Located Operand) (type : Located Atom) :
    CheckedLower Request := do
  let id ← unwatched (Lowering.typeNumber type)
  let context ← append (← unwatched Lowering.context) target
  return .operation "new" (← appendSymbol context span id)

def assign (span : Span) (target : Located Operand) : Value → CheckedLower Request
  | .operand source => copy target source
  | .binary op lhs rhs => operation op.mnemonic [target, lhs, rhs]
  | .unary op source => operation op.mnemonic [target, source]
  | .addr label => labelOperation span "set_addr" [target] label
  | .defined source => operation "defined" [target, source]
  | .clone source => operation "clone" [target, source]
  | .new type => create span target type

def branch (span : Span) (negated : Bool) (condition : Condition) (label : String) :
    CheckedLower Request :=
  match condition with
  | .truth operand => labelOperation span (if negated then "unless" else "if") [operand] label
  | .compare relation lhs rhs =>
      labelOperation span (if negated then relation.inverse else relation).mnemonic [lhs, rhs]
        label

def request (s : Located Statement) : CheckedLower (Option Request) := do
  match s.node with
  | .openSub name => return some (← unwatched (Lowering.openSubroutine s.span name))
  | .closeSub =>
      unwatched (Lowering.closeSubroutine s.span)
      return none
  | .declare typeName name =>
      unwatched (Lowering.declare s.span typeName name)
      return none
  | .label name => return some (.label name)
  | .instruction mnemonic operands => return some (← operation mnemonic operands)
  | .assign target value => return some (← assign s.span target value)
  | .jump label => return some (← labelOperation s.span "branch" [] label)
  | .call label => return some (← labelOperation s.span "bsr" [] label)
  | .branch negated condition label => return some (← branch s.span negated condition label)

/-- The operands of an instruction are looked at when it is shown. -/
def shown (t : SymbolTable) (i : Instruction) : Checked Unit :=
  if i.isLabel then .ok () else i.operands.forM (known t)

def reply : Request → Selector → Checked (Selector × Except Fault Nat)
  | .operation mnemonic context, s => resolve s mnemonic context
  | .fetch dest container key, s => fetchIndexed s dest container key
  | .store container key value, s => storeIndexed s container key value
  | .label name, s => do
      leads s.symbols name
      return s.label name

/-- Whatever was emitted can be shown. -/
def answer (r : Request) (s : Selector) : Checked (Selector × Except Fault Nat) := do
  let (t, result) ← reply r s
  t.instructions.forM (shown t.symbols)
  return (t, result)

def statement (s : Located Statement) : CheckedLower Unit := do
  match ← request s with
  | some request =>
      let _ ← select s.span (answer request)
  | none => return ()

/-- All names are looked at for the labels among them. -/
def lower (statements : List (Located Statement)) (selector : Selector) :
    ExceptT Stop Checked Lowered := do
  let (_, state) ← (statements.forM statement).run { selector }
  ExceptT.lift (state.selector.symbols.names.forM fun (_, id) => known state.selector.symbols id)
  match state.undefinedLabels with
  | [] => return ⟨state.selector.finish, state.unclosed⟩
  | diagnostics => throw (.reported diagnostics)

/-- Any number may have a minus sign before it. -/
def parse (source : String) : Checked (Except (List Diagnostic) (List (Located Statement))) :=
  match tokenize source with
  | .error diagnostics => return .error diagnostics
  | .ok tokens => do
      tokens.forM fun t => match t.kind with
        | .integer value => require (Negatable value) (.overflow value)
        | _ => .ok ()
      return parseTokens tokens

/-- The listing is a part of what is given back. -/
def compile (catalog : Catalog) (config : Config) (source : String) :
    Checked (Except CompileError Lowered) := do
  match Selector.start catalog config with
  | .error error => return .error (.config error)
  | .ok selector =>
      match ← parse source with
      | .error diagnostics => return .error (.reported diagnostics)
      | .ok statements =>
          match ← (lower statements selector).run with
          | .error (.reported diagnostics) => return .error (.reported diagnostics)
          | .error (.misuse misuse) => throw (.misuse misuse)
          | .ok lowered =>
              lowered.unit.instructions.forM (shown lowered.unit.symbols)
              return .ok lowered

end Checked

def Stop.IsMisuse : Stop → Prop
  | .misuse _ => True
  | .reported _ => False

namespace Lowering

section Proper

variable {α β : Type} {σ : Lowering}

/-- The step may be refused, but never for misuse. -/
def Proper (m : Lower α) (σ : Lowering) : Prop := ∀ stop, m.run σ = .error stop → ¬ stop.IsMisuse

theorem proper_of_ok {m : Lower α} {out : α × Lowering} (h : m.run σ = .ok out) : Proper m σ := by
  intro stop failed
  rw [h] at failed
  cases failed

end Proper
end Lowering

namespace Simulation

variable {α β : Type} {R : α → β → Prop} {m : Lower α} {n : Lower β}

/-- A run and itself, which is not stopped for misuse. -/
def proper : Simulation where
  state σ τ := τ = σ
  place p q := q = p
  context := Eq
  stop stop _ := ¬ stop.IsMisuse

theorem sameSelector_proper : proper.SameSelector where
  selector := by
    rintro σ _ rfl
    rfl
  withSelector := by
    rintro σ _ rfl selector
    rfl
  note := by
    rintro σ _ p _ rfl rfl id
    rfl
  opened := by
    rintro σ _ rfl
    exact opened_self fun _ _ => rfl
  withOpened := by
    rintro σ _ rfl opened other related
    rw [related.eq fun _ _ place => place]
    rfl
  report _ := id

theorem sound_proper : proper.Sound := sameSelector_proper.sound

theorem Relates.proper (h : Simulation.proper.Relates R m n) (σ : Lowering) :
    Lowering.Proper m σ := by
  intro stop failed
  have outcome := h σ σ rfl
  rw [failed] at outcome
  obtain ⟨_, _, stops⟩ := outcome.resolve_left id
  exact stops

end Simulation

/-- What lowering keeps of its selector: the table is well-formed, a mask has room for every
operand, and the operands of all instructions are in the table. -/
structure Selector.Ready (s : Selector) : Prop where
  wf : s.symbols.WellFormed
  limit : s.config.maxArity ≤ maskWidth
  shown : ∀ i ∈ s.instructions, i.isLabel = false → ∀ id ∈ i.operands, id < s.symbols.size

theorem Selector.Ready.evolves {s t : Selector} (h : s.Ready) (k : s.Evolves t) : t.Ready := by
  obtain ⟨group, instructions, justified⟩ := k.emitted
  refine ⟨h.wf.grows k.grows, by rw [k.config]; exact h.limit, ?_⟩
  rw [instructions]
  refine List.forall_mem_append.mpr ⟨fun i mem operation id isOperand => ?_, ?_⟩
  · exact Nat.lt_of_lt_of_le (h.shown i mem operation id isOperand) k.grows.size_le
  · exact fun i mem operation => (justified i mem operation).operands

namespace Checked

open Simulation (sound_proper)

section Rules

variable {α β : Type} {σ : Lowering}

/-- No check fails from this state on, and lowering goes on as without checks. -/
def Follows (checked : CheckedLower α) (m : Lower α) (σ : Lowering) : Prop :=
  Passes Stop.IsMisuse (checked.run σ) (m.run σ)

theorem follows_pure (a : α) : Follows (pure a) (pure a) σ := passes_ok (a, σ)

theorem Follows.bind {checked : CheckedLower α} {m : Lower α} {next : α → CheckedLower β}
    {f : α → Lower β} (h : Follows checked m σ)
    (k : ∀ a τ, m.run σ = .ok (a, τ) → Follows (next a) (f a) τ) :
    Follows (checked >>= next) (m >>= f) σ := by
  unfold Follows
  rw [StateT.run_bind, StateT.run_bind]
  exact Passes.bind h fun out same => k out.1 out.2 same

theorem follows_watched {check : Lowering → Checked Unit} {m : Lower α} (passed : check σ = .ok ())
    (proper : Lowering.Proper m σ) : Follows (watched check m) m σ := by
  refine ⟨?_, proper⟩
  change (check σ >>= fun _ => pure (m.run σ)) = _
  rw [passed]
  rfl

theorem follows_unwatched {m : Lower α} (proper : Lowering.Proper m σ) :
    Follows (unwatched m) m σ :=
  follows_watched rfl proper

theorem follows_expect {span : Span} {result : Except Fault α}
    (h : ∀ fault, result = .error fault → ¬ fault.IsMisuse) :
    Follows (expect span result) (Lowering.expect span result) σ := by
  have agrees : Simulation.proper.Agrees Eq result result :=
    Simulation.agrees_self fun misuse failed => h _ failed
  have proper := (sound_proper.relates_expect (p := span) rfl agrees).proper σ
  unfold expect
  split
  · exact absurd trivial (h _ rfl)
  · exact follows_unwatched proper

theorem follows_select {span : Span} {checked : Selector → Checked (Selector × Except Fault α)}
    {step : Selector → Selector × Except Fault α}
    (h : Answers (checked σ.selector) (step σ.selector)) :
    Follows (select span checked) (Lowering.select span step) σ := by
  have rest : Follows (do
        let a ← expect span (step σ.selector).2
        set { σ with selector := (step σ.selector).1 }
        return a)
      (do
        let a ← Lowering.expect span (step σ.selector).2
        set { σ with selector := (step σ.selector).1 }
        return a) σ :=
    (follows_expect h.proper).bind fun a τ _ => passes_ok _
  refine ⟨?_, rest.proper⟩
  refine Eq.trans ?_ rest.run
  unfold select
  rw [StateT.run_bind]
  change ((do
    let out ← (liftM (checked σ.selector) : CheckedLower _)
    let a ← expect span out.2
    set { σ with selector := out.1 }
    return a : CheckedLower α).run σ).run = _
  rw [h.run]
  rfl

end Rules

section Operands

variable {σ τ : Lowering} {span : Span}

theorem follows_labelRef (wf : σ.selector.symbols.WellFormed) (name : String) :
    Follows (labelRef name span) (Lowering.labelRef name span) σ :=
  follows_watched (leads_ok wf name) ((sound_proper.relates_labelRef rfl name).proper σ)

theorem follows_atom (wf : σ.selector.symbols.WellFormed) (a : Atom) :
    Follows (atom a span) (Lowering.atom a span) σ :=
  follows_watched (forM_eq_ok.mpr fun name _ => leads_ok wf name)
    ((sound_proper.relates_atom rfl a).proper σ)

theorem follows_atoms (wf : σ.selector.symbols.WellFormed) (parts : List (Located Atom)) :
    Follows (parts.mapM fun part => atom part.node part.span)
      (parts.mapM fun part => Lowering.atom part.node part.span) σ := by
  induction parts generalizing σ with
  | nil => exact follows_pure []
  | cons part parts ih =>
      rw [List.mapM_cons, List.mapM_cons]
      refine (follows_atom wf part.node).bind fun id τ lowered => ?_
      refine (ih ((Lowering.atom_ok wf lowered).1.wf wf)).bind fun ids υ _ => ?_
      exact follows_pure (id :: ids)

theorem follows_key (wf : σ.selector.symbols.WellFormed) (first : Located Atom)
    (rest : List (Located Atom)) :
    Follows (key (first :: rest)) (Lowering.key first rest) σ := by
  refine (follows_atom wf first.node).bind fun head τ lowered => ?_
  refine (follows_atoms ((Lowering.atom_ok wf lowered).1.wf wf) rest).bind fun tail υ others => ?_
  have all : ((first :: rest).mapM fun part => Lowering.atom part.node part.span).run σ =
      .ok (head :: tail, υ) := by
    rw [List.mapM_cons]
    exact Lowering.bind_run lowered (Lowering.bind_run others rfl)
  have interned := Lowering.lowersAtoms_interned.mapM Lowering.lowersAtoms_interned.atom all
  refine follows_watched (known_eq_ok.mpr ?_) (Lowering.proper_of_ok rfl)
  exact (Lowering.atoms_standFor wf all).lt (interned.wf wf)

theorem follows_slot (wf : σ.selector.symbols.WellFormed) (o : Located Operand) :
    Follows (slot o) (Lowering.slot o) σ := by
  refine (follows_atom wf o.node.base).bind fun base τ lowered => ?_
  have wf₁ := (Lowering.atom_ok wf lowered).1.wf wf
  cases o.node.keys with
  | nil => exact follows_pure _
  | cons first rest => exact (follows_key wf₁ first rest).bind fun _ _ _ => follows_pure _

theorem follows_append {c : Context} (wf : σ.selector.symbols.WellFormed)
    (limit : c.maxArity ≤ maskWidth) (o : Located Operand) :
    Follows (append c o) (Lowering.append c o) σ :=
  (follows_slot wf o).bind fun _ _ _ => follows_expect (fill_proper limit)

theorem follows_operands {c : Context} (wf : σ.selector.symbols.WellFormed)
    (limit : c.maxArity ≤ maskWidth) (operands : List (Located Operand)) :
    Follows (operands.foldlM append c) (operands.foldlM Lowering.append c) σ := by
  induction operands generalizing σ c with
  | nil => exact follows_pure c
  | cons o operands ih =>
      rw [List.foldlM_cons, List.foldlM_cons]
      refine (follows_append wf limit o).bind fun d τ appended => ?_
      obtain ⟨slot, lowered, filled⟩ := Lowering.append_eq appended
      exact ih ((Lowering.slot_ok wf lowered).1.wf wf) (by rwa [fill_maxArity filled])

end Operands

section Statements

variable {σ τ : Lowering} {span : Span}

theorem follows_context {β : Type} {next : Context → CheckedLower β} {f : Context → Lower β}
    (h : Follows (next σ.selector.context) (f σ.selector.context) σ) :
    Follows (unwatched Lowering.context >>= next) (Lowering.context >>= f) σ := by
  refine (follows_unwatched (Lowering.proper_of_ok rfl)).bind fun c τ started => ?_
  cases started
  exact h

theorem follows_operation (ready : σ.selector.Ready) (mnemonic : String)
    (operands : List (Located Operand)) :
    Follows (operation mnemonic operands) (Lowering.operation mnemonic operands) σ := by
  refine follows_context ?_
  exact (follows_operands ready.wf ready.limit operands).bind fun _ _ _ => follows_pure _

theorem follows_labelOperation (ready : σ.selector.Ready) (mnemonic : String)
    (operands : List (Located Operand)) (label : String) :
    Follows (labelOperation span mnemonic operands label)
      (Lowering.labelOperation span mnemonic operands label) σ := by
  refine follows_context ?_
  refine (follows_operands ready.wf ready.limit operands).bind fun c τ appended => ?_
  obtain ⟨slots, lowered, filled⟩ := Lowering.foldlM_fill_eq (g := id) appended
  have limit : c.maxArity ≤ maskWidth := (fill_maxArity filled).trans_le ready.limit
  have wf := (Lowering.slots_ok ready.wf lowered).1.wf ready.wf
  refine (follows_labelRef wf label).bind fun target υ _ => ?_
  exact (follows_expect (fill_proper limit)).bind fun _ _ _ => follows_pure _

theorem follows_copy (ready : σ.selector.Ready) (target source : Located Operand) :
    Follows (copy target source) (Lowering.copy target source) σ := by
  have wf := ready.wf
  unfold copy Lowering.copy
  cases left : target.node.keys with
  | nil =>
      cases right : source.node.keys with
      | nil => exact follows_operation ready "set" [target, source]
      | cons first rest =>
          refine (follows_atom wf target.node.base).bind fun dest τ lowered => ?_
          have wf := (Lowering.atom_ok wf lowered).1.wf wf
          refine (follows_atom wf source.node.base).bind fun container τ lowered => ?_
          have wf := (Lowering.atom_ok wf lowered).1.wf wf
          exact (follows_key wf first rest).bind fun _ _ _ => follows_pure _
  | cons first rest =>
      cases right : source.node.keys with
      | nil =>
          refine (follows_atom wf target.node.base).bind fun container τ lowered => ?_
          have wf := (Lowering.atom_ok wf lowered).1.wf wf
          refine (follows_key wf first rest).bind fun key τ collapsed => ?_
          have wf := (Lowering.key_ok wf collapsed).1.wf wf
          exact (follows_atom wf source.node.base).bind fun _ _ _ => follows_pure _
      | cons => exact follows_operation ready "set" [target, source]

theorem follows_create (ready : σ.selector.Ready) (target : Located Operand)
    (type : Located Atom) :
    Follows (create span target type) (Lowering.create span target type) σ := by
  have same : type.Moved Simulation.proper.place Eq type := ⟨rfl, rfl⟩
  have proper := (sound_proper.relates_typeNumber same).proper σ
  refine (follows_unwatched proper).bind fun id τ numbered => ?_
  have ready := ready.evolves (Lowering.typeNumber_ok ready.wf numbered).1.evolves
  refine follows_context ?_
  refine (follows_append ready.wf ready.limit target).bind fun d υ appended => ?_
  obtain ⟨slot, lowered, filled⟩ := Lowering.append_eq appended
  have limit : d.maxArity ≤ maskWidth := (fill_maxArity filled).trans_le ready.limit
  exact (follows_expect (fill_proper limit)).bind fun _ _ _ => follows_pure _

theorem follows_assign (ready : σ.selector.Ready) (target : Located Operand) (value : Value) :
    Follows (assign span target value) (Lowering.assign span target value) σ := by
  cases value with
  | operand source => exact follows_copy ready target source
  | binary | unary | defined | clone => exact follows_operation ready _ _
  | addr label => exact follows_labelOperation ready _ _ label
  | new type => exact follows_create ready target type

theorem follows_branch (ready : σ.selector.Ready) (negated : Bool) (condition : Condition)
    (label : String) :
    Follows (branch span negated condition label)
      (Lowering.branch span negated condition label) σ := by
  cases condition with
  | truth | compare => exact follows_labelOperation ready _ _ label

theorem follows_request (ready : σ.selector.Ready) (s : Located Statement) :
    Follows (request s) (Lowering.request s) σ := by
  obtain ⟨node, span⟩ := s
  cases node with
  | openSub name =>
      exact (follows_unwatched ((sound_proper.relates_openSubroutine rfl name).proper σ)).bind
        fun _ _ _ => follows_pure _
  | closeSub =>
      exact (follows_unwatched ((sound_proper.relates_closeSubroutine rfl).proper σ)).bind
        fun _ _ _ => follows_pure _
  | declare type name =>
      exact (follows_unwatched ((sound_proper.relates_declare rfl type name).proper σ)).bind
        fun _ _ _ => follows_pure _
  | label name => exact follows_pure _
  | instruction mnemonic operands =>
      exact (follows_operation ready mnemonic operands).bind fun _ _ _ => follows_pure _
  | assign target value =>
      exact (follows_assign ready target value).bind fun _ _ _ => follows_pure _
  | jump label | call label =>
      exact (follows_labelOperation ready _ [] label).bind fun _ _ _ => follows_pure _
  | branch negated condition label =>
      exact (follows_branch ready negated condition label).bind fun _ _ _ => follows_pure _

end Statements
end Checked

/-- The containers of a request have their keys. -/
def Request.HasKeys : Request → Prop
  | .operation _ context => context.keyed.HasKeys context.operands.length
  | .fetch .. | .store .. | .label _ => True

/-- The context of a request was empty when it was filled. -/
theorem Lowering.Asks.hasKeys {s : Located Statement} {σ τ : Lowering} {r : Request}
    (h : Asks s σ (some r) τ) : r.HasKeys := by
  cases r with
  | operation mnemonic context =>
      obtain ⟨slots, filled⟩ := h.filled
      exact Checked.fill_hasKeys (KeyedMask.hasKeys_empty _) filled
  | fetch | store | label => trivial

namespace Checked

section Runs

variable {s : Selector} {σ : Lowering} {r : Request}

theorem reply_answers (ready : s.Ready) (admitted : r.Admitted s) (keys : r.HasKeys) :
    Answers (reply r s) (r.answer s) := by
  cases r with
  | operation mnemonic context => exact resolve_answers ready.wf admitted keys
  | fetch dest container key => exact fetchIndexed_answers ready.wf ready.limit admitted
  | store container key value => exact storeIndexed_answers ready.wf ready.limit admitted
  | label name =>
      refine ⟨?_, fun fault failed => ?_⟩
      · rw [reply, leads_ok ready.wf]
        rfl
      · change (s.label name).2 = .error fault at failed
        unfold Selector.label at failed
        split at failed
        · cases failed
          exact id
        · cases failed

theorem shown_ok (ready : s.Ready) : s.instructions.forM (shown s.symbols) = .ok () := by
  refine forM_eq_ok.mpr fun i mem => ?_
  unfold shown
  cases label : i.isLabel with
  | true => rfl
  | false => exact known_eq_ok.mpr (ready.shown i mem label)

theorem answer_answers (ready : s.Ready) (admitted : r.Admitted s) (keys : r.HasKeys) :
    Answers (answer r s) (r.answer s) := by
  have replied := reply_answers ready admitted keys
  refine ⟨?_, replied.proper⟩
  have after := ready.evolves (admitted.evolves ready.wf)
  unfold answer
  rw [replied.run]
  change (do
    (r.answer s).1.instructions.forM (shown (r.answer s).1.symbols)
    return ((r.answer s).1, (r.answer s).2) : Checked _) = _
  rw [shown_ok after]
  rfl

theorem follows_statement (ready : σ.selector.Ready) (s : Located Statement) :
    Follows (statement s) (Lowering.statement s) σ := by
  refine (follows_request ready s).bind fun asked τ requested => ?_
  have asks := Lowering.request_asks requested
  cases asked with
  | none => exact follows_pure ()
  | some r =>
      have answered := answer_answers (ready.evolves asks.evolves) (asks.admitted ready.wf)
        asks.hasKeys
      exact (follows_select answered).bind fun _ _ _ => follows_pure ()

/-- Each statement leaves the selector ready for the next. -/
theorem follows_run (ready : σ.selector.Ready) (statements : List (Located Statement)) :
    Follows (statements.forM statement) (statements.forM Lowering.statement) σ := by
  induction statements generalizing σ with
  | nil => exact follows_pure ()
  | cons s statements ih =>
      refine (follows_statement ready s).bind fun _ τ ran => ?_
      exact ih (ready.evolves (Lowering.statement_evolves ready.wf ran))

theorem lower_passes (ready : s.Ready) (statements : List (Located Statement)) :
    Passes Stop.IsMisuse (lower statements s) (OpSelect.lower statements s) := by
  have runs : Follows (statements.forM statement) (statements.forM Lowering.statement)
      { selector := s } := follows_run ready statements
  refine Passes.bind runs fun out ran => ?_
  obtain ⟨_, state⟩ := out
  have after := ready.evolves (Lowering.run_evolves ready.wf ran)
  have names : (state.selector.symbols.names.forM fun (_, id) => known state.selector.symbols id) =
      .ok () :=
    forM_eq_ok.mpr fun entry mem => require_eq_ok.mpr (after.wf.named entry mem).1
  refine Passes.after names ?_
  dsimp only
  cases state.undefinedLabels with
  | nil => exact passes_ok _
  | cons d ds =>
      refine ⟨rfl, fun stop failed => ?_⟩
      cases failed
      exact id

/-- The finished unit can be listed. -/
theorem lower_shown (ready : s.Ready) {statements : List (Located Statement)} {lowered : Lowered}
    (h : OpSelect.lower statements s = .ok lowered) :
    lowered.unit.instructions.forM (shown lowered.unit.symbols) = .ok () := by
  obtain ⟨⟨_, state⟩, ran, ended⟩ := bind_eq_ok.mp h
  dsimp only at ended
  split at ended
  · cases ended
    exact shown_ok (ready.evolves (Lowering.run_evolves ready.wf ran))
  · cases ended

end Runs

section Texts

theorem negatable_iff {value : Nat} : Negatable value ↔ value ≤ maxInteger := by
  have limit : maxInteger + 1 = 2 ^ 63 := by decide
  constructor
  · rintro ⟨same, _⟩
    have bound := (BitVec.ofNat 64 value).two_mul_toInt_lt
    omega
  · intro fits
    have same : (BitVec.ofNat 64 value).toInt = value := by
      rw [BitVec.toInt_eq_toNat_cond, BitVec.toNat_ofNat, Nat.mod_eq_of_lt (by omega),
        if_pos (by omega)]
    refine ⟨same, ?_⟩
    rw [BitVec.negOverflow, same, beq_eq_false_iff_ne]
    omega

theorem parse_eq (source : String) : parse source = .ok (OpSelect.parse source) := by
  unfold parse OpSelect.parse
  cases lexed : tokenize source with
  | error diagnostics => rfl
  | ok tokens =>
      have negatable : (tokens.forM fun t => match t.kind with
          | .integer value => require (Negatable value) (.overflow value)
          | _ => .ok ()) = .ok () := by
        refine forM_eq_ok.mpr fun t mem => ?_
        have read := isRead_of_mem lexed mem
        split
        · rename_i value isInteger
          rw [isInteger] at read
          obtain ⟨p, rest, text, takes, denotes⟩ := read
          -- no token holds a larger number: the lexer has refused it
          cases denotes with
          | integer _ _ numeral fits => exact require_eq_ok.mpr (negatable_iff.mpr fits)
        · rfl
      dsimp only
      rw [negatable]
      rfl

/-- However a text is compiled, no check fails. -/
theorem compile_never_breaches (catalog : Catalog) (config : Config) (source : String) :
    compile catalog config source = .ok (OpSelect.compile catalog config source) ∧
      ∀ misuse, OpSelect.compile catalog config source ≠ .error (.misuse misuse) := by
  unfold compile OpSelect.compile Selector.start
  cases valid : config.validate with
  | error error => exact ⟨rfl, nofun⟩
  | ok =>
      dsimp only [Except.map]
      rw [parse_eq]
      cases OpSelect.parse source with
      | error diagnostics => exact ⟨rfl, nofun⟩
      | ok statements =>
          -- the settings are valid here, so that a mask has room for every operand
          have ready : ({ catalog, config } : Selector).Ready :=
            ⟨SymbolTable.wellFormed_empty, Config.maxArity_le valid, by simp⟩
          have lowers := lower_passes ready statements
          dsimp only [bind, Except.bind]
          rw [lowers.run]
          cases outcome : OpSelect.lower statements { catalog, config } with
          | ok lowered =>
              dsimp only
              rw [lower_shown ready outcome]
              exact ⟨rfl, nofun⟩
          | error stop =>
              cases stop with
              | reported diagnostics => exact ⟨rfl, nofun⟩
              | misuse misuse => exact absurd trivial (lowers.proper _ outcome)

end Texts
end Checked
end OpSelect
