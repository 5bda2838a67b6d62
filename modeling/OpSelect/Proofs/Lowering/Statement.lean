import OpSelect.Lowering.Statement
import OpSelect.Proofs.Lowering.Operand

/-!
What a statement asks for. `Asks` says it once for all statements: most of them have a `Form`, an
operation on operands and labels, and the others are copies of a single element, creations, labels
and declarations. What is said about requests elsewhere is derived from it; what adds up from atom
to atom and from label to label is carried to statements by `LowersStatements`. Here this is that
the names of a statement are known afterwards, and that the instructions which it emits use what
these names denote, constants, machine registers and new symbols only. A run of statements adds up
in the same way.
-/

namespace OpSelect

/-- The mnemonic, the operands and the targets of a statement, where these say all about it. -/
structure Form where
  mnemonic : String
  operands : List (Located Operand)
  targets : List String := []
deriving DecidableEq, Repr

def Value.form (target : Located Operand) : Value → Option Form
  | .operand source => some ⟨"set", [target, source], []⟩
  | .binary op lhs rhs => some ⟨op.mnemonic, [target, lhs, rhs], []⟩
  | .unary op source => some ⟨op.mnemonic, [target, source], []⟩
  | .addr label => some ⟨"set_addr", [target], [label]⟩
  | .defined source => some ⟨"defined", [target, source], []⟩
  | .clone source => some ⟨"clone", [target, source], []⟩
  | .new _ => none

def Condition.form (negated : Bool) (label : String) : Condition → Form
  | .truth operand => ⟨if negated then "unless" else "if", [operand], [label]⟩
  | .compare relation lhs rhs =>
      ⟨(if negated then relation.inverse else relation).mnemonic, [lhs, rhs], [label]⟩

def Statement.form : Statement → Option Form
  | .instruction mnemonic operands => some ⟨mnemonic, operands, []⟩
  | .assign target value => value.form target
  | .jump name => some ⟨"branch", [], [name]⟩
  | .call name => some ⟨"bsr", [], [name]⟩
  | .branch negated condition name => some (condition.form negated name)
  | .openSub _ | .closeSub | .declare _ _ | .label _ => none

def Value.names : Value → List String
  | .operand source | .unary _ source | .defined source | .clone source => source.node.names
  | .binary _ lhs rhs => lhs.node.names ++ rhs.node.names
  | .addr label => [label]
  | .new _ => []

def Condition.names : Condition → List String
  | .truth operand => operand.node.names
  | .compare _ lhs rhs => lhs.node.names ++ rhs.node.names

/-- The names of registers, variables and labels that a statement is written with. Mnemonics
and types have names of their own. -/
def Statement.names : Statement → List String
  | .closeSub => []
  | .openSub name | .declare _ name | .label name | .jump name | .call name => [name]
  | .instruction _ operands => operands.flatMap (·.node.names)
  | .assign target value => target.node.names ++ value.names
  | .branch _ condition name => condition.names ++ [name]

/-- The label that a statement defines. -/
def Statement.defines : Statement → List String
  | .openSub name | .label name => [name]
  | .closeSub | .declare .. | .instruction .. | .assign .. | .jump _ | .call _ | .branch .. => []

namespace Request

/-- The symbols that a request brings along. -/
def ids : Request → List SymbolId
  | operation _ context => context.operands
  | fetch dest container key => [dest, container, key]
  | store container key value => [container, key, value]
  | label _ => []

/-- The label that a request defines. -/
def labels : Request → List String
  | label name => [name]
  | operation .. | fetch .. | store .. => []

theorem answer_selects {r : Request} {s t : Selector} {names : List String} {first : Nat}
    (wf : s.symbols.WellFormed) (valid : s.symbols.AllDenote names r.ids)
    (sub : r.labels ⊆ names) (h : r.answer s = (t, .ok first)) :
    s.Selects names t ∧ ∀ name ∈ r.labels, ∃ id, t.symbols.lookup name = some id := by
  cases r with
  | operation mnemonic context => exact ⟨Selector.resolve_selects wf valid h, by simp [labels]⟩
  | fetch dest container key =>
      exact ⟨(s.indexes_fetch dest container key).selects wf valid h, by simp [labels]⟩
  | store container key value =>
      exact ⟨(s.indexes_store container key value).selects wf valid h, by simp [labels]⟩
  | label name =>
      obtain ⟨selects, known⟩ := Selector.label_selects wf h
      refine ⟨selects.mono sub, fun other mem => ?_⟩
      rw [List.mem_singleton.mp mem]
      exact known

end Request

namespace Lowering

variable {σ τ υ : Lowering} {names others : List String} {r : Request} {s : Located Statement}
  {asked : Option Request} {span : Span}

section Forms

/-- The operation of a form: its operands, and then the addresses of its targets. -/
def perform (span : Span) (f : Form) : Lower Request := do
  let context ← f.operands.foldlM append (← context)
  let context ← f.targets.foldlM
    (fun c label => do appendSymbol c span (← labelRef label span)) context
  return .operation f.mnemonic context

theorem operation_eq_perform (span : Span) (mnemonic : String) (operands : List (Located Operand)) :
    operation mnemonic operands = perform span ⟨mnemonic, operands, []⟩ := by
  simp [operation, perform]

theorem labelOperation_eq_perform (span : Span) (mnemonic : String)
    (operands : List (Located Operand)) (label : String) :
    labelOperation span mnemonic operands label = perform span ⟨mnemonic, operands, [label]⟩ := by
  simp [labelOperation, perform]

/-- A statement with a form performs it, copies apart. -/
theorem request_eq_perform {f : Form} (isForm : s.node.form = some f)
    (apart : ∀ target source, s.node ≠ .assign target (.operand source)) :
    request s = do return some (← perform s.span f) := by
  obtain ⟨node, span⟩ := s
  cases node with
  | openSub | closeSub | declare | label => cases isForm
  | instruction mnemonic operands =>
      cases isForm
      rw [← operation_eq_perform]
      rfl
  | jump name | call name =>
      cases isForm
      rw [← labelOperation_eq_perform]
      rfl
  | branch negated condition name =>
      cases condition with
      | truth | compare =>
          cases isForm
          rw [Condition.form, ← labelOperation_eq_perform]
          rfl
  | assign target value =>
      cases value with
      | operand source => exact absurd rfl (apart target source)
      | new => cases isForm
      | addr label =>
          cases isForm
          rw [← labelOperation_eq_perform]
          rfl
      | binary | unary | defined | clone =>
          cases isForm
          rw [← operation_eq_perform]
          rfl

end Forms

section Inversion

theorem perform_ok {f : Form} (h : (perform span f).run σ = .ok (r, τ)) :
    ∃ slots σ₁ ids c, (f.operands.mapM slot).run σ = .ok (slots, σ₁) ∧
      (f.targets.mapM (labelRef · span)).run σ₁ = .ok (ids, τ) ∧
      σ.selector.context.fill (slots ++ ids.map .plain) = .ok c ∧
      r = .operation f.mnemonic c := by
  obtain ⟨_, _, started, h⟩ := bind_ok h
  cases started
  obtain ⟨c, σ₁, appended, h⟩ := bind_ok h
  obtain ⟨d, σ₂, targeted, h⟩ := bind_ok h
  obtain ⟨rfl, rfl⟩ := pure_ok h
  obtain ⟨slots, lowered, filled⟩ := foldlM_fill_eq (g := id) appended
  obtain ⟨ids, referred, complete⟩ := foldlM_fill_eq targeted
  refine ⟨slots, σ₁, ids, d, lowered, referred, ?_, rfl⟩
  rw [List.map_id] at filled
  rw [Context.fill_append, filled]
  exact complete

theorem typeNumber_eq {type : Located Atom} {id : SymbolId}
    (h : (typeNumber type).run σ = .ok (id, τ)) :
    ∃ name number, σ.selector.catalog.typeId name = some number ∧
      (intern (·.constant (toString number) .integer)).run σ = .ok (id, τ) := by
  unfold typeNumber at h
  split at h
  · exact ⟨_, aggregateType_eq h⟩
  · exact ⟨_, aggregateType_eq h⟩
  · cases h

/-- What a statement asks for, and the state that it leaves. A copy with one indexed side asks for
an element of a container; other copies are operations. -/
inductive Asks (s : Located Statement) (σ : Lowering) : Option Request → Lowering → Prop where
  | operation {f : Form} {slots : List Slot} {ids : List SymbolId} {σ₁ τ : Lowering} {c : Context}
      (isForm : s.node.form = some f)
      (lowered : (f.operands.mapM slot).run σ = .ok (slots, σ₁))
      (referred : (f.targets.mapM (labelRef · s.span)).run σ₁ = .ok (ids, τ))
      (filled : σ.selector.context.fill (slots ++ ids.map .plain) = .ok c) :
      Asks s σ (some (.operation f.mnemonic c)) τ
  | create {target : Located Operand} {type : Located Atom} {id : SymbolId} {result : Slot}
      {σ₁ τ : Lowering} {c : Context} (isNew : s.node = .assign target (.new type))
      (numbered : (typeNumber type).run σ = .ok (id, σ₁))
      (lowered : (slot target).run σ₁ = .ok (result, τ))
      (filled : σ.selector.context.fill [result, .plain id] = .ok c) :
      Asks s σ (some (.operation "new" c)) τ
  | store {target source : Located Operand} {container key value : SymbolId} {τ : Lowering}
      (isCopy : s.node = .assign target (.operand source))
      (lowered : ([target, source].mapM slot).run σ =
        .ok ([.keyed container key, .plain value], τ)) :
      Asks s σ (some (.store container key value)) τ
  | fetch {target source : Located Operand} {dest container key : SymbolId} {τ : Lowering}
      (isCopy : s.node = .assign target (.operand source))
      (lowered : ([target, source].mapM slot).run σ =
        .ok ([.plain dest, .keyed container key], τ)) :
      Asks s σ (some (.fetch dest container key)) τ
  | label {name : String} {τ : Lowering} (isLabel : s.node = .openSub name ∨ s.node = .label name)
      (same : τ.selector = σ.selector) (noted : τ.labelRefs = σ.labelRefs) :
      Asks s σ (some (.label name)) τ
  | closed {τ : Lowering} (isEnd : s.node = .closeSub) (same : τ.selector = σ.selector)
      (noted : τ.labelRefs = σ.labelRefs) : Asks s σ none τ
  | declared {typeName name : String} {cls : ValueClass} {table : SymbolTable} {id : SymbolId}
      (isDeclaration : s.node = .declare typeName name)
      (found : σ.selector.symbols.declare name cls = .ok (table, id)) :
      Asks s σ none (σ.withSymbols table)

/-- A form that always makes a request. -/
theorem some_ok {m : Lower Request}
    (h : (m >>= fun r => pure (some r)).run σ = .ok (asked, τ)) :
    ∃ r, asked = some r ∧ m.run σ = .ok (r, τ) := by
  obtain ⟨r, σ₁, requested, h⟩ := bind_ok h
  obtain ⟨rfl, rfl⟩ := pure_ok h
  exact ⟨r, rfl, requested⟩

theorem perform_asks {f : Form} (isForm : s.node.form = some f)
    (h : (perform s.span f).run σ = .ok (r, τ)) : Asks s σ (some r) τ := by
  obtain ⟨slots, σ₁, ids, c, lowered, referred, filled, rfl⟩ := perform_ok h
  exact .operation isForm lowered referred filled

theorem slot_run_plain {o : Located Operand} {id : SymbolId} (plain : o.node.keys = [])
    (h : (atom o.node.base o.span).run σ = .ok (id, τ)) : (slot o).run σ = .ok (.plain id, τ) := by
  refine bind_run h ?_
  rw [plain]
  rfl

theorem slot_run_keyed {o : Located Operand} {container index : SymbolId} {first : Located Atom}
    {rest : List (Located Atom)} (keys : o.node.keys = first :: rest)
    (h : (atom o.node.base o.span).run σ = .ok (container, τ))
    (collapsed : (key first rest).run τ = .ok (index, υ)) :
    (slot o).run σ = .ok (.keyed container index, υ) := by
  refine bind_run h ?_
  rw [keys]
  exact bind_run collapsed rfl

theorem slots_run_pair {first second : Located Operand} {one two : Slot}
    (h : (slot first).run σ = .ok (one, τ)) (k : (slot second).run τ = .ok (two, υ)) :
    ([first, second].mapM slot).run σ = .ok ([one, two], υ) := by
  rw [List.mapM_cons, List.mapM_cons, List.mapM_nil]
  exact bind_run h (bind_run (bind_run k rfl) rfl)

theorem copy_asks {target source : Located Operand}
    (isCopy : s.node = .assign target (.operand source))
    (h : (copy target source).run σ = .ok (r, τ)) : Asks s σ (some r) τ := by
  unfold copy at h
  split at h
  · rename_i first rest indexed plain
    obtain ⟨container, σ₁, lowered, h⟩ := bind_ok h
    obtain ⟨index, σ₂, collapsed, h⟩ := bind_ok h
    obtain ⟨value, σ₃, valued, h⟩ := bind_ok h
    obtain ⟨rfl, rfl⟩ := pure_ok h
    exact .store isCopy
      (slots_run_pair (slot_run_keyed indexed lowered collapsed) (slot_run_plain plain valued))
  · rename_i first rest plain indexed
    obtain ⟨dest, σ₁, lowered, h⟩ := bind_ok h
    obtain ⟨container, σ₂, contained, h⟩ := bind_ok h
    obtain ⟨index, σ₃, collapsed, h⟩ := bind_ok h
    obtain ⟨rfl, rfl⟩ := pure_ok h
    exact .fetch isCopy
      (slots_run_pair (slot_run_plain plain lowered) (slot_run_keyed indexed contained collapsed))
  · rw [operation_eq_perform s.span] at h
    exact perform_asks (by rw [isCopy]; rfl) h

theorem create_asks {target : Located Operand} {type : Located Atom}
    (isNew : s.node = .assign target (.new type))
    (h : (create s.span target type).run σ = .ok (r, τ)) : Asks s σ (some r) τ := by
  obtain ⟨id, σ₁, numbered, h⟩ := bind_ok h
  obtain ⟨_, _, started, h⟩ := bind_ok h
  cases started
  obtain ⟨c, σ₂, appended, h⟩ := bind_ok h
  obtain ⟨d, σ₃, added, h⟩ := bind_ok h
  obtain ⟨rfl, rfl⟩ := pure_ok h
  obtain ⟨result, lowered, filled⟩ := append_eq appended
  obtain ⟨complete, rfl⟩ := expect_ok added
  refine .create isNew numbered lowered ?_
  obtain ⟨_, _, _, interned⟩ := typeNumber_eq numbered
  have same : σ₁.selector.context = σ.selector.context := by
    rw [(intern_ok interned).2]
    rfl
  rw [same] at filled
  rw [← List.singleton_append, Context.fill_append, filled]
  exact complete

theorem openSubroutine_asks {name : String} (isLabel : s.node = .openSub name)
    (h : (openSubroutine s.span name).run σ = .ok (r, τ)) : Asks s σ (some r) τ := by
  obtain ⟨_, _, got, h⟩ := bind_ok h
  cases got
  split at h
  · cases h
  · cases h
    exact .label (.inl isLabel) rfl rfl

theorem closeSubroutine_asks (isEnd : s.node = .closeSub)
    (h : (closeSubroutine s.span).run σ = .ok ((), τ)) : Asks s σ none τ := by
  obtain ⟨_, _, got, h⟩ := bind_ok h
  cases got
  split at h
  · cases h
    exact .closed isEnd rfl rfl
  · cases h

theorem declare_asks {typeName name : String} (isDeclaration : s.node = .declare typeName name)
    (h : (declare s.span typeName name).run σ = .ok ((), τ)) : Asks s σ none τ := by
  unfold declare at h
  split at h
  · obtain ⟨id, σ₁, added, h⟩ := bind_ok h
    obtain ⟨_, rfl⟩ := pure_ok h
    obtain ⟨table, found, rfl⟩ := symbols_ok added
    exact .declared isDeclaration found
  · cases h

theorem request_asks (h : (request s).run σ = .ok (asked, τ)) : Asks s σ asked τ := by
  have performed {f : Form} (isForm : s.node.form = some f)
      (apart : ∀ target source, s.node ≠ .assign target (.operand source)) : Asks s σ asked τ := by
    rw [request_eq_perform isForm apart] at h
    obtain ⟨r, rfl, ran⟩ := some_ok h
    exact perform_asks isForm ran
  obtain ⟨node, span⟩ := s
  cases node with
  | openSub name =>
      obtain ⟨r, rfl, opened⟩ := some_ok h
      exact openSubroutine_asks rfl opened
  | label name =>
      obtain ⟨rfl, rfl⟩ := pure_ok h
      exact .label (.inr rfl) rfl rfl
  | closeSub =>
      obtain ⟨_, σ₁, ended, h⟩ := bind_ok h
      obtain ⟨rfl, rfl⟩ := pure_ok h
      exact closeSubroutine_asks rfl ended
  | declare typeName name =>
      obtain ⟨_, σ₁, added, h⟩ := bind_ok h
      obtain ⟨rfl, rfl⟩ := pure_ok h
      exact declare_asks rfl added
  | instruction | jump | call | branch => exact performed rfl (by simp)
  | assign target value =>
      cases value with
      | operand source =>
          obtain ⟨r, rfl, ran⟩ := some_ok h
          exact copy_asks rfl ran
      | new type =>
          obtain ⟨r, rfl, ran⟩ := some_ok h
          exact create_asks rfl ran
      | binary | unary | addr | defined | clone => exact performed rfl (by simp)

/-- The context of an operation is an empty one that was filled. -/
theorem Asks.filled {mnemonic : String} {c : Context}
    (h : Asks s σ (some (.operation mnemonic c)) τ) :
    ∃ slots, σ.selector.context.fill slots = .ok c := by
  cases h with
  | operation _ _ _ filled | create _ _ _ filled => exact ⟨_, filled⟩

/-- A lowered statement made no request, or its request was answered. -/
theorem statement_ok (h : (statement s).run σ = .ok ((), τ)) :
    (request s).run σ = .ok (none, τ) ∨
      ∃ r reached selector first, (request s).run σ = .ok (some r, reached) ∧
        r.answer reached.selector = (selector, .ok first) ∧ τ = { reached with selector } := by
  obtain ⟨asked, reached, requested, h⟩ := bind_ok h
  cases asked with
  | none =>
      obtain ⟨_, rfl⟩ := pure_ok h
      exact .inl requested
  | some r =>
      obtain ⟨first, σ₂, selected, h⟩ := bind_ok h
      obtain ⟨_, rfl⟩ := pure_ok h
      obtain ⟨selector, answer, rfl⟩ := select_ok selected
      exact .inr ⟨r, reached, selector, first, requested, answer, rfl⟩

end Inversion

section Accumulation

variable {ι : Type} {T : List ι → Lowering → Lowering → Prop} {w : Located Atom → List ι}
  {target : Span → String → List ι} {declared : String → List ι}

/-- A relation that adds up along atoms also adds up along references to labels and
declarations, and what is not about symbols or labels does not matter to it. -/
structure LowersStatements (w : Located Atom → List ι) (target : Span → String → List ι)
    (declared : String → List ι) (T : List ι → Lowering → Lowering → Prop) : Prop
    extends LowersAtoms w T where
  constant : ∀ {text cls σ id τ}, (intern (·.constant text cls)).run σ = .ok (id, τ) → T [] σ τ
  labelRef : ∀ {name span σ id τ}, (Lowering.labelRef name span).run σ = .ok (id, τ) →
    T (target span name) σ τ
  declare : ∀ {name cls σ table id}, σ.selector.symbols.declare name cls = .ok (table, id) →
    T (declared name) σ (σ.withSymbols table)
  same : ∀ {σ τ}, τ.selector = σ.selector → τ.labelRefs = σ.labelRefs → T [] σ τ

/-- What is met in a statement: its operands, and then its targets or what it declares. -/
def weighStatement (w : Located Atom → List ι) (target : Span → String → List ι)
    (declared : String → List ι) (s : Located Statement) : List ι :=
  match s.node with
  | .declare _ name => declared name
  | .assign o (.new _) => weigh w o
  | node => (node.form.map fun f =>
      f.operands.flatMap (weigh w) ++ f.targets.flatMap (target s.span)).getD []

theorem weighStatement_form {f : Form} (isForm : s.node.form = some f) :
    weighStatement w target declared s =
      f.operands.flatMap (weigh w) ++ f.targets.flatMap (target s.span) := by
  obtain ⟨node, span⟩ := s
  cases node with
  | openSub | closeSub | declare | label => cases isForm
  | instruction | jump | call | branch =>
      cases isForm
      rfl
  | assign target value =>
      cases value with
      | new => cases isForm
      | operand | binary | unary | addr | defined | clone =>
          cases isForm
          rfl

theorem LowersStatements.asks (h : LowersStatements w target declared T)
    (asks : Asks s σ asked τ) : T (weighStatement w target declared s) σ τ := by
  cases asks with
  | operation isForm lowered referred _ =>
      rw [weighStatement_form isForm]
      exact h.trans (h.slots lowered) (h.mapM h.labelRef referred)
  | create isNew numbered lowered _ =>
      obtain ⟨_, number, _, interned⟩ := typeNumber_eq numbered
      rw [weighStatement, isNew]
      have all := h.trans (h.constant interned) (h.slot lowered)
      rwa [List.nil_append] at all
  | store isCopy lowered | fetch isCopy lowered =>
      have all := h.slots lowered
      rw [weighStatement_form (by rw [isCopy]; rfl), List.flatMap_nil, List.append_nil]
      exact all
  | label isLabel same noted =>
      have none : weighStatement w target declared s = [] := by
        rw [weighStatement]
        rcases isLabel with isLabel | isLabel <;> rw [isLabel] <;> rfl
      rw [none]
      exact h.same same noted
  | closed isEnd same noted =>
      rw [weighStatement, isEnd]
      exact h.same same noted
  | declared isDeclaration found =>
      rw [weighStatement, isDeclaration]
      exact h.declare found

end Accumulation

section Names

/-- The names that are known once the operands of a statement are lowered. The selector places the
label that a statement defines. -/
def operandNames (s : Located Statement) : List String :=
  weighStatement (fun a => a.node.names) (fun _ name => [name]) (fun name => [name]) s

theorem operandNames_defines (s : Located Statement) :
    operandNames s ++ s.node.defines = s.node.names := by
  have operand : weigh (fun a => a.node.names) = fun o => o.node.names := rfl
  obtain ⟨node, span⟩ := s
  cases node with
  | openSub | closeSub | declare | label | jump | call => rfl
  | instruction =>
      simp [operandNames, weighStatement, Statement.form, operand, Statement.names,
        Statement.defines]
  | branch negated condition name =>
      cases condition <;>
        simp [operandNames, weighStatement, Statement.form, Condition.form, operand,
          Statement.names, Condition.names, Statement.defines]
  | assign target value =>
      cases value <;>
        simp [operandNames, weighStatement, Statement.form, Value.form, operand, Statement.names,
          Value.names, Statement.defines]

theorem interned_same (same : τ.selector = σ.selector) : Interned [] σ τ :=
  ⟨same ▸ .refl, by rw [same], by simp⟩

theorem lowersStatements_interned :
    LowersStatements (fun a => a.node.names) (fun _ name => [name]) (fun name => [name])
      Interned where
  toLowersAtoms := lowersAtoms_interned
  constant := constant_interned
  labelRef ran := (labelRef_ok ran).1
  declare found := by
    obtain ⟨grown, leads⟩ := SymbolTable.declare_ok found
    exact (interned_symbols grown).lookup leads
  same same _ := interned_same same

theorem Asks.interned (h : Asks s σ asked τ) : Interned (operandNames s) σ τ :=
  lowersStatements_interned.asks h

theorem Asks.labels (h : Asks s σ asked τ) :
    asked.toList.flatMap Request.labels = s.node.defines := by
  cases h with
  | operation isForm =>
      obtain ⟨node, span⟩ := s
      cases node with
      | openSub | label => cases isForm
      | closeSub | declare | instruction | assign | jump | call | branch => rfl
  | create isStatement | store isStatement | fetch isStatement | closed isStatement
  | declared isStatement =>
      rw [isStatement]
      rfl
  | label isLabel => rcases isLabel with isLabel | isLabel <;> rw [isLabel] <;> rfl

theorem typeNumber_ok {type : Located Atom} {id : SymbolId} (wf : σ.selector.symbols.WellFormed)
    (h : (typeNumber type).run σ = .ok (id, τ)) :
    Interned [] σ τ ∧ τ.selector.symbols.Denotes [] id := by
  obtain ⟨_, number, _, interned⟩ := typeNumber_eq h
  refine ⟨constant_interned interned, ?_⟩
  cases interned
  exact SymbolTable.denotes_constant wf (toString number) .integer

theorem targets_denote {targets : List String} {ids : List SymbolId}
    (wf : σ.selector.symbols.WellFormed)
    (h : (targets.mapM (labelRef · span)).run σ = .ok (ids, τ)) :
    τ.selector.symbols.AllDenote targets ids := by
  have each : List.Forall₂ (fun name id => τ.selector.symbols.lookup name = some id) targets ids :=
    mapM_forall₂ (P := fun name id selector => selector.symbols.lookup name = some id)
      (fun ran => (labelRef_ok ran).1) (fun _ ran => (labelRef_ok ran).2)
      (fun _ interned leads => interned.grows.lookup leads) wf h
  intro id mem
  obtain ⟨name, written, leads⟩ := exists_mem_of_forall₂ each.flip mem
  exact .named name written leads

/-- The context of an operation holds the operands of the slots that it was filled with. -/
theorem operands_of_fill {selector : Selector} {slots : List Slot} {c : Context}
    (filled : selector.context.fill slots = .ok c) :
    c.operands = slots.flatMap Slot.operands := by
  have all := (Context.filled_context selector).fill filled
  rw [List.nil_append] at all
  exact all.operands

/-- A request brings only what the names of its statement denote. -/
theorem Asks.denote (wf : σ.selector.symbols.WellFormed) (h : Asks s σ (some r) τ) :
    τ.selector.symbols.AllDenote (operandNames s) r.ids := by
  cases h with
  | operation isForm lowered referred filled =>
      obtain ⟨interned, denote⟩ := slots_ok wf lowered
      have more :=
        (Accumulates.mapM ⟨.refl, .trans⟩ (fun ran => (labelRef_ok ran).1) referred).grows
      rw [operandNames, weighStatement_form isForm]
      change τ.selector.symbols.AllDenote _ (Context.operands _)
      rw [operands_of_fill filled]
      intro id mem
      rw [List.flatMap_append, List.mem_append] at mem
      rcases mem with mem | mem
      · exact (denote.grows more id mem).mono (List.subset_append_left _ _)
      · refine (targets_denote (interned.wf wf) referred id ?_).mono ?_
        · simpa [List.mem_flatMap, Slot.operands] using mem
        · simp
  | create isNew numbered lowered filled =>
      obtain ⟨interned, isNumber⟩ := typeNumber_ok wf numbered
      obtain ⟨more, denote⟩ := slot_ok (interned.wf wf) lowered
      rw [operandNames, weighStatement, isNew]
      change τ.selector.symbols.AllDenote _ (Context.operands _)
      rw [operands_of_fill filled]
      intro id mem
      rw [List.flatMap_cons, List.flatMap_singleton, List.mem_append] at mem
      rcases mem with mem | mem
      · exact denote id mem
      · rw [List.mem_singleton.mp mem]
        exact (isNumber.grows more.grows).mono (List.nil_subset _)
  | store isCopy lowered | fetch isCopy lowered =>
      have denote := (slots_ok wf lowered).2
      rw [operandNames, weighStatement_form (by rw [isCopy]; rfl), List.flatMap_nil,
        List.append_nil]
      exact denote
  | label => exact fun _ mem => absurd mem List.not_mem_nil

end Names

section Runs

/-- What holds of the state and the statements before it, and is kept by each statement, holds at
the end of a run. -/
theorem run_keeps {P : List (Located Statement) → Lowering → Prop}
    {statements : List (Located Statement)} (start : P [] σ)
    (step : ∀ s ∈ statements, ∀ {before τ υ}, P before τ →
      (statement s).run τ = .ok ((), υ) → P (before ++ [s]) υ)
    (h : (statements.forM statement).run σ = .ok ((), τ)) : P statements τ := by
  suffices ∀ before, P before σ → P (before ++ statements) τ by simpa using this [] start
  clear start
  induction statements generalizing σ with
  | nil =>
      obtain ⟨_, rfl⟩ := pure_ok h
      simp
  | cons s statements ih =>
      intro before holds
      obtain ⟨first, others⟩ := List.forall_mem_cons.mp step
      obtain ⟨_, σ₁, head, rest⟩ := bind_ok h
      have all := ih others rest (before ++ [s]) (first holds head)
      rwa [List.append_assoc, List.singleton_append] at all

/-- Statements with these names were lowered from `σ` to `τ`. -/
structure Runs (names : List String) (σ τ : Lowering) : Prop where
  selects : σ.selector.Selects names τ.selector
  known : ∀ name ∈ names, machineRegister? name = none →
    ∃ id, τ.selector.symbols.lookup name = some id

theorem Interned.runs (h : Interned names σ τ) : Runs names σ τ := by
  have same : τ.selector.instructions = σ.selector.instructions := by rw [h.rest]
  exact ⟨⟨h.grows, [], by rw [same, List.append_nil], by simp⟩, h.known⟩

theorem Runs.trans (h : Runs names σ τ) (k : Runs others τ υ) : Runs (names ++ others) σ υ := by
  refine ⟨h.selects.trans k.selects, fun name mem ordinary => ?_⟩
  cases List.mem_append.mp mem with
  | inl mem =>
      obtain ⟨id, leads⟩ := h.known name mem ordinary
      exact ⟨id, k.selects.grows.lookup leads⟩
  | inr mem => exact k.known name mem ordinary

theorem Runs.wf (h : Runs names σ τ) (wf : σ.selector.symbols.WellFormed) :
    τ.selector.symbols.WellFormed :=
  wf.grows h.selects.grows

/-- An answer after the request: the names were known, or are its label. -/
theorem Interned.answered {first : Nat} {selector : Selector} (h : Interned names σ τ)
    (wf : σ.selector.symbols.WellFormed) (denote : τ.selector.symbols.AllDenote names r.ids)
    (answer : r.answer τ.selector = (selector, .ok first)) :
    Runs (names ++ r.labels) σ { τ with selector } := by
  have valid : τ.selector.symbols.AllDenote (names ++ r.labels) r.ids :=
    fun id mem => (denote id mem).mono (List.subset_append_left _ _)
  obtain ⟨selects, placed⟩ :=
    Request.answer_selects (h.wf wf) valid (List.subset_append_right _ _) answer
  have both := h.runs.selects.trans selects
  refine ⟨both.mono (List.append_subset.mpr ⟨List.subset_append_left _ _, List.Subset.refl _⟩), ?_⟩
  intro name mem ordinary
  cases List.mem_append.mp mem with
  | inl mem =>
      obtain ⟨id, leads⟩ := h.known name mem ordinary
      exact ⟨id, selects.grows.lookup leads⟩
  | inr mem => exact placed name mem

theorem statement_runs (wf : σ.selector.symbols.WellFormed)
    (h : (statement s).run σ = .ok ((), τ)) : Runs s.node.names σ τ := by
  rw [← operandNames_defines]
  rcases statement_ok h with requested | ⟨r, reached, selector, first, requested, answer, rfl⟩
  · have asks := request_asks requested
    rw [← asks.labels]
    simpa using asks.interned.runs
  · have asks := request_asks requested
    rw [← asks.labels]
    simpa using asks.interned.answered wf (asks.denote wf) answer

theorem run_runs {statements : List (Located Statement)}
    (wf : σ.selector.symbols.WellFormed)
    (h : (statements.forM statement).run σ = .ok ((), τ)) :
    Runs (statements.flatMap (·.node.names)) σ τ := by
  refine run_keeps (P := fun before τ => Runs (before.flatMap (·.node.names)) σ τ)
    (Interned.refl σ).runs (fun s _ before τ υ runs ran => ?_) h
  rw [List.flatMap_append, List.flatMap_singleton]
  exact runs.trans (statement_runs (runs.wf wf) ran)

theorem forM_append_ok {first second : List (Located Statement)}
    (h : ((first ++ second).forM statement).run σ = .ok ((), υ)) :
    ∃ τ, (first.forM statement).run σ = .ok ((), τ) ∧
      (second.forM statement).run τ = .ok ((), υ) := by
  rw [List.forM_eq_forM, List.forM_append] at h
  obtain ⟨_, τ, head, tail⟩ := bind_ok h
  exact ⟨τ, head, tail⟩

end Runs
end Lowering
end OpSelect
