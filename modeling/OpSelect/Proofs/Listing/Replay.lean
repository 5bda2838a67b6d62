import OpSelect.Proofs.Listing.Legible
import OpSelect.Proofs.Listing.Reading

/-!
Lowering the lines of a listing. Where names lead to what they are spelled for, an atom leads to
the symbol that it is shown for, whatever was lowered before. So each line brings back its
instruction, with other ids for the same symbols.
-/

namespace OpSelect

namespace SymbolTable

variable {t u : SymbolTable} {symbol : Symbol} {name : String} {id : SymbolId}

/-- The id is one of the table's and stands for the symbol. -/
structure Bears (t : SymbolTable) (symbol : Symbol) (id : SymbolId) : Prop where
  valid : id < t.size
  get : t.get id = symbol

theorem Bears.grows (h : t.Bears symbol id) (grown : t.Grows u) : u.Bears symbol id :=
  ⟨Nat.lt_of_lt_of_le h.valid grown.size_le, (grown.get h.valid).trans h.get⟩

theorem map_get_of_bears {symbols : List Symbol} {ids : List SymbolId}
    (h : List.Forall₂ t.Bears symbols ids) : ids.map t.get = symbols :=
  map_eq_of_forall₂ (h.imp fun _ _ bears => bears.get)

theorem valid_of_bears {symbols : List Symbol} {ids : List SymbolId}
    (h : List.Forall₂ t.Bears symbols ids) : ∀ id ∈ ids, id < t.size :=
  forall_of_forall₂ h fun _ _ _ bears => bears.valid

theorem bears_constant (wf : t.WellFormed) (text : String) (cls : ValueClass) :
    (t.constant text cls).1.Bears ⟨text, cls, .constant⟩ (t.constant text cls).2 := by
  obtain ⟨valid, get⟩ := constant_ok wf text cls
  exact ⟨valid, get⟩

namespace AsSpelled

theorem bears (h : t.AsSpelled) (leads : t.lookup name = some id)
    (fits : .spelled name = symbol) : t.Bears symbol id :=
  ⟨h.wf.lt_of_lookup leads, (h.get leads).trans fits⟩

/-- A value is never refused where its name is spelled for it. -/
theorem mention_ok (h : t.AsSpelled) (fits : .spelled symbol.name = symbol)
    (value : symbol.kind ≠ .address) : ∃ u id, t.mention symbol = .ok (u, id) := by
  unfold SymbolTable.mention
  cases found : t.lookup symbol.name with
  | none => exact ⟨_, _, rfl⟩
  | some id =>
      have get := (h.get found).trans fits
      refine ⟨t, id, ?_⟩
      simp [expectValue, get, value, Except.map]

theorem address_ok (h : t.AsSpelled) (fits : Symbol.SpellsLabel name) :
    ∃ u id, t.address name = .ok (u, id) := by
  unfold SymbolTable.address
  cases found : t.lookup name with
  | none => exact ⟨_, _, rfl⟩
  | some id =>
      have get := (h.get found).trans fits
      refine ⟨t, id, ?_⟩
      simp [get]

/-- A label that has no definition yet can be defined. -/
theorem placeLabel_ok (h : t.AsSpelled) (fits : Symbol.SpellsLabel name)
    (new : ∀ id, t.labelId name = some id → id ∉ t.definedLabels) :
    ∃ u id, t.placeLabel name = (u, .ok id) := by
  obtain ⟨u, id, found⟩ := h.address_ok fits
  have undefined : u.isDefinedLabel id = false := by
    rcases address_cases found with ⟨rfl, leads⟩ | ⟨_, pushed⟩
    · simpa [isDefinedLabel] using new id (labelId_eq_some.mpr leads)
    · cases pushed
      simpa [isDefinedLabel] using fun mem => Nat.lt_irrefl _ (h.wf.labels _ mem).1
  refine ⟨{ u with definedLabels := u.definedLabels ++ [id] }, id, ?_⟩
  simp [SymbolTable.placeLabel, found, undefined]

end AsSpelled
end SymbolTable

namespace Lowering

variable {α β γ : Type} {σ τ υ : Lowering} {span : Span} {labels : List String}

/-- Symbols were added and these instructions, and all names are as spelled. -/
structure Restates (σ τ : Lowering) (group : List Instruction) : Prop where
  grows : σ.selector.symbols.Grows τ.selector.symbols
  catalog : τ.selector.catalog = σ.selector.catalog
  config : τ.selector.config = σ.selector.config
  instructions : τ.selector.instructions = σ.selector.instructions ++ group
  openSub : τ.openSub = σ.openSub
  spelled : τ.selector.symbols.AsSpelled

theorem Restates.refl (spelled : σ.selector.symbols.AsSpelled) : Restates σ σ [] :=
  ⟨.refl, rfl, rfl, (List.append_nil _).symm, rfl, spelled⟩

theorem Restates.trans {group others : List Instruction} (h : Restates σ τ group)
    (k : Restates τ υ others) : Restates σ υ (group ++ others) where
  grows := h.grows.trans k.grows
  catalog := k.catalog.trans h.catalog
  config := k.config.trans h.config
  instructions := by rw [k.instructions, h.instructions, List.append_assoc]
  openSub := k.openSub.trans h.openSub
  spelled := k.spelled

/-- The program finishes, adds nothing but symbols, and its result fits the table. -/
def Restores (σ : Lowering) (m : Lower α) (fits : SymbolTable → α → Prop) : Prop :=
  ∃ a τ, m.run σ = .ok (a, τ) ∧ Restates σ τ [] ∧ fits τ.selector.symbols a

theorem Restores.bind {m : Lower α} {f : α → Lower β} {P : SymbolTable → α → Prop}
    {Q : SymbolTable → β → Prop} (h : Restores σ m P)
    (k : ∀ a τ, Restates σ τ [] → P τ.selector.symbols a → Restores τ (f a) Q) :
    Restores σ (m >>= f) Q := by
  obtain ⟨a, τ, first, one, fits⟩ := h
  obtain ⟨b, υ, rest, two, result⟩ := k a τ one fits
  exact ⟨b, υ, bind_run first rest, one.trans two, result⟩

theorem restores_pure {a : α} {P : SymbolTable → α → Prop}
    (spelled : σ.selector.symbols.AsSpelled) (fits : P σ.selector.symbols a) :
    Restores σ (pure a) P :=
  ⟨a, σ, rfl, .refl spelled, fits⟩

/-- Parts are restored one by one if a grown table keeps what is restored. -/
theorem restores_mapM {f : β → Lower γ} {P : SymbolTable → α → γ → Prop}
    (kept : ∀ {t u a c}, P t a c → t.Grows u → P u a c) {as : List α} {bs : List β}
    (each : List.Forall₂ (fun a b => ∀ σ : Lowering, σ.selector.symbols.AsSpelled →
      Restores σ (f b) fun t c => P t a c) as bs) (spelled : σ.selector.symbols.AsSpelled) :
    Restores σ (bs.mapM f) fun t cs => List.Forall₂ (P t) as cs := by
  induction each generalizing σ with
  | nil => exact restores_pure spelled .nil
  | cons head _ ih =>
      rw [List.mapM_cons]
      refine (head σ spelled).bind fun c τ one first => ?_
      refine (ih one.spelled).bind fun cs υ two others => restores_pure two.spelled ?_
      exact .cons (kept first two.grows) others

section Operands

theorem restates_symbols {table : SymbolTable} (grown : σ.selector.symbols.Grows table)
    (spelled : table.AsSpelled) :
    Restates σ { σ with selector := { σ.selector with symbols := table } } [] :=
  ⟨grown, rfl, rfl, (List.append_nil _).symm, rfl, spelled⟩

theorem intern_restores {step : SymbolTable → SymbolTable × SymbolId} {symbol : Symbol}
    (grown : σ.selector.symbols.Grows (step σ.selector.symbols).1)
    (spelled : (step σ.selector.symbols).1.AsSpelled)
    (bears : (step σ.selector.symbols).1.Bears symbol (step σ.selector.symbols).2) :
    Restores σ (intern step) fun t id => t.Bears symbol id :=
  ⟨_, _, rfl, restates_symbols grown spelled, bears⟩

theorem constant_restores (spelled : σ.selector.symbols.AsSpelled) (text : String)
    (cls : ValueClass) :
    Restores σ (intern (·.constant text cls)) fun t id => t.Bears ⟨text, cls, .constant⟩ id :=
  intern_restores (SymbolTable.grows_constant ..) (spelled.constant text cls)
    (SymbolTable.bears_constant spelled.wf text cls)

theorem symbols_restores {step : SymbolTable → Except SymbolError (SymbolTable × SymbolId)}
    {table : SymbolTable} {symbol : Symbol} {id : SymbolId}
    (stepped : step σ.selector.symbols = .ok (table, id))
    (grown : σ.selector.symbols.Grows table) (spelled : table.AsSpelled)
    (bears : table.Bears symbol id) :
    Restores σ (symbols span step) fun t id => t.Bears symbol id :=
  ⟨id, _, symbols_run stepped, restates_symbols grown spelled, bears⟩

theorem mention_restores (symbol : Symbol) (spelled : σ.selector.symbols.AsSpelled)
    (fits : .spelled symbol.name = symbol) (value : symbol.kind ≠ .address) (span : Span) :
    Restores σ (symbols span (·.mention symbol)) fun t id => t.Bears symbol id := by
  obtain ⟨table, id, found⟩ := spelled.mention_ok fits value
  have constant : symbol.kind ≠ .constant := fits ▸ Symbol.spelled_kind _
  obtain ⟨grown, leads⟩ :=
    SymbolTable.mention_ok constant (fits ▸ Symbol.spelled_nameFits _) found
  have spelled := spelled.mention fits found
  exact symbols_restores found grown spelled (spelled.bears leads fits)

theorem restates_note (spelled : σ.selector.symbols.AsSpelled) (id : SymbolId) (span : Span) :
    Restates σ (σ.note id span) [] := by
  unfold note
  split
  · exact .refl spelled
  · exact ⟨.refl, rfl, rfl, (List.append_nil _).symm, rfl, spelled⟩

theorem labelRef_restores {name : String} (spelled : σ.selector.symbols.AsSpelled)
    (fits : Symbol.SpellsLabel name) (span : Span) :
    Restores σ (labelRef name span) fun t id => t.Bears ⟨name, .integer, .address⟩ id := by
  obtain ⟨table, id, found⟩ := spelled.address_ok fits
  obtain ⟨grown, leads, _⟩ := SymbolTable.address_ok found
  have spelled := spelled.address fits found
  refine Restores.bind (symbols_restores found grown spelled (spelled.bears leads fits)) ?_
  intro id τ one bears
  refine ⟨id, τ.note id span, rfl, restates_note one.spelled id span, ?_⟩
  rw [τ.selector_note]
  exact bears

theorem word_run (name : String) (span : Span) (σ : Lowering) :
    (word name span).run σ =
      match σ.selector.symbols.lookup name with
      | some id =>
          if (σ.selector.symbols.get id).kind = .address then (word.undeclared name span).run σ
          else .ok (id, σ)
      | none => (word.undeclared name span).run σ := by
  change StateT.run (match σ.selector.symbols.lookup name with
    | some id => if (σ.selector.symbols.get id).kind = .address then word.undeclared name span
        else pure id
    | none => word.undeclared name span : Lower SymbolId) σ = _
  split
  · split <;> rfl
  · rfl

/-- A word that leads to an address or nowhere is a machine register or a label. -/
theorem word_restores_label {name : String} (spelled : σ.selector.symbols.AsSpelled)
    (isLabel : IsLabel name) (span : Span) :
    Restores σ (word name span) fun t id => t.Bears ⟨name, .integer, .address⟩ id := by
  have fits : Symbol.SpellsLabel name := Symbol.spellsLabel isLabel.isName.sigil isLabel.ordinary
  have undeclared : (word.undeclared name span).run σ = (labelRef name span).run σ := by
    rw [word.undeclared, isLabel.ordinary]
  have run : (word name span).run σ = (labelRef name span).run σ := by
    rw [word_run, undeclared]
    split
    · rename_i id found
      rw [if_pos (by rw [(spelled.get found).trans fits])]
    · rfl
  unfold Restores
  rw [run]
  exact labelRef_restores spelled fits span

theorem word_restores_register (spelled : σ.selector.symbols.AsSpelled) (cls : ValueClass)
    {index : Nat} (small : index < 256) (span : Span) :
    Restores σ (word (cls.machineRegister index) span) fun t id =>
      t.Bears ⟨cls.machineRegister index, cls, .machineRegister index⟩ id := by
  have fits := Symbol.spelled_machineRegister cls small
  unfold Restores
  rw [word_run]
  split
  · rename_i id found
    have bears := spelled.bears found fits
    rw [if_neg (by simp [bears.get])]
    exact ⟨id, σ, rfl, .refl spelled, bears⟩
  · rw [word.undeclared, cls.machineRegister?_machineRegister index small]
    exact mention_restores ⟨_, cls, .machineRegister index⟩ spelled fits (by simp) span

/-- The atom that a symbol is read back as leads to the symbol. -/
theorem atom_restores {symbol : Symbol} {a : Atom} (h : symbol.ReadAs labels a) (span : Span)
    (spelled : σ.selector.symbols.AsSpelled) :
    Restores σ (atom a span) fun t id => t.Bears symbol id := by
  cases h with
  | integer value fits => exact constant_restores spelled (toString value) .integer
  | float text isFloat => exact constant_restores spelled text .float
  | negativeFloat text isFloat => exact constant_restores spelled ("-" ++ text) .float
  | string value printable => exact constant_restores spelled value .string
  | register name cls isRegister ofClass =>
      have sigil := (register_of_mem isRegister).1
      unfold registerClass? at ofClass
      unfold atom
      dsimp only
      rw [ofClass]
      exact mention_restores ⟨name, cls, .var⟩ spelled (Symbol.spelled_register sigil ofClass)
        (by simp) span
  | machine cls index small => exact word_restores_register spelled cls small span
  | label name mem isLabel => exact word_restores_label spelled isLabel span

theorem atoms_restore {symbols : List Symbol} {parts : List (Located Atom)}
    (h : List.Forall₂ (Symbol.ReadAs labels) symbols (parts.map Located.node))
    (spelled : σ.selector.symbols.AsSpelled) :
    Restores σ (parts.mapM fun part => atom part.node part.span) fun t ids =>
      List.Forall₂ t.Bears symbols ids := by
  refine restores_mapM (fun bears => bears.grows) ?_ spelled
  exact (List.forall₂_map_right_iff.mp h).imp fun _ part read _ => atom_restores read part.span

/-- The keys that a symbol is read back as come to the symbol. -/
theorem key_restores {symbol : Symbol} {first : Located Atom} {rest : List (Located Atom)}
    (h : symbol.KeyReadAs labels ((first :: rest).map Located.node))
    (spelled : σ.selector.symbols.AsSpelled) :
    Restores σ (key first rest) fun t id => t.Bears symbol id := by
  generalize keys : (first :: rest).map Located.node = atoms at h
  cases h with
  | lone read =>
      obtain ⟨rfl, none⟩ := List.cons.inj keys
      obtain rfl := List.map_eq_nil_iff.mp none
      refine (atom_restores read first.span spelled).bind fun id τ one bears => ?_
      refine (restores_pure (P := fun _ ids => ids = []) one.spelled rfl).bind ?_
      rintro _ υ two rfl
      exact intern_restores .refl two.spelled (bears.grows two.grows)
  | @chain parts _ several each =>
      subst keys
      cases each with
      | @cons head _ tail _ isHead areTail =>
          refine (atom_restores isHead first.span spelled).bind fun id τ one isFirst => ?_
          refine (atoms_restore areTail one.spelled).bind fun ids υ two areRest => ?_
          have all := SymbolTable.map_get_of_bears (.cons (isFirst.grows two.grows) areRest)
          refine intern_restores (SymbolTable.grows_collapse ..) (two.spelled.collapse _) ?_
          cases areRest with
          | nil => exact absurd several (by simp)
          | cons _ _ =>
              rw [← all]
              exact ⟨by simp [KeyChain.collapse, SymbolTable.push, SymbolTable.size],
                SymbolTable.get_append_size ..⟩

end Operands
end Lowering

/-- The other slot has the same shape and stands for the same symbols. -/
structure Slot.SameAs (t u : SymbolTable) (slot other : Slot) : Prop where
  shape : other.shape = slot.shape
  symbols : List.Forall₂ u.Bears (slot.operands.map t.get) other.operands

namespace Slot

variable {t u v : SymbolTable} {slot other : Slot} {slots others : List Slot}

theorem SameAs.grows (h : slot.SameAs t u other) (grown : u.Grows v) : slot.SameAs t v other :=
  ⟨h.shape, h.symbols.imp fun _ _ bears => bears.grows grown⟩

theorem bears_of_sameAs (h : List.Forall₂ (SameAs t u) slots others) :
    List.Forall₂ u.Bears ((slots.flatMap operands).map t.get) (others.flatMap operands) := by
  induction h with
  | nil => exact .nil
  | cons head _ ih =>
      rw [List.flatMap_cons, List.flatMap_cons, List.map_append]
      exact List.rel_append head.symbols ih

theorem mask_of_sameAs (h : List.Forall₂ (SameAs t u) slots others) (position : Nat) :
    mask position others = mask position slots := by
  induction h generalizing position with
  | nil => rfl
  | @cons slot other _ _ head _ ih =>
      have shape := head.shape
      cases slot <;> cases other <;> simp_all [mask, Slot.shape]

end Slot

namespace Lowering

variable {σ τ υ : Lowering} {labels : List String} {t : SymbolTable}

theorem slot_restores {slot : Slot} {o : Located Operand}
    (h : slot.ReadAs labels t o.node.item) (spelled : σ.selector.symbols.AsSpelled) :
    Restores σ (Lowering.slot o) fun u other => slot.SameAs t u other := by
  obtain ⟨⟨base, keys⟩, span⟩ := o
  unfold Operand.item at h
  cases keys with
  | nil =>
      cases h with
      | plain read =>
          refine (atom_restores read span spelled).bind fun id τ one bears => ?_
          exact restores_pure one.spelled ⟨rfl, .cons bears .nil⟩
      | keyed _ chain => exact absurd rfl chain.ne_nil
  | cons first rest =>
      cases h with
      | keyed read chain =>
          refine (atom_restores read span spelled).bind fun id τ one isBase => ?_
          refine (key_restores chain one.spelled).bind fun key υ two isKey => ?_
          exact restores_pure two.spelled ⟨rfl, .cons (isBase.grows two.grows) (.cons isKey .nil)⟩

/-- Operands are appended one by one, which is filling in all their slots. -/
theorem foldlM_append_run {operands : List (Located Operand)} {slots : List Slot} {c d : Context}
    (lowered : (operands.mapM Lowering.slot).run σ = .ok (slots, τ))
    (filled : c.fill slots = .ok d) : (operands.foldlM append c).run σ = .ok (d, τ) := by
  induction operands generalizing σ slots c with
  | nil =>
      obtain ⟨rfl, rfl⟩ := pure_ok lowered
      cases filled
      rfl
  | cons o operands ih =>
      rw [List.mapM_cons] at lowered
      obtain ⟨slot, σ₁, isSlot, lowered⟩ := bind_ok lowered
      obtain ⟨others, σ₂, areOthers, lowered⟩ := bind_ok lowered
      obtain ⟨rfl, rfl⟩ := pure_ok lowered
      have parts : c.fill ([slot] ++ others) = .ok d := filled
      rw [Context.fill_append] at parts
      obtain ⟨e, one, more⟩ := bind_eq_ok.mp parts
      rw [List.foldlM_cons]
      refine bind_run (bind_run isSlot ?_) (ih areOthers more)
      rw [one]
      rfl

/-- The operands that slots are read back as fill a context with the same symbols. -/
theorem operation_restores (mnemonic : String) {operands : List (Located Operand)}
    {slots : List Slot}
    (each : List.Forall₂ (Slot.ReadAs labels t) slots (operands.map fun o => o.node.item))
    (room : Slot.width slots ≤ σ.selector.config.maxArity)
    (limit : σ.selector.config.maxArity ≤ maskWidth)
    (spelled : σ.selector.symbols.AsSpelled) :
    Restores σ (operation mnemonic operands) fun u asked =>
      ∃ c, asked = .operation mnemonic c ∧ c.keyed = Slot.mask 0 slots ∧
        List.Forall₂ u.Bears ((slots.flatMap Slot.operands).map t.get) c.operands := by
  obtain ⟨others, τ, lowered, restated, same⟩ := restores_mapM (f := Lowering.slot)
    (P := Slot.SameAs t) (fun same => same.grows)
    ((List.forall₂_map_right_iff.mp each).imp fun _ _ read _ => slot_restores read) spelled
  have symbols := Slot.bears_of_sameAs same
  have width : Slot.width others = Slot.width slots := by
    simpa [Slot.width] using symbols.length_eq.symm
  have enough : Slot.width ([] ++ others) ≤ σ.selector.context.maxArity := by
    rw [List.nil_append, width]
    exact room
  obtain ⟨c, fill, filled⟩ :=
    Context.fill_of_room (Context.filled_context σ.selector) enough limit
  refine ⟨.operation mnemonic c, τ, ?_, restated, c, rfl, ?_, ?_⟩
  · exact bind_run (a := σ.selector.context) rfl (bind_run (foldlM_append_run lowered fill) rfl)
  · rw [filled.keyed]
    exact Slot.mask_of_sameAs same 0
  · rw [filled.operands]
    exact symbols

end Lowering

/-- The other instruction differs at most in its ids, and they stand for the same symbols. -/
structure Instruction.SameAs (t u : SymbolTable) (i other : Instruction) : Prop where
  form : ∃ ids, other = { i with operands := ids }
  valid : ∀ id ∈ other.operands, id < u.size
  symbols : i.isLabel = false → other.operands.map u.get = i.operands.map t.get

namespace Instruction

variable {t u v : SymbolTable} {i other : Instruction}

theorem SameAs.grows (h : i.SameAs t u other) (grown : u.Grows v) : i.SameAs t v other := by
  refine ⟨h.form, fun id mem => Nat.lt_of_lt_of_le (h.valid id mem) grown.size_le, ?_⟩
  intro operation
  rw [← h.symbols operation]
  exact List.map_congr_left fun id mem => grown.get (h.valid id mem)

theorem SameAs.record_eq (h : i.SameAs t u other) : other.record u = i.record t := by
  have symbols := h.symbols
  obtain ⟨ids, rfl⟩ := h.form
  have text : render { i with operands := ids } u = i.render t := by
    unfold render isLabel
    dsimp only
    split
    · rfl
    · rename_i operation
      have texts := congrArg (List.map Symbol.displayText)
        (symbols (by simpa [isLabel] using operation))
      rw [List.map_map, List.map_map] at texts
      have same : (ids.map fun id => (u.get id).displayText) =
          i.operands.map fun id => (t.get id).displayText := texts
      rw [same]
  unfold record
  rw [text]

end Instruction

/-- A unit with the same records has the same listing. -/
theorem CodeUnit.listing_eq_of_records {u v : CodeUnit} (h : v.records = u.records) :
    v.listing = u.listing := by
  have lines (w : CodeUnit) : w.listing = String.join (w.records.map fun record =>
      (if record.kind == .label then "" else "    ") ++ record.text ++ "\n") := by
    rw [listing, records, List.map_map]
    rfl
  rw [lines, lines, h]

/-- The statement is the line that the instruction is read back as. -/
def Instruction.ShownBy (labels : List String) (t : SymbolTable) (i : Instruction)
    (s : Located Statement) : Prop :=
  ∃ line, i.ReadAs labels t line ∧ s.node.line? = some line

namespace Lowering

variable {σ τ : Lowering} {labels : List String} {t : SymbolTable} {i : Instruction}
  {s : Located Statement} {refs : List Reference} {defs : List String}

theorem statement_run {r : Request} {selector : Selector} {first : Nat}
    (asked : (request s).run σ = .ok (some r, τ))
    (answered : r.answer τ.selector = (selector, .ok first)) :
    (statement s).run σ = .ok ((), { τ with selector }) :=
  bind_run asked (bind_run (select_run answered) rfl)

/-- The line of an operation brings it back. -/
theorem operation_again {operands : List (Located Operand)} {slots : List Slot}
    (isLine : s.node = .instruction i.mnemonic operands)
    (spelling : i.spelling = Slot.spelling i.mnemonic slots)
    (each : List.Forall₂ (Slot.ReadAs labels t) slots (operands.map fun o => o.node.item))
    (built : i.Built σ.selector.catalog t)
    (justified : i.Justified σ.selector.catalog σ.selector.config.maxArity t)
    (limit : σ.selector.config.maxArity ≤ maskWidth)
    (spelled : σ.selector.symbols.AsSpelled) :
    ∃ other τ, (statement s).run σ = .ok ((), τ) ∧ Restates σ τ [other] ∧
      i.SameAs t τ.selector.symbols other := by
  have operandsEq : i.operands = slots.flatMap Slot.operands :=
    congrArg Spelling.operands spelling
  have keyed : i.keyed = Slot.mask 0 slots := congrArg Spelling.keyed spelling
  have room : Slot.width slots ≤ σ.selector.config.maxArity := by
    rw [Slot.width, ← operandsEq]
    exact justified.arity
  obtain ⟨_, τ, requested, restated, c, rfl, marks, bears⟩ :=
    operation_restores i.mnemonic each room limit spelled
  rw [← keyed] at marks
  have same : c.operands.map τ.selector.symbols.get = i.operands.map t.get := by
    rw [SymbolTable.map_get_of_bears bears, operandsEq]
  let finished : Selector := { τ.selector with symbols := t }
  have before : finished.build i.mnemonic i.operands i.keyed = .ok i :=
    built.again finished restated.catalog rfl
  have renamed : τ.selector.build i.mnemonic c.operands i.keyed = _ :=
    Selector.build_eq_of_symbols (s := finished) rfl same
  have again : τ.selector.build i.mnemonic c.operands c.keyed =
      .ok { i with operands := c.operands } := by
    rw [marks, renamed, before]
    rfl
  have answered : τ.selector.resolve i.mnemonic c =
      τ.selector.emit [{ i with operands := c.operands }] := by
    have single : ¬ 2 ≤ c.keyed.count := by
      rw [marks]
      exact Nat.not_le_of_lt (Nat.lt_succ_of_le justified.single)
    rw [Selector.resolve, if_neg single, again]
  have asked : (request s).run σ = .ok (some (.operation i.mnemonic c), τ) := by
    unfold request
    rw [isLine]
    exact bind_run requested rfl
  refine ⟨_, _, statement_run asked answered, ?_, ⟨_, rfl⟩, SymbolTable.valid_of_bears bears, ?_⟩
  · refine ⟨restated.grows, restated.catalog, restated.config, ?_, restated.openSub,
      restated.spelled⟩
    rw [restated.instructions, List.append_nil]
  · exact fun _ => same

/-- The line of a label brings it back if no earlier line did. -/
theorem label_again {name : String} {id : SymbolId} (isLine : s.node = .label name)
    (isLabel : IsLabel name) (tracks : Tracks refs defs σ) (new : name ∉ defs)
    (spelled : σ.selector.symbols.AsSpelled) :
    ∃ other τ, (statement s).run σ = .ok ((), τ) ∧ Restates σ τ [other] ∧
      (Instruction.label name id).SameAs t τ.selector.symbols other := by
  have fits : Symbol.SpellsLabel name := Symbol.spellsLabel isLabel.isName.sigil isLabel.ordinary
  obtain ⟨table, other, placed⟩ := spelled.placeLabel_ok fits fun id leads defined =>
    new ((tracks.mem_definedLabels leads).mp defined)
  have after := spelled.placeLabel fits placed
  obtain ⟨grown, leads⟩ : σ.selector.symbols.Grows table ∧ table.lookup name = some other := by
    rcases SymbolTable.placeLabel_cases spelled.wf name with
      ⟨_, refused⟩ | ⟨_, _, done, grown, leads, _⟩
    · rw [placed] at refused
      cases refused
    · rw [placed] at done
      cases done
      exact ⟨grown, leads⟩
  have answered : σ.selector.label name =
      { σ.selector with symbols := table }.emit [.label name other] := by
    rw [Selector.label, placed]
  have asked : (request s).run σ = .ok (some (.label name), σ) := by
    unfold request
    rw [isLine]
    rfl
  refine ⟨_, _, statement_run asked answered, ⟨grown, rfl, rfl, rfl, rfl, after⟩, ⟨[other], rfl⟩,
    List.forall_mem_singleton.mpr (after.wf.lt_of_lookup leads), ?_⟩
  exact fun operation => absurd operation (by simp [Instruction.label, Instruction.isLabel])

theorem statement_again (shown : i.ShownBy labels t s)
    (built : i.isLabel = false → i.Built σ.selector.catalog t)
    (justified : i.isLabel = false →
      i.Justified σ.selector.catalog σ.selector.config.maxArity t)
    (limit : σ.selector.config.maxArity ≤ maskWidth)
    (tracks : Tracks refs defs σ) (new : ∀ name ∈ s.node.defines, name ∉ defs)
    (spelled : σ.selector.symbols.AsSpelled) :
    ∃ other τ, (statement s).run σ = .ok ((), τ) ∧ Restates σ τ [other] ∧
      i.SameAs t τ.selector.symbols other := by
  obtain ⟨line, read, isLine⟩ := shown
  obtain ⟨node, span⟩ := s
  cases node with
  | label name =>
      cases isLine
      cases read with
      | label isLabel => exact label_again rfl isLabel tracks (new name List.mem_cons_self) spelled
  | instruction mnemonic operands =>
      cases isLine
      cases read with
      | operation unlabelled isMnemonic spelling layout each =>
          exact operation_again rfl spelling each (built unlabelled) (justified unlabelled) limit
            spelled
  | openSub | closeSub | declare | assign | jump | call | branch => cases isLine

/-- The lines of a listing bring back its instructions. -/
theorem run_again {instructions : List Instruction} {statements : List (Located Statement)}
    (shown : List.Forall₂ (Instruction.ShownBy labels t) instructions statements)
    (built : ∀ i ∈ instructions, i.isLabel = false → i.Built σ.selector.catalog t)
    (justified : ∀ i ∈ instructions, i.isLabel = false →
      i.Justified σ.selector.catalog σ.selector.config.maxArity t)
    (limit : σ.selector.config.maxArity ≤ maskWidth) (tracks : Tracks refs defs σ)
    (distinct : (defs ++ statements.flatMap (·.node.defines)).Nodup)
    (spelled : σ.selector.symbols.AsSpelled) :
    ∃ group τ, (statements.forM statement).run σ = .ok ((), τ) ∧ Restates σ τ group ∧
      List.Forall₂ (Instruction.SameAs t τ.selector.symbols) instructions group := by
  induction shown generalizing σ refs defs with
  | nil => exact ⟨[], σ, rfl, .refl spelled, .nil⟩
  | @cons i s instructions statements head _ ih =>
      rw [List.flatMap_cons, ← List.append_assoc] at distinct
      have apart := List.disjoint_of_nodup_append distinct.of_append_left
      obtain ⟨one, others⟩ := List.forall_mem_cons.mp built
      obtain ⟨other, τ, first, restated, same⟩ := statement_again head one
        (justified i List.mem_cons_self) limit tracks (fun _ mem before => apart before mem) spelled
      have catalog := restated.catalog
      have config := restated.config
      obtain ⟨group, υ, rest, more, all⟩ := ih
        (by rw [catalog]; exact others)
        (by rw [catalog, config]; exact (List.forall_mem_cons.mp justified).2)
        (by rw [config]; exact limit) (tracks.statement first) distinct restated.spelled
      exact ⟨other :: group, υ, bind_run first rest, restated.trans more,
        .cons (same.grows more.grows) all⟩

end Lowering
end OpSelect
