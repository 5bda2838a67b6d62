import OpSelect.Lowering.Operand
import OpSelect.Proofs.Selector.Slots

/-!
What the operands of a statement become. Where lowering an operand finishes, it has found or added
a symbol for each atom and perhaps joined keys, and that is all: the lemmas with `eq` or `cases` in
their names say so, and all that follows is derived from them. A property of the states that adds up
from atom to atom is carried to lists of operands by `LowersAtoms`, a property of the symbols that
later ones leave alone by `mapM_forall₂`. The first of each kind are here: lowering only adds to the
symbol table, and each symbol is one that a written name leads to, a machine register, or one that
no name leads to.
-/

namespace OpSelect

/-- The names that an atom is written with. The name of a type is not among them. -/
def Atom.names : Atom → List String
  | .register name | .word name => [name]
  | .integer _ | .float _ | .string _ | .typeName _ => []

def Operand.names (o : Operand) : List String :=
  o.base.names ++ o.keys.flatMap (·.node.names)

/-- The constant that an atom is written as. -/
def Atom.literal (catalog : Catalog) : Atom → Option (String × ValueClass)
  | .integer value => some (toString value, .integer)
  | .float text => some (text, .float)
  | .string value => some (value, .string)
  | .typeName name => (catalog.typeId name).map fun number => (toString number, .integer)
  | .register _ | .word _ => none

namespace Lowering

variable {σ τ υ : Lowering} {α β : Type} {names others : List String} {id : SymbolId}

theorem bind_ok {m : Lower α} {f : α → Lower β} {b : β} (h : (m >>= f).run σ = .ok (b, υ)) :
    ∃ a τ, m.run σ = .ok (a, τ) ∧ (f a).run τ = .ok (b, υ) := by
  obtain ⟨⟨a, τ⟩, first, h⟩ := bind_eq_ok.mp h
  exact ⟨a, τ, first, h⟩

theorem pure_ok {a b : α} (h : (pure a : Lower α).run σ = .ok (b, τ)) : b = a ∧ τ = σ := by
  cases h
  exact ⟨rfl, rfl⟩

theorem expect_ok {span : Span} {result : Except Fault α} {a : α}
    (h : (expect span result).run σ = .ok (a, τ)) : result = .ok a ∧ τ = σ := by
  cases result with
  | ok b =>
      obtain ⟨rfl, rfl⟩ := pure_ok h
      exact ⟨rfl, rfl⟩
  | error fault => cases fault with
    | rejected error | misuse misuse => cases h

theorem select_ok {span : Span} {step : Selector → Selector × Except Fault α} {a : α}
    (h : (select span step).run σ = .ok (a, τ)) :
    ∃ selector, step σ.selector = (selector, .ok a) ∧ τ = { σ with selector } := by
  obtain ⟨_, _, got, h⟩ := bind_ok h
  cases got
  cases stepped : step σ.selector with
  | mk selector result =>
      simp only [stepped] at h
      obtain ⟨_, _, expected, h⟩ := bind_ok h
      obtain ⟨rfl, rfl⟩ := expect_ok expected
      cases h
      exact ⟨selector, rfl, rfl⟩

theorem symbols_ok {span : Span}
    {step : SymbolTable → Except SymbolError (SymbolTable × SymbolId)}
    (h : (symbols span step).run σ = .ok (id, τ)) :
    ∃ table, step σ.selector.symbols = .ok (table, id) ∧
      τ = { σ with selector := { σ.selector with symbols := table } } := by
  obtain ⟨selector, stepped, rfl⟩ := select_ok h
  split at stepped
  · rename_i table other eq
    cases stepped
    exact ⟨table, eq, rfl⟩
  · cases stepped

theorem intern_ok {step : SymbolTable → SymbolTable × SymbolId}
    (h : (intern step).run σ = .ok (id, τ)) :
    step σ.selector.symbols = (τ.selector.symbols, id) ∧
      τ = { σ with selector := { σ.selector with symbols := τ.selector.symbols } } := by
  cases h
  exact ⟨rfl, rfl⟩

theorem bind_run {m : Lower α} {f : α → Lower β} {a : α} {b : β} (first : m.run σ = .ok (a, τ))
    (rest : (f a).run τ = .ok (b, υ)) : (m >>= f).run σ = .ok (b, υ) :=
  bind_eq_ok.mpr ⟨(a, τ), first, rest⟩

theorem select_run {span : Span} {step : Selector → Selector × Except Fault α}
    {selector : Selector} {a : α} (stepped : step σ.selector = (selector, .ok a)) :
    (select span step).run σ = .ok (a, { σ with selector }) := by
  refine bind_run (a := σ) rfl ?_
  rw [stepped]
  rfl

theorem symbols_run {span : Span}
    {step : SymbolTable → Except SymbolError (SymbolTable × SymbolId)}
    {table : SymbolTable} (stepped : step σ.selector.symbols = .ok (table, id)) :
    (symbols span step).run σ =
      .ok (id, { σ with selector := { σ.selector with symbols := table } }) := by
  refine select_run ?_
  rw [stepped]

/-- The state with another symbol table. -/
def withSymbols (σ : Lowering) (table : SymbolTable) : Lowering :=
  { σ with selector := { σ.selector with symbols := table } }

/-- From `σ` to `τ` symbols were added and nothing else was selected. The names can be
looked up afterwards, unless they are spelled like machine registers. -/
structure Interned (names : List String) (σ τ : Lowering) : Prop where
  grows : σ.selector.symbols.Grows τ.selector.symbols
  rest : τ.selector = { σ.selector with symbols := τ.selector.symbols }
  known : ∀ name ∈ names, machineRegister? name = none →
    ∃ id, τ.selector.symbols.lookup name = some id

theorem Interned.refl (σ : Lowering) : Interned [] σ σ :=
  ⟨.refl, rfl, fun _ mem => absurd mem List.not_mem_nil⟩

theorem Interned.trans (h : Interned names σ τ) (k : Interned others τ υ) :
    Interned (names ++ others) σ υ := by
  refine ⟨h.grows.trans k.grows, ?_, ?_⟩
  · rw [k.rest, h.rest]
  · intro name mem ordinary
    cases List.mem_append.mp mem with
    | inl mem =>
        obtain ⟨id, leads⟩ := h.known name mem ordinary
        exact ⟨id, k.grows.lookup leads⟩
    | inr mem => exact k.known name mem ordinary

theorem Interned.wf (h : Interned names σ τ) (wf : σ.selector.symbols.WellFormed) :
    τ.selector.symbols.WellFormed :=
  wf.grows h.grows

/-- A symbol step. -/
theorem interned_symbols {table : SymbolTable} (grown : σ.selector.symbols.Grows table) :
    Interned [] σ { σ with selector := { σ.selector with symbols := table } } :=
  ⟨grown, rfl, fun _ mem => absurd mem List.not_mem_nil⟩

theorem Interned.lookup {name : String} (h : Interned [] σ τ)
    (leads : τ.selector.symbols.lookup name = some id) : Interned [name] σ τ := by
  refine ⟨h.grows, h.rest, ?_⟩
  intro other mem _
  rw [List.mem_singleton.mp mem]
  exact ⟨id, leads⟩

/-- Notes a label at its first reference. -/
def note (σ : Lowering) (id : SymbolId) (span : Span) : Lowering :=
  if σ.labelRefs.any (·.1 == id) then σ
  else { σ with labelRefs := σ.labelRefs ++ [(id, span)] }

theorem selector_note (σ : Lowering) (id : SymbolId) (span : Span) :
    (σ.note id span).selector = σ.selector := by
  unfold note
  split <;> rfl

/-- A reference to a label: its address is looked up or added, and noted. -/
theorem labelRef_eq {name : String} {span : Span}
    (h : (labelRef name span).run σ = .ok (id, τ)) :
    ∃ table, σ.selector.symbols.address name = .ok (table, id) ∧
      τ = note { σ with selector := { σ.selector with symbols := table } } id span := by
  obtain ⟨_, σ₁, placed, h⟩ := bind_ok h
  obtain ⟨table, found, rfl⟩ := symbols_ok placed
  obtain ⟨_, σ₂, noted, h⟩ := bind_ok h
  obtain ⟨rfl, rfl⟩ := pure_ok h
  cases noted
  exact ⟨table, found, rfl⟩

theorem labelRef_ok {name : String} {span : Span}
    (h : (labelRef name span).run σ = .ok (id, τ)) :
    Interned [name] σ τ ∧ τ.selector.symbols.lookup name = some id := by
  obtain ⟨table, found, noted⟩ := labelRef_eq h
  obtain ⟨grown, leads, _⟩ := SymbolTable.address_ok found
  have same : τ.selector = { σ.selector with symbols := table } := by
    rw [noted]
    exact selector_note _ id span
  have found : τ.selector.symbols.lookup name = some id := by
    rw [same]
    exact leads
  have interned : Interned [] σ τ := ⟨same ▸ grown, by rw [same], by simp⟩
  exact ⟨interned.lookup found, found⟩

/-- The number of a type is an integer constant. -/
theorem aggregateType_eq {name : String} {span : Span}
    (h : (select span (·.aggregateType name)).run σ = .ok (id, τ)) :
    ∃ number, σ.selector.catalog.typeId name = some number ∧
      (intern (·.constant (toString number) .integer)).run σ = .ok (id, τ) := by
  obtain ⟨selector, found, rfl⟩ := select_ok h
  obtain ⟨number, known, rfl, rfl⟩ := Selector.aggregateType_eq_ok.mp found
  exact ⟨number, known, rfl⟩

/-- How the symbol of an atom is found or added. A word is a declared name, a machine register or a
label. -/
inductive Finds (σ : Lowering) (span : Span) : Atom → SymbolId → Lowering → Prop where
  | constant {a : Atom} {text : String} {cls : ValueClass} {id : SymbolId} {τ : Lowering}
      (literal : a.literal σ.selector.catalog = some (text, cls))
      (interned : (intern (·.constant text cls)).run σ = .ok (id, τ)) : Finds σ span a id τ
  | register {name : String} {cls : ValueClass} {table : SymbolTable} {id : SymbolId}
      (ofClass : (name.toList.drop 1).head?.bind ValueClass.ofLetter? = some cls)
      (found : σ.selector.symbols.var name cls = .ok (table, id)) :
      Finds σ span (.register name) id (σ.withSymbols table)
  | declared {name : String} {id : SymbolId} (leads : σ.selector.symbols.lookup name = some id)
      (value : (σ.selector.symbols.get id).kind ≠ .address) : Finds σ span (.word name) id σ
  | machine {name : String} {cls : ValueClass} {index : Nat} {table : SymbolTable} {id : SymbolId}
      (spelled : machineRegister? name = some (cls, index))
      (found : σ.selector.symbols.machineRegister cls index = .ok (table, id)) :
      Finds σ span (.word name) id (σ.withSymbols table)
  | label {name : String} {id : SymbolId} {τ : Lowering} (ordinary : machineRegister? name = none)
      (referred : (labelRef name span).run σ = .ok (id, τ)) : Finds σ span (.word name) id τ

theorem word_finds {name : String} {span : Span} (h : (word name span).run σ = .ok (id, τ)) :
    Finds σ span (.word name) id τ := by
  have undeclared : (word.undeclared name span).run σ = .ok (id, τ) →
      Finds σ span (.word name) id τ := by
    intro h
    unfold word.undeclared at h
    split at h
    · rename_i cls index spelled
      obtain ⟨table, found, rfl⟩ := symbols_ok h
      exact .machine spelled found
    · rename_i ordinary
      exact .label ordinary h
  obtain ⟨_, _, got, h⟩ := bind_ok h
  cases got
  dsimp only at h
  split at h
  · rename_i other leads
    split at h
    · exact undeclared h
    · rename_i value
      obtain ⟨rfl, rfl⟩ := pure_ok h
      exact .declared leads value
  · exact undeclared h

theorem atom_finds {a : Atom} {span : Span} (h : (atom a span).run σ = .ok (id, τ)) :
    Finds σ span a id τ := by
  cases a with
  | integer value | float text | string value => exact .constant rfl h
  | word name => exact word_finds h
  | typeName name =>
      obtain ⟨number, known, interned⟩ := aggregateType_eq h
      exact .constant (by rw [Atom.literal, known]; rfl) interned
  | register name =>
      simp only [atom] at h
      split at h
      · rename_i cls ofClass
        obtain ⟨table, found, rfl⟩ := symbols_ok h
        exact .register ofClass found
      · cases h

theorem key_eq {first : Located Atom} {rest : List (Located Atom)}
    (h : (key first rest).run σ = .ok (id, τ)) :
    ∃ head tail σ₁, ((first :: rest).mapM fun part => atom part.node part.span).run σ =
        .ok (head :: tail, σ₁) ∧
      KeyChain.collapse ⟨head, tail⟩ σ₁.selector.symbols = (τ.selector.symbols, id) ∧
      τ = σ₁.withSymbols τ.selector.symbols := by
  obtain ⟨head, σ₁, lowered, h⟩ := bind_ok h
  obtain ⟨tail, σ₂, others, h⟩ := bind_ok h
  obtain ⟨collapsed, same⟩ := intern_ok h
  refine ⟨head, tail, σ₂, ?_, collapsed, same⟩
  rw [List.mapM_cons]
  exact bind_run lowered (bind_run others rfl)

/-- An operand with keys is a container and the key that they come to. -/
theorem slot_cases {o : Located Operand} {s : Slot} (h : (slot o).run σ = .ok (s, τ)) :
    (∃ base, o.node.keys = [] ∧ s = .plain base ∧
      (atom o.node.base o.span).run σ = .ok (base, τ)) ∨
    ∃ first rest base index σ₁, o.node.keys = first :: rest ∧ s = .keyed base index ∧
      (atom o.node.base o.span).run σ = .ok (base, σ₁) ∧
      (key first rest).run σ₁ = .ok (index, τ) := by
  obtain ⟨base, σ₁, lowered, h⟩ := bind_ok h
  split at h
  · rename_i none
    obtain ⟨rfl, rfl⟩ := pure_ok h
    exact .inl ⟨base, none, rfl, lowered⟩
  · rename_i first rest keys
    obtain ⟨index, σ₂, collapsed, h⟩ := bind_ok h
    obtain ⟨rfl, rfl⟩ := pure_ok h
    exact .inr ⟨first, rest, base, index, σ₁, keys, rfl, lowered, collapsed⟩

theorem append_eq {c d : Context} {o : Located Operand} (h : (append c o).run σ = .ok (d, τ)) :
    ∃ s, (slot o).run σ = .ok (s, τ) ∧ c.fill [s] = .ok d := by
  obtain ⟨s, σ₁, lowered, h⟩ := bind_ok h
  obtain ⟨filled, rfl⟩ := expect_ok h
  exact ⟨s, lowered, filled⟩

/-- A context that is filled while its slots are found is filled with all of them. -/
theorem foldlM_fill_eq {c d : Context} {f : α → Lower β} {g : β → Slot} {place : α → Span}
    {as : List α}
    (h : (as.foldlM (fun (c : Context) a => do expect (place a) (c.fill [g (← f a)])) c).run σ =
      .ok (d, τ)) :
    ∃ bs, (as.mapM f).run σ = .ok (bs, τ) ∧ c.fill (bs.map g) = .ok d := by
  induction as generalizing σ c with
  | nil =>
      obtain ⟨rfl, rfl⟩ := pure_ok h
      exact ⟨[], rfl, rfl⟩
  | cons a as ih =>
      rw [List.foldlM_cons] at h
      obtain ⟨e, σ₁, first, h⟩ := bind_ok h
      obtain ⟨b, σ₂, found, first⟩ := bind_ok first
      obtain ⟨filled, rfl⟩ := expect_ok first
      obtain ⟨bs, others, complete⟩ := ih h
      refine ⟨b :: bs, ?_, ?_⟩
      · rw [List.mapM_cons]
        exact bind_run found (bind_run others rfl)
      · rw [List.map_cons, ← List.singleton_append, Context.fill_append, filled]
        exact complete

section Accumulation

variable {ι : Type} {T : List ι → Lowering → Lowering → Prop} {w : Located Atom → List ι}

/-- A relation between states that adds up what is met on the way. -/
structure Accumulates (T : List ι → Lowering → Lowering → Prop) : Prop where
  refl : ∀ σ, T [] σ σ
  trans : ∀ {xs ys σ τ υ}, T xs σ τ → T ys τ υ → T (xs ++ ys) σ υ

theorem Accumulates.mapM (acc : Accumulates T) {f : α → Lower β} {v : α → List ι} {as : List α}
    {bs : List β} (each : ∀ {a σ b τ}, (f a).run σ = .ok (b, τ) → T (v a) σ τ)
    (h : (as.mapM f).run σ = .ok (bs, τ)) : T (as.flatMap v) σ τ := by
  induction as generalizing σ bs with
  | nil =>
      obtain ⟨_, rfl⟩ := pure_ok h
      exact acc.refl _
  | cons a as ih =>
      rw [List.mapM_cons] at h
      obtain ⟨b, σ₁, first, h⟩ := bind_ok h
      obtain ⟨bs, σ₂, others, h⟩ := bind_ok h
      obtain ⟨rfl, rfl⟩ := pure_ok h
      exact acc.trans (each first) (ih others)

/-- Such a relation holds between the states before and after an atom, and keys may be joined. -/
structure LowersAtoms (w : Located Atom → List ι) (T : List ι → Lowering → Lowering → Prop) : Prop
    extends Accumulates T where
  atom : ∀ {a σ id τ}, (Lowering.atom a.node a.span).run σ = .ok (id, τ) → T (w a) σ τ
  collapse : ∀ σ chain, T [] σ (σ.withSymbols (KeyChain.collapse chain σ.selector.symbols).1)

/-- What is met in an operand: its base, placed where the operand is, and then its keys. -/
def weigh (w : Located Atom → List ι) (o : Located Operand) : List ι :=
  w ⟨o.node.base, o.span⟩ ++ o.node.keys.flatMap w

namespace LowersAtoms

theorem key (h : LowersAtoms w T) {first : Located Atom} {rest : List (Located Atom)}
    (ran : (Lowering.key first rest).run σ = .ok (id, τ)) : T ((first :: rest).flatMap w) σ τ := by
  obtain ⟨head, tail, σ₁, lowered, collapsed, same⟩ := key_eq ran
  have joined := h.collapse σ₁ ⟨head, tail⟩
  rw [collapsed, ← same] at joined
  have all := h.trans (h.mapM h.atom lowered) joined
  rwa [List.append_nil] at all

theorem slot (h : LowersAtoms w T) {o : Located Operand} {s : Slot}
    (ran : (Lowering.slot o).run σ = .ok (s, τ)) : T (weigh w o) σ τ := by
  unfold weigh
  rcases slot_cases ran with ⟨base, keys, _, lowered⟩ | ⟨_, _, _, _, _, keys, _, lowered, collapsed⟩
  · rw [keys, List.flatMap_nil, List.append_nil]
    exact h.atom (a := ⟨o.node.base, o.span⟩) lowered
  · rw [keys]
    exact h.trans (h.atom (a := ⟨o.node.base, o.span⟩) lowered) (h.key collapsed)

theorem slots (h : LowersAtoms w T) {operands : List (Located Operand)} {slots : List Slot}
    (ran : (operands.mapM Lowering.slot).run σ = .ok (slots, τ)) :
    T (operands.flatMap (weigh w)) σ τ :=
  h.mapM h.slot ran

end LowersAtoms
end Accumulation

section Names

theorem constant_interned {text : String} {cls : ValueClass}
    (h : (intern (·.constant text cls)).run σ = .ok (id, τ)) : Interned [] σ τ := by
  cases h
  exact interned_symbols (SymbolTable.grows_constant _ text cls)

theorem Finds.interned {a : Atom} {span : Span} (h : Finds σ span a id τ) :
    Interned a.names σ τ := by
  cases h with
  | constant literal interned =>
      have none : a.names = [] := by
        cases a with
        | integer | float | string | typeName => rfl
        | register | word => cases literal
      rw [none]
      exact constant_interned interned
  | register ofClass found =>
      obtain ⟨grown, leads⟩ := SymbolTable.var_ok found
      exact (interned_symbols grown).lookup leads
  | declared leads value => exact (Interned.refl σ).lookup leads
  | machine spelled found =>
      refine ⟨(SymbolTable.machineRegister_ok found).1, rfl, ?_⟩
      intro other mem ordinary
      rw [List.mem_singleton.mp mem, spelled] at ordinary
      cases ordinary
  | label ordinary referred => exact (labelRef_ok referred).1

/-- Lowering operands adds symbols. -/
theorem lowersAtoms_interned : LowersAtoms (fun a => a.node.names) Interned where
  refl := .refl
  trans := .trans
  atom ran := (atom_finds ran).interned
  collapse _ chain := interned_symbols (SymbolTable.grows_collapse chain _)

theorem Finds.denotes {a : Atom} {span : Span} (wf : σ.selector.symbols.WellFormed)
    (h : Finds σ span a id τ) : τ.selector.symbols.Denotes a.names id := by
  cases h with
  | @constant _ text cls _ _ literal interned =>
      cases interned
      exact SymbolTable.denotes_constant wf text cls
  | register ofClass found =>
      exact .named _ (List.mem_singleton.mpr rfl) (SymbolTable.var_ok found).2
  | declared leads value => exact .named _ (List.mem_singleton.mpr rfl) leads
  | machine spelled found => exact .register _ _ (SymbolTable.machineRegister_ok found).2
  | label ordinary referred =>
      exact .named _ (List.mem_singleton.mpr rfl) (labelRef_ok referred).2

theorem atom_ok {a : Atom} {span : Span} (wf : σ.selector.symbols.WellFormed)
    (h : (atom a span).run σ = .ok (id, τ)) :
    Interned a.names σ τ ∧ τ.selector.symbols.Denotes a.names id :=
  ⟨(atom_finds h).interned, (atom_finds h).denotes wf⟩

theorem key_ok {first : Located Atom} {rest : List (Located Atom)}
    (wf : σ.selector.symbols.WellFormed) (h : (key first rest).run σ = .ok (id, τ)) :
    Interned ((first :: rest).flatMap (·.node.names)) σ τ ∧
      τ.selector.symbols.Denotes ((first :: rest).flatMap (·.node.names)) id := by
  refine ⟨lowersAtoms_interned.key h, ?_⟩
  obtain ⟨head, tail, σ₁, lowered, collapsed, _⟩ := key_eq h
  rw [List.mapM_cons] at lowered
  obtain ⟨_, σ₂, isHead, lowered⟩ := bind_ok lowered
  obtain ⟨_, σ₃, others, lowered⟩ := bind_ok lowered
  obtain ⟨⟨⟩, rfl⟩ := pure_ok lowered
  obtain ⟨interned, denotes⟩ := atom_ok wf isHead
  have more := lowersAtoms_interned.mapM lowersAtoms_interned.atom others
  have leads := SymbolTable.denotes_collapse ((interned.trans more).wf wf) ⟨head, tail⟩
    ((denotes.grows more.grows).mono (List.subset_append_left _ (rest.flatMap (·.node.names))))
  rwa [collapsed] at leads

theorem slot_ok {o : Located Operand} {s : Slot} (wf : σ.selector.symbols.WellFormed)
    (h : (slot o).run σ = .ok (s, τ)) :
    Interned o.node.names σ τ ∧ τ.selector.symbols.AllDenote o.node.names s.operands := by
  refine ⟨lowersAtoms_interned.slot h, fun id mem => ?_⟩
  rcases slot_cases h with
    ⟨base, keys, rfl, lowered⟩ | ⟨first, rest, base, index, σ₁, keys, rfl, lowered, collapsed⟩
  · obtain rfl := List.mem_singleton.mp mem
    exact (atom_ok wf lowered).2.mono (List.subset_append_left _ _)
  · obtain ⟨interned, denotes⟩ := atom_ok wf lowered
    obtain ⟨more, leads⟩ := key_ok (interned.wf wf) collapsed
    rw [Operand.names, keys]
    rcases List.mem_pair.mp mem with rfl | rfl
    · exact (denotes.grows more.grows).mono (List.subset_append_left _ _)
    · exact leads.mono (List.subset_append_right _ _)

/-- What holds of each item when it is lowered, and is kept while symbols are added, holds of all
of them in the end. -/
theorem mapM_forall₂ {f : α → Lower β} {v : α → List String} {P : α → β → Selector → Prop}
    {as : List α} {bs : List β}
    (interned : ∀ {a σ b τ}, (f a).run σ = .ok (b, τ) → Interned (v a) σ τ)
    (holds : ∀ {a σ b τ}, σ.selector.symbols.WellFormed → (f a).run σ = .ok (b, τ) →
      P a b τ.selector)
    (kept : ∀ {a b σ τ names}, σ.selector.symbols.WellFormed → Interned names σ τ →
      P a b σ.selector → P a b τ.selector)
    (wf : σ.selector.symbols.WellFormed) (h : (as.mapM f).run σ = .ok (bs, τ)) :
    List.Forall₂ (fun a b => P a b τ.selector) as bs := by
  induction as generalizing σ bs with
  | nil =>
      obtain ⟨rfl, rfl⟩ := pure_ok h
      exact .nil
  | cons a as ih =>
      rw [List.mapM_cons] at h
      obtain ⟨b, σ₁, first, h⟩ := bind_ok h
      obtain ⟨bs, σ₂, others, h⟩ := bind_ok h
      obtain ⟨rfl, rfl⟩ := pure_ok h
      have wf₁ := (interned first).wf wf
      have more := Accumulates.mapM ⟨.refl, .trans⟩ interned others
      exact .cons (kept wf₁ more (holds wf first)) (ih wf₁ others)

/-- The operands of an instruction, one after the other. -/
theorem slots_ok {operands : List (Located Operand)} {slots : List Slot}
    (wf : σ.selector.symbols.WellFormed) (h : (operands.mapM slot).run σ = .ok (slots, τ)) :
    Interned (operands.flatMap (·.node.names)) σ τ ∧
      τ.selector.symbols.AllDenote (operands.flatMap (·.node.names))
        (slots.flatMap Slot.operands) := by
  refine ⟨lowersAtoms_interned.slots h, fun id mem => ?_⟩
  have each : List.Forall₂ (fun o s => τ.selector.symbols.AllDenote o.node.names s.operands)
      operands slots :=
    mapM_forall₂ (P := fun (o : Located Operand) (s : Slot) (selector : Selector) =>
        selector.symbols.AllDenote o.node.names s.operands)
      lowersAtoms_interned.slot (fun wf ran => (slot_ok wf ran).2)
      (fun _ interned denote => denote.grows interned.grows) wf h
  obtain ⟨s, isSlot, inside⟩ := List.mem_flatMap.mp mem
  obtain ⟨o, isOperand, denote⟩ := exists_mem_of_forall₂ each.flip isSlot
  exact (denote id inside).mono fun name mem => List.mem_flatMap.mpr ⟨o, isOperand, mem⟩

end Names
end Lowering
end OpSelect
