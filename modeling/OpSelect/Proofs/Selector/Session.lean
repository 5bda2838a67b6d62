import OpSelect.Catalog.BuiltIn
import OpSelect.Proofs.Selector.Justified
import OpSelect.Proofs.Symbol.History

/-!
Sessions: any calls of the symbol table, of contexts and of the selector, in any order, whether
they are answered or refused. `Step` says what one call can do. The main result holds in every
state that a session can reach. Every instruction that was emitted is still justified there, and
none is ever changed or removed.
-/

namespace OpSelect

/-- A selector and the contexts made so far. -/
structure Session where
  selector : Selector
  contexts : List Context := []
deriving DecidableEq, Repr

namespace Session

/-- A call that concerns the selector or one of the contexts. -/
inductive Call where
  | table (call : TableCall)
  | context
  | append (place : Nat) (id : SymbolId)
  | appendKeyed (place : Nat) (container key : SymbolId)
  | setKeyed (place position : Nat)
  | clear (place : Nat)
  | resolve (mnemonic : String) (place : Nat)
  | fetch (dest container key : SymbolId)
  | store (container key value : SymbolId)
  | label (name : String)
  | aggregateType (name : String)
deriving DecidableEq, Repr

/-- The symbols that a call is given. -/
def Call.ids : Call → List SymbolId
  | table (.collapse chain) => chain.keys
  | append _ id => [id]
  | appendKeyed _ container key => [container, key]
  | fetch dest container key => [dest, container, key]
  | store container key value => [container, key, value]
  | table _ | context | setKeyed .. | clear _ | resolve .. | label _ | aggregateType _ => []

/-- Changes a context. A misuse ends the session. -/
def edit (σ : Session) (place : Nat) (change : Context → Context × Except Fault Unit) :
    Option Session := do
  let context ← σ.contexts[place]?
  match change context with
  | (_, .error (.misuse _)) => none
  | (changed, _) => some { σ with contexts := σ.contexts.set place changed }

/-- Goes on with what the selector made of a request. A misuse ends the session. -/
def proceed {α : Type} (σ : Session) : Selector × Except Fault α → Option Session
  | (_, .error (.misuse _)) => none
  | (selector, _) => some { σ with selector }

/-- The session after a call over symbols of the table. A context may be used again after it
was resolved, as a copy of it could be. -/
def perform (σ : Session) (call : Call) : Option Session :=
  if ∀ id ∈ call.ids, id < σ.selector.symbols.size then
    match call with
    | .table call =>
        some { σ with selector := { σ.selector with symbols := call.perform σ.selector.symbols } }
    | .context => some { σ with contexts := σ.contexts ++ [σ.selector.context] }
    | .append place id => σ.edit place (·.append id)
    | .appendKeyed place container key => σ.edit place (·.appendKeyed container key)
    | .setKeyed place position => σ.edit place (·.setKeyed position)
    | .clear place => σ.edit place fun context => (context.clear, .ok ())
    | .resolve mnemonic place => do
        σ.proceed (σ.selector.resolve mnemonic (← σ.contexts[place]?))
    | .fetch dest container key => σ.proceed (σ.selector.fetchIndexed dest container key)
    | .store container key value => σ.proceed (σ.selector.storeIndexed container key value)
    | .label name => σ.proceed (σ.selector.label name)
    | .aggregateType name => σ.proceed (σ.selector.aggregateType name)
  else none

def run (σ : Session) (calls : List Call) : Option Session := calls.foldlM perform σ

/-- The table is well-formed, and every context is one for the selector. -/
structure Sound (σ : Session) : Prop where
  wf : σ.selector.symbols.WellFormed
  contexts : ∀ context ∈ σ.contexts, σ.selector.Admits context

variable {σ τ : Session} {call : Call}

theorem Sound.evolves {selector : Selector} (h : σ.Sound) (k : σ.selector.Evolves selector) :
    ({ σ with selector } : Session).Sound :=
  ⟨h.wf.grows k.grows, fun context mem => (h.contexts context mem).evolves k⟩

/-- What a call can do: it changes the contexts, or the selector in one of five ways. -/
inductive Step (σ : Session) : Session → Prop
  | contexts (contexts : List Context)
      (admitted : (∀ c ∈ σ.contexts, σ.selector.Admits c) →
        ∀ c ∈ contexts, σ.selector.Admits c) :
      Step σ { σ with contexts }
  | table (call : TableCall) :
      Step σ { σ with
        selector := { σ.selector with symbols := call.perform σ.selector.symbols } }
  | resolve (mnemonic : String) (context : Context) (held : context ∈ σ.contexts) :
      Step σ { σ with selector := (σ.selector.resolve mnemonic context).1 }
  | indexed {ids : List SymbolId} {answer : Selector × Except Fault Nat}
      (indexes : σ.selector.Indexes ids answer)
      (valid : ∀ id ∈ ids, id < σ.selector.symbols.size) :
      Step σ { σ with selector := answer.1 }
  | label (name : String) : Step σ { σ with selector := (σ.selector.label name).1 }
  | aggregateType (name : String) :
      Step σ { σ with selector := (σ.selector.aggregateType name).1 }

theorem proceed_ok {α : Type} {answer : Selector × Except Fault α}
    (proceeded : σ.proceed answer = some τ) : τ = { σ with selector := answer.1 } := by
  unfold proceed at proceeded
  split at proceeded <;> cases proceeded
  rfl

theorem Step.edit {place : Nat} {change : Context → Context × Except Fault Unit}
    (admits : ∀ {c}, σ.selector.Admits c → σ.selector.Admits (change c).1)
    (edited : σ.edit place change = some τ) : σ.Step τ := by
  unfold Session.edit at edited
  obtain ⟨context, found, edited⟩ := Option.bind_eq_some_iff.mp edited
  split at edited
  · cases edited
  · rename_i after _ _ eq
    cases edited
    refine .contexts _ fun held other mem => ?_
    cases List.mem_or_eq_of_mem_set mem with
    | inl mem => exact held other mem
    | inr same =>
        have changed := admits (held context (List.mem_of_getElem? found))
        rw [eq] at changed
        exact same ▸ changed

theorem perform_step (performed : σ.perform call = some τ) : σ.Step τ := by
  unfold perform at performed
  split at performed
  · rename_i valid
    cases call with
    | table call =>
        cases performed
        exact .table call
    | context =>
        cases performed
        refine .contexts _ fun held => List.forall_mem_append.mpr ⟨held, ?_⟩
        exact List.forall_mem_singleton.mpr σ.selector.admits_context
    | append place id =>
        exact .edit (fun admitted => admitted.append (valid id (by simp [Call.ids]))) performed
    | appendKeyed place container key =>
        exact .edit (fun admitted => admitted.appendKeyed (valid container (by simp [Call.ids]))
          (valid key (by simp [Call.ids]))) performed
    | setKeyed place position => exact .edit (fun admitted => admitted.setKeyed position) performed
    | clear place => exact .edit (fun admitted => admitted.clear) performed
    | resolve mnemonic place =>
        obtain ⟨context, found, performed⟩ := Option.bind_eq_some_iff.mp performed
        rw [proceed_ok performed]
        exact .resolve mnemonic context (List.mem_of_getElem? found)
    | fetch dest container key =>
        rw [proceed_ok performed]
        exact .indexed (σ.selector.indexes_fetch dest container key) valid
    | store container key value =>
        rw [proceed_ok performed]
        exact .indexed (σ.selector.indexes_store container key value) valid
    | label name =>
        rw [proceed_ok performed]
        exact .label name
    | aggregateType name =>
        rw [proceed_ok performed]
        exact .aggregateType name
  · cases performed

theorem Step.evolves (h : σ.Sound) (step : σ.Step τ) : σ.selector.Evolves τ.selector := by
  cases step with
  | contexts => exact .refl σ.selector
  | table call => exact Selector.evolves_symbols (call.grows_perform h.wf)
  | resolve mnemonic context held =>
      exact Selector.resolve_evolves mnemonic h.wf (h.contexts context held)
  | indexed indexes valid => exact indexes.evolves h.wf valid
  | label name => exact Selector.label_evolves h.wf name
  | aggregateType name => exact σ.selector.aggregateType_evolves name

theorem Step.sound (h : σ.Sound) (step : σ.Step τ) : τ.Sound := by
  have evolved := step.evolves h
  cases step with
  | contexts contexts admitted => exact ⟨h.wf, admitted h.contexts⟩
  | table | resolve | indexed | label | aggregateType => exact h.evolves evolved

/-- What every call keeps in a sound session, a session keeps, by induction on its calls. -/
theorem run_keeps {P : Session → Prop}
    (step : ∀ {σ τ call}, σ.Sound → P σ → σ.perform call = some τ → P τ) {calls : List Call}
    (sound : σ.Sound) (h : P σ) (ran : σ.run calls = some τ) : P τ := by
  induction calls generalizing σ with
  | nil =>
      cases ran
      exact h
  | cons call calls ih =>
      unfold run at ran
      rw [List.foldlM_cons] at ran
      obtain ⟨next, performed, ran⟩ := Option.bind_eq_some_iff.mp ran
      exact ih ((perform_step performed).sound sound) (step sound h performed) ran

theorem run_sound {calls : List Call} (h : σ.Sound) (ran : σ.run calls = some τ) :
    σ.selector.Evolves τ.selector ∧ τ.Sound := by
  refine run_keeps (P := fun τ => σ.selector.Evolves τ.selector ∧ τ.Sound) ?_ h ⟨.refl _, h⟩ ran
  intro σ τ call sound kept performed
  have step := perform_step performed
  exact ⟨kept.1.trans (step.evolves sound), step.sound sound⟩

theorem sound_start {catalog : Catalog} {config : Config} {selector : Selector}
    (started : Selector.start catalog config = .ok selector) : Session.Sound { selector } := by
  rw [Selector.start_ok started]
  exact ⟨SymbolTable.wellFormed_empty, fun _ mem => absurd mem List.not_mem_nil⟩

/-- In every state of a session, the emitted instructions other than labels are justified by
the catalog, the limit of operands and the table of this state. Whatever the session does
next, they stay where they are and as they are. -/
theorem reached_instructions_justified {catalog : Catalog} {config : Config}
    {selector : Selector} (started : Selector.start catalog config = .ok selector)
    {calls : List Call} (reached : Session.run { selector } calls = some σ) :
    (∀ i ∈ σ.selector.instructions, i.isLabel = false →
      i.Justified catalog config.maxArity σ.selector.symbols) ∧
    ∀ later τ, σ.run later = some τ → σ.selector.instructions <+: τ.selector.instructions := by
  obtain ⟨evolved, sound⟩ := run_sound (sound_start started) reached
  refine ⟨?_, ?_⟩
  · obtain ⟨group, instructions, justified⟩ := evolved.emitted
    rw [evolved.catalog, evolved.config, Selector.start_ok started] at justified
    rw [Selector.start_ok started] at instructions
    intro i mem
    rw [instructions] at mem
    exact justified i mem
  · intro later τ ran
    obtain ⟨group, instructions, _⟩ := (run_sound sound ran).1.emitted
    exact ⟨group, instructions.symm⟩

/-- One statement of two keys, one that is refused, a label and a fetch from a string. -/
def sampleCalls : List Call :=
  [.table (.declare "a" .aggregate), .table (.declare "b" .aggregate),
    .table (.constant "0" .integer), .context, .appendKeyed 0 0 2, .appendKeyed 0 1 2,
    .resolve "set" 0, .setKeyed 0 1, .resolve "set" 0, .label "end",
    .table (.declare "s" .string), .fetch 6 6 2]

theorem run_sampleCalls :
    ∃ σ, Session.run { selector := { catalog := .builtIn, config := {} } } sampleCalls = some σ ∧
      σ.selector.instructions.map Instruction.fullName =
        ["set_p_p_kic", "new_p_ic", "set_p_p", "set_p_kic_p", "end", "substr_s_s_ic_ic"] := by
  refine Option.map_eq_some_iff.mp ?_
  decide +kernel

theorem reached_instructions_justified_sampleCalls :
    ∃ selector σ, Selector.start .builtIn {} = .ok selector ∧
      Session.run { selector } sampleCalls = some σ ∧ σ.selector.instructions.length = 6 ∧
      (∀ i ∈ σ.selector.instructions, i.isLabel = false →
        i.Justified .builtIn 4 σ.selector.symbols) ∧
      ∀ later τ, σ.run later = some τ → σ.selector.instructions <+: τ.selector.instructions := by
  have started : Selector.start .builtIn {} = .ok { catalog := .builtIn, config := {} } := by
    unfold Selector.start
    rfl
  obtain ⟨σ, reached, names⟩ := run_sampleCalls
  have length := congrArg List.length names
  rw [List.length_map] at length
  exact ⟨_, σ, started, reached, length, reached_instructions_justified started reached⟩

end Session
end OpSelect
