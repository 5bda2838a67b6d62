import OpSelect.Compile
import OpSelect.Proofs.Lowering.Statement
import OpSelect.Proofs.Selector.Justified

/-!
Compiled texts. Each statement makes a request that the selector admits, so what it emits is
justified. A compiled text is a run of its statements that leaves no label undefined, and every
instruction of its unit that is not a label is justified by the finished table.
-/

namespace OpSelect

/-- The symbols of a request are in the table, and the context of an operation is one for the
selector. -/
def Request.Admitted (s : Selector) : Request → Prop
  | operation _ context => s.Admits context
  | fetch dest container key => ∀ id ∈ [dest, container, key], id < s.symbols.size
  | store container key value => ∀ id ∈ [container, key, value], id < s.symbols.size
  | label _ => True

theorem Request.Admitted.evolves {s : Selector} {r : Request} (wf : s.symbols.WellFormed)
    (h : r.Admitted s) : s.Evolves (r.answer s).1 := by
  cases r with
  | operation mnemonic context => exact Selector.resolve_evolves mnemonic wf h
  | fetch dest container key => exact (s.indexes_fetch dest container key).evolves wf h
  | store container key value => exact (s.indexes_store container key value).evolves wf h
  | label name => exact Selector.label_evolves wf name

namespace Lowering

variable {σ τ : Lowering} {names : List String} {r : Request} {s : Located Statement}
  {asked : Option Request}

theorem Interned.evolves (h : Interned names σ τ) : σ.selector.Evolves τ.selector := by
  rw [h.rest]
  exact Selector.evolves_symbols h.grows

theorem Asks.evolves (h : Asks s σ asked τ) : σ.selector.Evolves τ.selector :=
  h.interned.evolves

/-- Whatever a statement asks of the selector, the selector admits it. -/
theorem Asks.admitted (wf : σ.selector.symbols.WellFormed) (h : Asks s σ (some r) τ) :
    r.Admitted τ.selector := by
  have valid : ∀ id ∈ r.ids, id < τ.selector.symbols.size :=
    fun id mem => (h.denote wf id mem).lt (h.interned.wf wf)
  cases r with
  | operation mnemonic c =>
      obtain ⟨slots, filled⟩ := h.filled
      rw [Request.ids, operands_of_fill filled] at valid
      exact (σ.selector.admits_context.evolves h.evolves).fill filled valid
  | fetch dest container key | store container key value => exact valid
  | label name => trivial

theorem statement_evolves (wf : σ.selector.symbols.WellFormed)
    (h : (statement s).run σ = .ok ((), τ)) : σ.selector.Evolves τ.selector := by
  rcases statement_ok h with requested | ⟨r, reached, selector, first, requested, answer, rfl⟩
  · exact (request_asks requested).evolves
  · have asks := request_asks requested
    have after := (asks.admitted wf).evolves (asks.interned.wf wf)
    rw [answer] at after
    exact asks.evolves.trans after

theorem run_evolves {statements : List (Located Statement)}
    (wf : σ.selector.symbols.WellFormed)
    (h : (statements.forM statement).run σ = .ok ((), τ)) : σ.selector.Evolves τ.selector := by
  refine run_keeps (P := fun _ τ => σ.selector.Evolves τ.selector) (.refl _)
    (fun s _ before τ υ evolved ran => ?_) h
  exact evolved.trans (statement_evolves (wf.grows evolved.grows) ran)

end Lowering

theorem lower_of_run {selector : Selector} {statements : List (Located Statement)}
    {state : Lowering}
    (ran : (statements.forM Lowering.statement).run { selector } = .ok ((), state)) :
    lower statements selector =
      match state.undefinedLabels with
      | [] => .ok ⟨state.selector.finish, state.unclosed⟩
      | diagnostics => .error (.reported diagnostics) := by
  unfold lower
  rw [ran]
  dsimp only [bind, Except.bind]
  cases state.undefinedLabels with
  | nil | cons => rfl

theorem lower_of_stop {selector : Selector} {statements : List (Located Statement)} {stop : Stop}
    (ran : (statements.forM Lowering.statement).run { selector } = .error stop) :
    lower statements selector = .error stop := by
  unfold lower
  rw [ran]
  rfl

variable {catalog : Catalog} {config : Config} {source : String} {lowered : Lowered}
  {statements : List (Located Statement)} {state : Lowering}

/-- A compiled text is a finished run of its statements that leaves no label undefined. -/
structure CompiledRun (catalog : Catalog) (config : Config) (source : String)
    (lowered : Lowered) (statements : List (Located Statement)) (state : Lowering) : Prop where
  valid : config.validate = .ok ()
  parsed : parse source = .ok statements
  ran : (statements.forM Lowering.statement).run { selector := { catalog, config } } =
    .ok ((), state)
  resolved : state.undefinedLabels = []
  result : lowered = ⟨state.selector.finish, state.unclosed⟩

theorem compile_eq_ok_iff :
    compile catalog config source = .ok lowered ↔
      ∃ statements state, CompiledRun catalog config source lowered statements state := by
  unfold compile Selector.start
  cases valid : config.validate with
  | error error =>
      simp only [Except.map, reduceCtorEq, false_iff]
      rintro ⟨statements, state, run⟩
      rw [run.valid] at valid
      cases valid
  | ok =>
      dsimp only [Except.map]
      constructor
      · intro h
        split at h
        · cases h
        · rename_i statements parsed
          split at h
          · cases h
          · cases h
          · rename_i result finished
            cases h
            obtain ⟨⟨_, state⟩, ran, ended⟩ := bind_eq_ok.mp finished
            dsimp only at ended
            split at ended
            · rename_i resolved
              cases ended
              exact ⟨statements, state, valid, parsed, ran, resolved, rfl⟩
            · cases ended
      · rintro ⟨statements, state, run⟩
        rw [run.parsed]
        dsimp only
        rw [lower_of_run run.ran, run.resolved, run.result]

theorem CompiledRun.justified (h : CompiledRun catalog config source lowered statements state)
    {i : Instruction} (mem : i ∈ lowered.unit.instructions) (operation : i.isLabel = false) :
    i.Justified catalog config.maxArity lowered.unit.symbols := by
  have evolved := Lowering.run_evolves SymbolTable.wellFormed_empty h.ran
  obtain ⟨group, instructions, justified⟩ := evolved.emitted
  rw [evolved.catalog, evolved.config] at justified
  -- the run began without instructions
  have all : lowered.unit.instructions = group := by
    rw [h.result]
    exact instructions
  rw [all] at mem
  rw [h.result]
  exact justified i mem operation

end OpSelect
