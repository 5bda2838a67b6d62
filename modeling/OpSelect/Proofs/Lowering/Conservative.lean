import OpSelect.Proofs.Lowering.Compiled
import OpSelect.Proofs.Lowering.Simulation
import OpSelect.Proofs.Selector.Widening

/-!
Compiling with more to select from. A run of lowering is simulated by one over a wider selector:
where the first finishes, the second does too, with the same instructions. So a larger catalog and
a larger arity limit change nothing about a text that compiles.
-/

namespace OpSelect

theorem Selector.WidensTo.answer {s t s' : Selector} {r q : Request} {first : Nat}
    (h : s.WidensTo t) (matching : r.Matches Context.WidensTo q)
    (answered : r.answer s = (s', .ok first)) :
    ∃ t', q.answer t = (t', .ok first) ∧ s'.WidensTo t' := by
  cases matching with
  | operation mnemonic filled => exact h.resolve filled answered
  | fetch dest container key => exact h.fetchIndexed answered
  | store container key value => exact h.storeIndexed answered
  | label name => exact h.label answered

namespace Lowering

variable {σ τ : Lowering}

/-- `τ` is `σ` over a wider selector. -/
structure WidensTo (σ τ : Lowering) : Prop where
  selector : σ.selector.WidensTo τ.selector
  openSub : τ.openSub = σ.openSub
  labelRefs : τ.labelRefs = σ.labelRefs

theorem WidensTo.note (h : σ.WidensTo τ) (id : SymbolId) (span : Span) :
    (σ.note id span).WidensTo (τ.note id span) := by
  unfold Lowering.note
  rw [h.labelRefs]
  split
  · exact h
  · exact ⟨h.selector, h.openSub, rfl⟩

end Lowering

namespace Simulation

/-- A run and one over a wider selector. Nothing is said about what is refused. -/
def widening : Simulation where
  state := Lowering.WidensTo
  place p q := q = p
  context := Context.WidensTo
  stop _ _ := True
  lenient := True

theorem agrees_of_ok {α β : Type} {R : α → β → Prop} {x : Except Fault α} {y : Except Fault β}
    (h : ∀ a, x = .ok a → ∃ b, y = .ok b ∧ R a b) : widening.Agrees R x y := by
  cases x with
  | ok a => exact h a rfl
  | error fault => cases fault <;> exact .inl trivial

theorem executes_widening : widening.Executes where
  symbols h := h.selector.symbols
  withSymbols h table := ⟨h.selector.withSymbols table, h.openSub, h.labelRefs⟩
  known h known := h.selector.catalog.typeId known
  unknown _ _ := .inl trivial
  note := by
    rintro σ τ p _ h rfl id
    exact h.note id _
  opened h := by
    rw [h.openSub]
    exact opened_self fun _ _ => rfl
  withOpened h _ _ opened := by
    exact ⟨h.selector, opened.eq fun _ _ => id, h.labelRefs⟩
  report _ := trivial
  start h := h.selector.context
  fill h slots := agrees_of_ok fun _ filled => h.fill filled
  answer := by
    intro σ τ r q h matching
    refine ⟨agrees_of_ok fun first ok => ?_, fun first ok => ?_⟩
    · obtain ⟨_, answered, _⟩ := h.selector.answer matching (Prod.ext rfl ok)
      exact ⟨first, congrArg Prod.snd answered, rfl⟩
    · obtain ⟨_, answered, wider⟩ := h.selector.answer matching (Prod.ext rfl ok)
      exact ⟨answered ▸ wider, h.openSub, h.labelRefs⟩

end Simulation

/-- The settings stay valid under a larger limit that is allowed. -/
theorem Config.validate_limit {config : Config} {limit : Nat} (valid : config.validate = .ok ())
    (above : config.maxArity ≤ limit) (inside : limit ≤ arityLimit) :
    Config.validate { config with maxArity := limit } = .ok () := by
  unfold validate at valid ⊢
  split at valid
  · cases valid
  · rename_i range
    rw [if_neg (by dsimp only; omega)]
    exact valid

namespace CompiledRun

variable {catalog larger : Catalog} {config : Config} {source : String} {lowered : Lowered}
  {statements : List (Located Statement)} {state : Lowering} {limit : Nat}

theorem widens (h : CompiledRun catalog config source lowered statements state)
    (grown : catalog.Grows larger) (above : config.maxArity ≤ limit)
    (inside : limit ≤ arityLimit) :
    ∃ state', CompiledRun larger { config with maxArity := limit } source lowered statements
      state' := by
  have start : Lowering.WidensTo { selector := { catalog, config } }
      { selector := { catalog := larger, config := { config with maxArity := limit } } } :=
    ⟨⟨grown, above, rfl, rfl, rfl, rfl⟩, rfl, rfl⟩
  have moved : Statement.AllMoved Simulation.widening.place statements statements :=
    List.forall₂_same.mpr fun s _ => Statement.moved_self fun _ _ => rfl
  have runs := Simulation.executes_widening.relates_run moved _ _ start
  rw [h.ran] at runs
  obtain ⟨_, state', ran, _, wider⟩ := runs
  refine ⟨state', Config.validate_limit h.valid above inside, h.parsed, ran, ?_, ?_⟩
  · have resolved := h.resolved
    unfold Lowering.undefinedLabels at resolved ⊢
    rwa [wider.selector.symbols, wider.labelRefs]
  · rw [h.result, Selector.finish, Selector.finish, wider.selector.symbols,
      wider.selector.instructions, Lowering.unclosed, Lowering.unclosed, wider.openSub]

end CompiledRun

/-- A text that compiles gives the same unit, so the same listing, records and symbols, and the
same warnings, when the catalog is extended and the arity limit raised. -/
theorem compile_conservative {catalog larger : Catalog} {extension : Extension} {config : Config}
    {limit : Nat} {source : String} {lowered : Lowered}
    (compiled : compile catalog config source = .ok lowered)
    (accepted : catalog.extended extension = .ok larger) (above : config.maxArity ≤ limit)
    (inside : limit ≤ arityLimit) :
    compile larger { config with maxArity := limit } source = .ok lowered := by
  obtain ⟨statements, state, run⟩ := compile_eq_ok_iff.mp compiled
  obtain ⟨state', run'⟩ := run.widens (Catalog.extended_grows accepted) above inside
  exact compile_eq_ok_iff.mpr ⟨statements, state', run'⟩

/-- An assignment with two keyed sides, in a subroutine that is never closed. -/
def keyedSource : String := ".sub m\n$P1[0] = $P0[1]\n"

def keyedListing : String :=
  "m:\n    set $P3, $P0[1]\n    new $P2, 0\n    set $P2, $P3\n    set $P1[0], $P2\n"

/-- An operation that takes two keyed operands at once, and a type. -/
def keyedExtension : Extension where
  ops := [{
    mnemonic := "set"
    args := [("p", .inOut), ("kic", .input), ("p", .input), ("kic", .input)] }]
  types := [("Pair", 99)]

theorem compile_keyedSource :
    ∃ lowered, compile .builtIn {} keyedSource = .ok lowered ∧
      (lowered.unit.listing, lowered.warnings.length) = (keyedListing, 1) := by
  refine map_eq_ok.mp ?_
  decide +kernel

theorem extended_keyedExtension :
    ∃ larger, Catalog.builtIn.extended keyedExtension = .ok larger ∧
      ((larger.lookup "set_p_kic_p_kic").isSome, larger.typeId "Pair") = (true, some 99) := by
  refine map_eq_ok.mp ?_
  decide +kernel

/-- The assignment is expanded also where an operation and room for it as it stands were added. -/
theorem compile_conservative_keyedSource :
    ∃ lowered larger, compile .builtIn {} keyedSource = .ok lowered ∧
      lowered.unit.listing = keyedListing ∧ lowered.warnings.length = 1 ∧
      Catalog.builtIn.extended keyedExtension = .ok larger ∧
      (larger.lookup "set_p_kic_p_kic").isSome = true ∧ larger.typeId "Pair" = some 99 ∧
      compile larger { maxArity := 16 } keyedSource = .ok lowered := by
  obtain ⟨lowered, compiled, shown⟩ := compile_keyedSource
  obtain ⟨listing, warned⟩ := Prod.mk.inj shown
  obtain ⟨larger, accepted, added⟩ := extended_keyedExtension
  obtain ⟨op, type⟩ := Prod.mk.inj added
  refine ⟨lowered, larger, compiled, listing, warned, accepted, op, type, ?_⟩
  exact compile_conservative compiled accepted (by decide) (by decide)

end OpSelect
