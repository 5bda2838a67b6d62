import OpSelect.Catalog.BuiltIn
import OpSelect.Proofs.Lowering.Compiled

/-!
The temporaries of an expansion in the finished unit. The name of a temporary is free when it
is taken, but a later statement may write it and so get hold of the temporary. The main result
says that this is the only way: a temporary stays within the group of its expansion if and
only if no later statement is written with its name.
-/

namespace OpSelect

/-- A virtual register is not spelled like a machine register. -/
theorem machineRegister?_virtualRegister (cls : ValueClass) (n : Nat) :
    machineRegister? (cls.virtualRegister n) = none := by
  simp [machineRegister?, ValueClass.virtualRegister_toList, ValueClass.ofLetter?]

/-- A statement of a source text whose operation has to be expanded. In the state `entered`
the statements before it are lowered, in the state `reached` its own operands too. -/
structure ExpandedStatement (catalog : Catalog) (config : Config) (source : String) where
  selector : Selector
  before : List (Located Statement)
  statement : Located Statement
  after : List (Located Statement)
  entered : Lowering
  reached : Lowering
  mnemonic : String
  context : Context
  started : Selector.start catalog config = .ok selector
  parsed : parse source = .ok (before ++ statement :: after)
  entering : (before.forM Lowering.statement).run { selector } = .ok ((), entered)
  asking : (Lowering.request statement).run entered =
    .ok (some (.operation mnemonic context), reached)
  keys : 2 ≤ context.keyed.count

namespace ExpandedStatement

variable {catalog : Catalog} {config : Config} {source : String} {lowered : Lowered}
  (e : ExpandedStatement catalog config source)

/-- The symbols that the expansion takes as temporaries. -/
def temporaries : List SymbolId := e.reached.selector.temporariesFor e.context

/-- The places of the expanded group among the instructions. -/
def group : List Nat :=
  List.range' e.reached.selector.instructions.length (e.context.slots.length + 2)

/-- The symbol is an operand within the group only, and no name in the text leads to it. -/
structure Confined (unit : CodeUnit) (id : SymbolId) : Prop where
  operands : ∀ place i, unit.instructions[place]? = some i → id ∈ i.operands → place ∈ e.group
  names : ∀ s ∈ e.before ++ e.statement :: e.after, ∀ name ∈ s.node.names,
    unit.symbols.lookup name ≠ some id

/-- The rest of the run: the expansion, and then the later statements. -/
theorem resumed (compiled : compile catalog config source = .ok lowered) :
    ∃ selector first state,
      e.reached.selector.resolve e.mnemonic e.context = (selector, .ok first) ∧
      (e.after.forM Lowering.statement).run { e.reached with selector } = .ok ((), state) ∧
      lowered.unit = state.selector.finish := by
  obtain ⟨statements, state, run⟩ := compile_eq_ok_iff.mp compiled
  have ran := run.ran
  rw [← Selector.start_ok e.started] at ran
  cases run.parsed.symm.trans e.parsed
  obtain ⟨entered, first, rest⟩ := Lowering.forM_append_ok ran
  cases first.symm.trans e.entering
  obtain ⟨_, left, lowering, rest⟩ := Lowering.bind_ok rest
  rcases Lowering.statement_ok lowering with
    asking | ⟨asked, reached, selector, place, asking, answer, rfl⟩
  · cases asking.symm.trans e.asking
  · cases asking.symm.trans e.asking
    exact ⟨selector, place, state, answer, rest, by rw [run.result]⟩

/-- Up to the expansion, all names are known and all operands are old. -/
theorem arrived :
    Lowering.Runs (e.before.flatMap (·.node.names) ++ e.statement.node.names)
      { selector := { catalog, config } } e.reached := by
  have entering := e.entering
  rw [Selector.start_ok e.started] at entering
  have wf : SymbolTable.WellFormed {} := SymbolTable.wellFormed_empty
  have before := Lowering.run_runs wf entering
  refine before.trans ?_
  have asks := Lowering.request_asks e.asking
  have none : e.statement.node.defines = [] := asks.labels.symm
  rw [← Lowering.operandNames_defines, none, List.append_nil]
  exact asks.interned.runs

theorem reached_wf : e.reached.selector.symbols.WellFormed :=
  e.arrived.wf SymbolTable.wellFormed_empty

theorem reached_operands {i : Instruction} {id : Nat}
    (mem : i ∈ e.reached.selector.instructions) (inside : id ∈ i.operands) :
    id < e.reached.selector.symbols.size := by
  obtain ⟨group, instructions, operands⟩ := e.arrived.selects.emitted
  rw [instructions] at mem
  rcases operands i mem id inside with denotes | ⟨_, new⟩
  · exact denotes.lt e.reached_wf
  · exact new

/-- The expansion itself: its group is appended, and the temporary is a new symbol under a
name that was free. -/
theorem expanded {selector : Selector} {first : Nat} {id : SymbolId}
    (h : e.reached.selector.resolve e.mnemonic e.context = (selector, .ok first))
    (temp : id ∈ e.temporaries) :
    (∃ group, selector.instructions = e.reached.selector.instructions ++ group ∧
      group.length = e.context.slots.length + 2) ∧
    selector.symbols.WellFormed ∧ e.reached.selector.symbols.size ≤ id ∧
    ∃ n, e.reached.selector.symbols.lookup (ValueClass.aggregate.virtualRegister n) = none ∧
      selector.symbols.lookup (ValueClass.aggregate.virtualRegister n) = some id := by
  obtain ⟨_, g, expands⟩ := Selector.resolve_expands e.keys (congrArg Prod.snd h)
  rw [h] at expands
  have place : id ∈ List.range' e.reached.selector.symbols.size g.numbers.length := by
    rw [expands.length, ← Selector.temporariesFor_eq]
    exact temp
  obtain ⟨n, mem, _, named⟩ := SymbolTable.get_withRegisters place
  have wf := e.reached_wf.grows expands.grows
  refine ⟨⟨_, expands.instructions, expands.group_length⟩, wf.grows expands.prepared.grows,
    (List.mem_range'_1.mp place).1, n, expands.fresh n mem, ?_⟩
  exact expands.prepared.grows.lookup (wf.lookup_of_mem named)

/-- A name that is free when the expansion begins has not been written so far. -/
theorem unwritten_of_fresh {n : Nat} {cls : ValueClass}
    (fresh : e.reached.selector.symbols.lookup (cls.virtualRegister n) = none) :
    cls.virtualRegister n ∉ e.before.flatMap (·.node.names) ++ e.statement.node.names := by
  intro written
  obtain ⟨_, found⟩ := e.arrived.known _ written (machineRegister?_virtualRegister cls n)
  rw [fresh] at found
  cases found

/-- Where the finished unit has a temporary: under a name that was free before the expansion,
and as an operand in the group or of a later statement that is written with the name. -/
structure Traced (unit : CodeUnit) (id : SymbolId) (n : Nat) : Prop where
  wf : unit.symbols.WellFormed
  fresh : e.reached.selector.symbols.lookup (ValueClass.aggregate.virtualRegister n) = none
  leads : unit.symbols.lookup (ValueClass.aggregate.virtualRegister n) = some id
  operands : ∀ place i, unit.instructions[place]? = some i → id ∈ i.operands →
    place ∈ e.group ∨
      ∃ s ∈ e.after, ValueClass.aggregate.virtualRegister n ∈ s.node.names

theorem traced (compiled : compile catalog config source = .ok lowered) {id : SymbolId}
    (temp : id ∈ e.temporaries) : ∃ n, e.Traced lowered.unit id n := by
  obtain ⟨selector, first, state, resolved, run, unit⟩ := e.resumed compiled
  obtain ⟨⟨group, instructions, length⟩, wf, new, n, fresh, leads⟩ := e.expanded resolved temp
  have later := Lowering.run_runs wf run
  have leadsEnd := later.selects.grows.lookup leads
  rw [unit]
  refine ⟨n, later.wf wf, fresh, leadsEnd, ?_⟩
  intro place i found inside
  obtain ⟨emitted, appended, operands⟩ := later.selects.emitted
  have whole : state.selector.finish.instructions =
      e.reached.selector.instructions ++ group ++ emitted :=
    appended.trans (by rw [instructions])
  rw [whole] at found
  -- the operands before the group are too old, and those after it are denoted by a name
  rcases mem_or_between found with mem | inGroup | mem
  · exact absurd (e.reached_operands mem inside) (Nat.not_lt_of_le new)
  · rw [length] at inGroup
    exact .inl inGroup
  · rcases operands i mem id inside with denotes | ⟨past, _⟩
    · exact .inr (List.mem_flatMap.mp (denotes.written (later.wf wf) leadsEnd))
    · exact absurd (wf.lt_of_lookup leads) (Nat.not_lt_of_le past)

/-- A temporary is confined if and only if no later statement is written with its name. -/
theorem confined_iff_not_written_later
    (compiled : compile catalog config source = .ok lowered) {id : SymbolId}
    (temp : id ∈ e.temporaries) :
    e.Confined lowered.unit id ↔
      ∀ s ∈ e.after, (lowered.unit.symbols.get id).name ∉ s.node.names := by
  obtain ⟨n, traced⟩ := e.traced compiled temp
  have name := traced.wf.name_of_lookup traced.leads
  rw [name]
  constructor
  · intro confined s mem written
    have inText : s ∈ e.before ++ e.statement :: e.after :=
      List.mem_append_right _ (List.mem_cons_of_mem _ mem)
    exact confined.names s inText _ written traced.leads
  · intro unwritten
    refine ⟨?_, ?_⟩
    · intro place i found inside
      refine (traced.operands place i found inside).resolve_right ?_
      rintro ⟨s, mem, written⟩
      exact unwritten s mem written
    · intro s mem other written leads
      obtain rfl : _ = other := name.symm.trans (traced.wf.name_of_lookup leads)
      have early := e.unwritten_of_fresh traced.fresh
      simp only [List.mem_append, List.mem_cons] at mem
      rcases mem with mem | rfl | mem
      · exact early (List.mem_append_left _ (List.mem_flatMap.mpr ⟨s, mem, written⟩))
      · exact early (List.mem_append_right _ written)
      · exact unwritten s mem written

/-- A later statement writes the name of the first temporary, and not that of the second. -/
def clashSource : String := "$P5[0] = $P6[0]\nset $P1, $P5\n"

def clashStatement : Located Statement :=
  ⟨.assign ⟨⟨.register "$P5", [⟨.integer 0, ⟨4, 5⟩⟩]⟩, ⟨0, 6⟩⟩
    (.operand ⟨⟨.register "$P6", [⟨.integer 0, ⟨13, 14⟩⟩]⟩, ⟨9, 15⟩⟩), ⟨0, 15⟩⟩

def laterStatement : Located Statement :=
  ⟨.instruction "set" [⟨⟨.register "$P1", []⟩, ⟨20, 23⟩⟩, ⟨⟨.register "$P5", []⟩, ⟨25, 28⟩⟩],
    ⟨16, 28⟩⟩

def clashContext : Context where
  maxArity := 4
  operands := [0, 1, 2, 1]
  keyed := (KeyedMask.single 0).insert 2

/-- The selector with the operands of the statement. -/
def clashSelector (catalog : Catalog) : Selector where
  catalog := catalog
  config := {}
  symbols :=
    { symbols := [⟨"$P5", .aggregate, .var⟩, ⟨"0", .integer, .constant⟩, ⟨"$P6", .aggregate, .var⟩]
      names := [("$P5", 0), ("$P6", 2)]
      constants := [(("0", .integer), 1)] }

theorem request_clashStatement (catalog : Catalog) :
    (Lowering.request clashStatement).run { selector := { catalog, config := {} } } =
      .ok (some (.operation "set" clashContext), { selector := clashSelector catalog }) := by
  with_unfolding_all rfl

def clash : ExpandedStatement .builtIn {} clashSource where
  selector := { catalog := .builtIn, config := {} }
  before := []
  statement := clashStatement
  after := [laterStatement]
  entered := { selector := { catalog := .builtIn, config := {} } }
  reached := { selector := clashSelector .builtIn }
  mnemonic := "set"
  context := clashContext
  started := by
    unfold Selector.start
    rfl
  parsed := by decide +kernel
  entering := rfl
  asking := request_clashStatement .builtIn
  keys := by decide

theorem compile_clashSource :
    ∃ lowered, compile .builtIn {} clashSource = .ok lowered ∧
      (lowered.unit.symbols.get 4).name = "$P2" ∧
      lowered.unit.symbols.lookup "$P1" = some 3 ∧
      lowered.unit.instructions.map Instruction.operands =
        [[4, 2, 1], [3, 1], [3, 4], [0, 1, 3], [3, 0]] := by
  have evaluated : (compile .builtIn {} clashSource).map (fun lowered =>
      ((lowered.unit.symbols.get 4).name, lowered.unit.symbols.lookup "$P1",
        lowered.unit.instructions.map Instruction.operands)) =
      .ok ("$P2", some 3, [[4, 2, 1], [3, 1], [3, 4], [0, 1, 3], [3, 0]]) := by
    decide +kernel
  obtain ⟨lowered, compiled, outcome⟩ := map_eq_ok.mp evaluated
  obtain ⟨name, rest⟩ := Prod.mk.inj outcome
  obtain ⟨leads, operands⟩ := Prod.mk.inj rest
  exact ⟨lowered, compiled, name, leads, operands⟩

theorem mem_temporaries_clash : 3 ∈ clash.temporaries ∧ 4 ∈ clash.temporaries := by
  have temporaries : clash.temporaries = [3, 4] := Selector.temporariesFor_eq _ _
  rw [temporaries]
  decide

/-- Both temporaries are taken by one expansion, and the second is confined. -/
theorem second_temporary_confined :
    ∃ lowered, compile .builtIn {} clashSource = .ok lowered ∧ 4 ∈ clash.temporaries ∧
      clash.Confined lowered.unit 4 := by
  obtain ⟨lowered, compiled, name, _⟩ := compile_clashSource
  have temp := mem_temporaries_clash.2
  refine ⟨lowered, compiled, temp, (clash.confined_iff_not_written_later compiled temp).mpr ?_⟩
  rw [name]
  decide

/-- The first is an operand of the later statement's instruction. -/
theorem first_temporary_not_confined :
    ∃ lowered, compile .builtIn {} clashSource = .ok lowered ∧ 3 ∈ clash.temporaries ∧
      (lowered.unit.instructions.map Instruction.operands)[4]? = some [3, 0] ∧
      4 ∉ clash.group ∧ lowered.unit.symbols.lookup "$P1" = some 3 ∧
      ¬ clash.Confined lowered.unit 3 := by
  obtain ⟨lowered, compiled, _, leads, operands⟩ := compile_clashSource
  refine ⟨lowered, compiled, mem_temporaries_clash.1, by rw [operands]; rfl, by decide, leads, ?_⟩
  intro confined
  exact confined.names laterStatement (by decide) "$P1" (by decide) leads

end ExpandedStatement
end OpSelect
