import OpSelect.Proofs.Listing.Text
import OpSelect.Proofs.Program.Choice

/-!
Listings can be read: the tokens of each line are taken for one statement, which says what the
line does. No other alternative of the grammar gets in the way, and no line is complained about.
-/

namespace OpSelect

open Reader Grammar

def Operand.item (o : Operand) : Item := ⟨o.base, o.keys.map Located.node⟩

/-- The line that a statement is, if it is one of a listing. -/
def Statement.line? : Statement → Option Line
  | .label name => some (.label name)
  | .instruction mnemonic operands =>
      some (.operation mnemonic (operands.map fun o => o.node.item))
  | .openSub _ | .closeSub | .declare .. | .assign .. | .jump _ | .call _ | .branch .. => none

theorem Item.kinds_eq (item : Item) :
    item.kinds = item.base.spell ++ ([item.keys].filter (!·.isEmpty)).flatMap groupKinds := by
  unfold kinds
  split
  · rename_i none
    simp [none]
  · rename_i keys some_
    have kept : (!item.keys.isEmpty) = true := by simpa using some_
    rw [List.filter_cons, if_pos kept]
    simp [groupKinds]

/-- Items are operands whose keys share their brackets. -/
theorem Item.style : OperandStyle Item.kinds fun item o => o.node.item = item where
  head item rest m h := by
    rw [item.kinds_eq, List.append_assoc]
    exact item.base.head_spell h
  finds item rest follows := by
    rw [item.kinds_eq, List.append_assoc]
    refine (finds_operand item.base (by simp) follows).mono ?_
    rintro o ⟨base, keys⟩
    have flat : ([item.keys].filter (!·.isEmpty)).flatten = item.keys := by
      cases item.keys <;> simp
    rw [Operand.item, base, keys, flat]

/-- The line does not begin with a token that means something else. -/
def Line.IsReadable : Line → Prop
  | .label _ => True
  | .operation mnemonic _ => IsMnemonic mnemonic

theorem Instruction.ReadAs.isReadable {labels : List String} {t : SymbolTable} {i : Instruction}
    {line : Line} (h : i.ReadAs labels t line) : line.IsReadable := by
  cases h with
  | label isLabel => trivial
  | operation unlabelled isMnemonic spelled layout each => exact isMnemonic

/-- A line of a listing is one statement. -/
theorem Line.finds_labelled {line : Line} (readable : line.IsReadable) :
    labelled.Finds line.kinds [] fun found => ∃ s, found = [s] ∧ s.node.line? = some line := by
  cases line with
  | label text =>
      refine (finds_label text).mono ?_
      rintro found ⟨s, rfl, isLabel⟩
      exact ⟨s, rfl, by rw [isLabel]; rfl⟩
  | operation text items =>
      refine Grammar.finds_labelled (P := fun s => s.line? = some (.operation text items)) ?_
        ((Item.style.finds_operation text items ?_).mono ?_)
      · intro name more same
        obtain ⟨_, next⟩ := List.cons.inj same
        refine Item.style.head_operandKinds items (m := .colon) (by decide) ?_
        rw [operandKinds, next]
        rfl
      · intro label more same
        obtain ⟨first, _⟩ := List.cons.inj same
        cases readable with
        | inl named =>
            rw [named.1.mnemonicKind] at first
            cases first
            exact named.2 rfl
        | inr keyword =>
            simp only [List.mem_cons, List.not_mem_nil, or_false] at keyword
            rcases keyword with rfl | rfl | rfl <;> cases first
      · rintro s ⟨operands, rfl, related⟩
        exact congrArg (fun items => some (Line.operation text items)) (map_eq_of_forall₂ related)

theorem Line.kinds_plain (line : Line) : line.kinds ≠ [] ∧ .newline ∉ line.kinds := by
  cases line with
  | label name => simp [kinds]
  | operation text items =>
      refine ⟨List.cons_ne_nil _ _, newline_not_mem_operation text fun item _ => ?_⟩
      rw [item.kinds_eq]
      simp [item.base.newline_not_mem, newline_not_mem_groupKinds]

/-- A listing can be read, and its statements say what its lines say. -/
theorem CodeUnit.parse_listing {labels : List String} {u : CodeUnit} {lines : List Line}
    (each : List.Forall₂ (Instruction.ReadAs labels u.symbols) u.instructions lines) :
    ∃ statements, parse u.listing = .ok statements ∧
      statements.map (fun s => s.node.line?) = lines.map some := by
  obtain ⟨tokens, lexed, kinds⟩ := u.tokenize_listing each
  have readable : ∀ line ∈ lines, line.IsReadable :=
    forall_of_forall₂ each fun _ _ _ read => read.isReadable
  have written : tokens.map Token.kind = (lines.map Line.kinds).flatMap (· ++ [.newline]) := by
    rw [kinds, Line.allKinds, List.flatMap_map]
  obtain ⟨statements, parsed, said⟩ := parseTokens_of_lines
    (map_lineTokens (by simpa using fun line _ => line.kinds_plain) written)
    fun line mem => Line.finds_labelled (readable line mem)
  refine ⟨statements, ?_, ?_⟩
  · unfold parse
    rw [lexed]
    exact parsed
  · exact map_eq_of_forall₂ (List.forall₂_map_left_iff.mpr said)

end OpSelect
