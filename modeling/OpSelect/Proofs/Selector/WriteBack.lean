import OpSelect.Proofs.Catalog.Naming
import OpSelect.Proofs.Selector.Expansion

/-!
What an expansion writes back. The first slot is the destination: after the operation its
temporary is stored into it, and this store ends the group. The built-in operations write their
first operand only. An extension may bring operations that write others too, and what these
write stays in the temporaries.
-/

namespace OpSelect

/-- Whether an operation writes the operand at a position. -/
def OpEntry.writes (entry : OpEntry) (position : Nat) : Bool :=
  (entry.directions[position]?).any Direction.writes

theorem OpSpec.Regular.written {op : OpSpec} {opcode position : Nat} (h : op.Regular)
    (writes : (op.entry opcode).writes position = true) : position = 0 := by
  cases position with
  | zero => rfl
  | succ position =>
      obtain ⟨direction, found, writes⟩ := (Option.any_eq_true _ _).mp writes
      obtain ⟨arg, place, rfl⟩ := Option.map_eq_some_iff.mp (List.getElem?_map ▸ found)
      have late : arg ∈ op.args.drop 1 := by
        refine List.mem_of_getElem? (i := position) ?_
        rw [List.getElem?_drop, Nat.add_comm]
        exact place
      rw [h.inputs arg late] at writes
      cases writes

theorem Slot.store_inj {slot other : Slot} {temp temp' : SymbolId}
    (h : slot.store temp = other.store temp') : slot = other ∧ temp = temp' := by
  cases slot with
  | plain operand | keyed container key => cases other <;> simp_all [Slot.store]

namespace Selector

variable {s s' : Selector} {mnemonic : String} {context : Context} {g : Group} {first : Nat}

/-- The operation has the loads and the preparation before it, and the store after it. -/
theorem Expands.around_operation (h : Expands s mnemonic context s' g) :
    ∃ before, s'.instructions = before ++ [g.operation, g.writeBack] ∧
      before.length = s.instructions.length + context.slots.length := by
  have count : g.loads.length = g.others.length := by
    simpa using congrArg List.length h.loaded
  refine ⟨s.instructions ++ g.loads ++ [g.prepare], ?_, ?_⟩
  · rw [h.instructions, Group.instructions]
    simp
  · simp [count, h.slots]

/-- After the operation of an expanded group there is a store of a slot's temporary into the
slot. The operation stands where the slots are counted off. -/
def StoredBack (s : Selector) (mnemonic : String) (context : Context) (j : Nat) : Prop :=
  ∃ slot temp, context.slots[j]? = some slot ∧ (s.temporariesFor context)[j]? = some temp ∧
    ∃ i ∈ (s.resolve mnemonic context).1.instructions.drop
        (s.instructions.length + context.slots.length + 1),
      i.spelling = slot.store temp

/-- The destination is stored back, and no other slot is. -/
theorem storedBack_iff (keys : 2 ≤ context.keyed.count)
    (resolved : (s.resolve mnemonic context).2 = .ok first) {j : Nat} :
    s.StoredBack mnemonic context j ↔ j = 0 := by
  obtain ⟨_, g, h⟩ := resolve_expands keys resolved
  obtain ⟨before, instructions, length⟩ := h.around_operation
  have rest : (s.resolve mnemonic context).1.instructions.drop
      (s.instructions.length + context.slots.length + 1) = [g.writeBack] := by
    rw [instructions, ← length]
    simp
  rw [StoredBack, rest]
  constructor
  · rintro ⟨slot, temp, _, place, i, mem, stored⟩
    rw [List.mem_singleton.mp mem, h.written] at stored
    obtain ⟨_, same⟩ := Slot.store_inj stored
    rw [temporariesFor_eq] at place
    obtain ⟨_, value⟩ := List.getElem?_eq_some_iff.mp place
    rw [List.getElem_range', ← same] at value
    simpa using value
  · rintro rfl
    refine ⟨g.dest, s.symbols.size, by rw [h.slots]; rfl, ?_, g.writeBack,
      List.mem_singleton.mpr rfl, h.written⟩
    rw [temporariesFor_eq, h.temporaries_cons]
    rfl

/-- Of the slots that an expanded operation writes, the destination is stored back after it and
no other is. All of them are stored back for the operations of the built-in table, also under an
extension. -/
theorem destination_stored_back (extension : Extension) (s : Selector) (mnemonic : String)
    (context : Context) (first : Nat)
    (accepted : Catalog.builtIn.extended extension = .ok s.catalog)
    (keys : 2 ≤ context.keyed.count)
    (resolved : (s.resolve mnemonic context).2 = .ok first) :
    (∀ slots, Slot.Divides context.keyed 0 context.operands slots ↔ slots = context.slots) ∧
    ∃ entry operation,
      s.catalog.lookup (fullName mnemonic (List.replicate context.slots.length "p")) =
        some entry ∧
      (s.resolve mnemonic context).1.instructions[s.instructions.length + context.slots.length]? =
        some operation ∧
      operation.spelling = ⟨mnemonic, s.temporariesFor context, .empty⟩ ∧
      (∀ j < context.slots.length, entry.writes j = true →
        (s.StoredBack mnemonic context j ↔ j = 0)) ∧
      (Catalog.builtIn.lookup (fullName mnemonic (List.replicate context.slots.length "p")) ≠
          none →
        ∀ j < context.slots.length, entry.writes j = true → s.StoredBack mnemonic context j) := by
  obtain ⟨_, g, h⟩ := resolve_expands keys resolved
  obtain ⟨before, instructions, length⟩ := h.around_operation
  refine ⟨fun _ => Slot.divides_iff, g.entry, g.operation, h.found, ?_, ?_, ?_, ?_⟩
  · rw [instructions, ← length]
    simp
  · rw [temporariesFor_eq]
    exact h.operated
  · intro j _ _
    exact storedBack_iff keys resolved
  · intro known j _ writes
    obtain ⟨entry, found⟩ := Option.ne_none_iff_exists'.mp known
    have kept := Catalog.lookup_of_prefix (Catalog.extended_entries accepted) found
    obtain rfl : entry = g.entry := Option.some.inj (kept.symm.trans h.found)
    obtain ⟨op, mem, eq⟩ := Catalog.exists_op_of_mem_builtIn (Catalog.lookup_some found).1
    rw [eq] at writes
    exact (storedBack_iff keys resolved).mpr ((BuiltIn.regular_ops op mem).written writes)

/-- An operation that changes its first and its last operand. -/
def rotate : OpSpec where
  mnemonic := "rotate"
  args := [("p", .inOut), ("p", .input), ("p", .inOut)]

def rotateSample : Selector := { sample with catalog := Catalog.builtIn.insert rotate }

theorem lookup_builtIn_rotate : Catalog.builtIn.lookup rotate.name = none := by
  rw [Catalog.lookup, Catalog.entries_builtIn]
  decide +kernel

theorem extended_rotate :
    Catalog.builtIn.extended { ops := [rotate] } = .ok rotateSample.catalog :=
  Catalog.extended_op (by decide) lookup_builtIn_rotate

theorem resolve_rotate : (rotateSample.resolve "rotate" sampleContext).2 = .ok 0 := by
  decide +kernel

theorem lookup_rotate : rotateSample.catalog.lookup
      (fullName "rotate" (List.replicate sampleContext.slots.length "p")) =
    some (rotate.entry Catalog.builtIn.entries.length) :=
  Catalog.lookup_insert lookup_builtIn_rotate

/-- Of three slots, with a plain one between the others, the outer ones are written, and only the
first is stored back. -/
theorem destination_stored_back_rotate :
    Catalog.builtIn.extended { ops := [rotate] } = .ok rotateSample.catalog ∧
      2 ≤ sampleContext.keyed.count ∧ (rotateSample.resolve "rotate" sampleContext).2 = .ok 0 ∧
      Slot.Divides sampleContext.keyed 0 sampleContext.operands
        [.keyed 0 2, .plain 3, .keyed 1 2] ∧
      rotateSample.StoredBack "rotate" sampleContext 0 ∧
      ¬ rotateSample.StoredBack "rotate" sampleContext 2 := by
  have keys : 2 ≤ sampleContext.keyed.count := by decide
  obtain ⟨divided, entry, _, found, _, _, stored, _⟩ := destination_stored_back _ rotateSample
    "rotate" sampleContext 0 extended_rotate keys resolve_rotate
  obtain rfl : _ = entry := Option.some.inj (lookup_rotate.symm.trans found)
  refine ⟨extended_rotate, keys, resolve_rotate, (divided _).mpr (by decide +kernel), ?_, ?_⟩
  · exact (stored 0 (by decide) rfl).mpr rfl
  · exact fun second => absurd ((stored 2 (by decide) rfl).mp second) (by decide)

/-- An operation that changes both of its operands. -/
def swap : OpSpec where
  mnemonic := "swap"
  args := [("p", .inOut), ("p", .inOut)]

/-- The sample under the built-in table with the operation added. -/
def swapSample : Selector := { sample with catalog := Catalog.builtIn.insert swap }

/-- The operands of `a[0], b[0]`. -/
def swapContext : Context where
  maxArity := 4
  operands := [0, 2, 1, 2]
  keyed := (KeyedMask.single 0).insert 2

theorem lookup_builtIn_swap : Catalog.builtIn.lookup swap.name = none := by
  rw [Catalog.lookup, Catalog.entries_builtIn]
  decide +kernel

theorem extended_swap : Catalog.builtIn.extended { ops := [swap] } = .ok swapSample.catalog :=
  Catalog.extended_op (by decide) lookup_builtIn_swap

theorem resolve_swap : (swapSample.resolve "swap" swapContext).2 = .ok 0 := by decide +kernel

theorem lookup_swap :
    swapSample.catalog.lookup (fullName "swap" (List.replicate swapContext.slots.length "p")) =
      some (swap.entry Catalog.builtIn.entries.length) :=
  Catalog.lookup_insert lookup_builtIn_swap

/-- The second slot is written and not stored back. -/
theorem second_update_lost :
    ¬ ∀ (extension : Extension) (s : Selector) (mnemonic : String) (context : Context)
      (first : Nat) (entry : OpEntry),
      Catalog.builtIn.extended extension = .ok s.catalog → 2 ≤ context.keyed.count →
      (s.resolve mnemonic context).2 = .ok first →
      s.catalog.lookup (fullName mnemonic (List.replicate context.slots.length "p")) =
        some entry →
      ∀ j < context.slots.length, entry.writes j = true → s.StoredBack mnemonic context j := by
  intro stored
  have keys : 2 ≤ swapContext.keyed.count := by decide
  have second := stored _ swapSample "swap" swapContext 0 _ extended_swap keys resolve_swap
    lookup_swap 1 (by decide) rfl
  exact absurd ((storedBack_iff keys resolve_swap).mp second) Nat.one_ne_zero

end Selector
end OpSelect
