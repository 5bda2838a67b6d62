import OpSelect.Proofs.Selector.Emission

/-!
Slots and the flat operand lists they stand for. The mask of a list of slots marks its
containers; grouping the operands by this mask gives back the slots, and so does the layout of
an instruction. A context that was filled slot by slot holds the operands and the mask of its
slots.
-/

namespace OpSelect

namespace KeyedMask

variable {m n : KeyedMask} {position other : Nat}

theorem eq_of_contains (h : ∀ position, m.contains position = n.contains position) : m = n := by
  obtain ⟨bits⟩ := m
  obtain ⟨others⟩ := n
  exact congrArg KeyedMask.mk (BitVec.eq_of_getLsbD_eq fun position _ => h position)

@[simp]
theorem contains_empty (position : Nat) : empty.contains position = false := by
  simp [empty, contains]

theorem contains_insert :
    (m.insert position).contains other =
      (m.contains other || decide (position < maskWidth) && decide (position = other)) := by
  simp [insert, contains, BitVec.getLsbD_twoPow]

theorem contains_insert_self (inside : position < maskWidth) :
    (m.insert position).contains position = true := by
  simp [contains_insert, inside]

theorem contains_insert_ne (apart : position ≠ other) :
    (m.insert position).contains other = m.contains other := by
  simp [contains_insert, apart]

end KeyedMask

namespace Slot

/-- The number of operands that the slots cover. -/
def width (slots : List Slot) : Nat := (slots.flatMap Slot.operands).length

@[simp]
theorem width_nil : width [] = 0 := rfl

@[simp]
theorem width_plain (operand : SymbolId) (slots : List Slot) :
    width (.plain operand :: slots) = width slots + 1 := rfl

@[simp]
theorem width_keyed (container key : SymbolId) (slots : List Slot) :
    width (.keyed container key :: slots) = width slots + 2 := rfl

theorem width_append (slots others : List Slot) :
    width (slots ++ others) = width slots + width others := by
  simp [width]

/-- The positions of the containers among the slots' operands, counted from a position. -/
def mask (position : Nat) : List Slot → KeyedMask
  | [] => .empty
  | .plain _ :: slots => mask (position + 1) slots
  | .keyed _ _ :: slots => (mask (position + 2) slots).insert position

/-- What an instruction over the slots says. -/
def spelling (mnemonic : String) (slots : List Slot) : Spelling :=
  ⟨mnemonic, slots.flatMap Slot.operands, mask 0 slots⟩

theorem load_eq_spelling (temp : SymbolId) (slot : Slot) :
    slot.load temp = spelling "set" [.plain temp, slot] := by
  cases slot <;> rfl

theorem store_eq_spelling (temp : SymbolId) (slot : Slot) :
    slot.store temp = spelling "set" [slot, .plain temp] := by
  cases slot <;> rfl

theorem spelling_plain (mnemonic : String) (operands : List SymbolId) :
    spelling mnemonic (operands.map .plain) = ⟨mnemonic, operands, .empty⟩ := by
  have unmarked : ∀ position, mask position (operands.map .plain) = .empty := by
    induction operands with
    | nil => exact fun _ => rfl
    | cons operand operands ih => exact fun position => ih (position + 1)
  rw [spelling, unmarked, List.flatMap_map]
  simp [Slot.operands]

theorem mask_append (position : Nat) (slots others : List Slot) (place : Nat) :
    (mask position (slots ++ others)).contains place =
      ((mask position slots).contains place ||
        (mask (position + width slots) others).contains place) := by
  induction slots generalizing position with
  | nil => simp [mask]
  | cons slot slots ih =>
      cases slot with
      | plain operand =>
          rw [List.cons_append, mask, ih, mask, width_plain, Nat.add_right_comm, Nat.add_assoc]
      | keyed container key =>
          rw [List.cons_append, mask, mask, KeyedMask.contains_insert, KeyedMask.contains_insert,
            ih, width_keyed, Nat.add_right_comm, ← Nat.add_assoc]
          simp only [Bool.or_assoc, Bool.or_comm]

/-- The mask from `position` on decides how the operands there are grouped. -/
def MarksFrom (m : KeyedMask) (position : Nat) (slots : List Slot) : Prop :=
  ∀ place, position ≤ place → m.contains place = (mask position slots).contains place

theorem contains_mask_before {position place : Nat} {slots : List Slot}
    (before : place < position) : (mask position slots).contains place = false := by
  induction slots generalizing position with
  | nil => simp [mask]
  | cons slot slots ih =>
      cases slot with
      | plain operand => exact ih (by omega)
      | keyed container key =>
          rw [mask, KeyedMask.contains_insert_ne (by omega)]
          exact ih (by omega)

theorem MarksFrom.plain {m : KeyedMask} {position : Nat} {operand : SymbolId} {slots : List Slot}
    (h : MarksFrom m position (.plain operand :: slots)) :
    m.contains position = false ∧ MarksFrom m (position + 1) slots := by
  refine ⟨?_, fun place later => h place (by omega)⟩
  rw [h position (Nat.le_refl _), mask]
  exact contains_mask_before (Nat.lt_succ_self position)

theorem MarksFrom.keyed {m : KeyedMask} {position : Nat} {container key : SymbolId}
    {slots : List Slot} (inside : position < maskWidth)
    (h : MarksFrom m position (.keyed container key :: slots)) :
    m.contains position = true ∧ MarksFrom m (position + 2) slots := by
  refine ⟨?_, fun place later => ?_⟩
  · rw [h position (Nat.le_refl _)]
    exact KeyedMask.contains_insert_self inside
  · rw [h place (by omega)]
    exact KeyedMask.contains_insert_ne (by omega)

theorem marksFrom_mask (slots : List Slot) : MarksFrom (mask 0 slots) 0 slots :=
  fun _ _ => rfl

/-- Grouping operands by the mask of slots gives back the slots. -/
theorem group_of_marks {m : KeyedMask} {position : Nat} {slots : List Slot}
    (h : MarksFrom m position slots) (inside : position + width slots ≤ maskWidth) :
    group m position (slots.flatMap Slot.operands) = slots := by
  induction slots generalizing position with
  | nil => rfl
  | cons slot slots ih =>
      cases slot with
      | keyed container key =>
          rw [width_keyed] at inside
          obtain ⟨marked, rest⟩ := h.keyed (by omega)
          rw [List.flatMap_cons]
          simp only [Slot.operands, List.cons_append, List.nil_append, group, marked, if_true]
          rw [ih rest (by omega)]
      | plain operand =>
          rw [width_plain] at inside
          obtain ⟨unmarked, rest⟩ := h.plain
          have tail := ih rest (by omega)
          rw [List.flatMap_cons]
          simp only [Slot.operands, List.cons_append, List.nil_append]
          cases flat : slots.flatMap Slot.operands with
          | nil =>
              rw [flat] at tail
              rw [← tail]
              rfl
          | cons second others =>
              rw [flat] at tail
              simp only [group, unmarked, Bool.false_eq_true, if_false]
              rw [tail]

def shape : Slot → SlotShape
  | .plain _ => .plain
  | .keyed _ _ => .keyed

/-- An instruction over slots shows them one by one. -/
theorem layout_of_marks {m : KeyedMask} {position : Nat} {slots : List Slot}
    (h : MarksFrom m position slots) (inside : position + width slots ≤ maskWidth) :
    SlotShape.layout m position (width slots) = slots.map shape := by
  induction slots generalizing position with
  | nil => rfl
  | cons slot slots ih =>
      cases slot with
      | keyed container key =>
          rw [width_keyed] at inside ⊢
          obtain ⟨marked, rest⟩ := h.keyed (by omega)
          simp only [SlotShape.layout, marked, if_true]
          rw [ih rest (by omega)]
          rfl
      | plain operand =>
          rw [width_plain] at inside ⊢
          obtain ⟨unmarked, rest⟩ := h.plain
          have tail := ih rest (by omega)
          cases size : width slots with
          | zero =>
              rw [size] at tail
              simp only [SlotShape.layout, unmarked, Bool.false_eq_true, if_false]
              rw [List.map_cons, ← tail]
              rfl
          | succ n =>
              rw [size] at tail
              simp only [SlotShape.layout, unmarked, Bool.false_eq_true, if_false]
              rw [tail]
              rfl

end Slot

namespace Context

variable {c d : Context} {slots others : List Slot}

/-- The context holds just these slots. -/
structure Filled (c : Context) (slots : List Slot) : Prop where
  operands : c.operands = slots.flatMap Slot.operands
  keyed : c.keyed = Slot.mask 0 slots

theorem Filled.arity (h : c.Filled slots) : c.arity = Slot.width slots := by
  rw [Context.arity, h.operands, Slot.width]

theorem filled_context (s : Selector) : s.context.Filled [] := ⟨rfl, rfl⟩

theorem append_eq_ok {operand : SymbolId} (h : c.append operand = (d, .ok ())) :
    c.arity < c.maxArity ∧ d = { c with operands := c.operands ++ [operand] } := by
  unfold append at h
  split at h
  · cases h
  · rename_i room
    cases h
    exact ⟨Nat.lt_of_not_le room, rfl⟩

theorem appendKeyed_eq_ok {container key : SymbolId}
    (h : c.appendKeyed container key = (d, .ok ())) :
    d = { c with operands := c.operands ++ [container, key], keyed := c.keyed.insert c.arity } := by
  unfold appendKeyed at h
  split at h
  · cases h
  · rename_i e first
    split at h
    · cases h
    · rename_i f second
      obtain ⟨_, rfl⟩ := append_eq_ok first
      obtain ⟨_, rfl⟩ := append_eq_ok second
      unfold setKeyed at h
      split at h
      · cases h
        simp
      · cases h

theorem Filled.appendSlot {slot : Slot} (h : c.Filled slots)
    (added : c.appendSlot slot = (d, .ok ())) : d.Filled (slots ++ [slot]) := by
  cases slot with
  | plain operand =>
      obtain ⟨_, rfl⟩ := append_eq_ok added
      refine ⟨by simp [h.operands, Slot.operands], KeyedMask.eq_of_contains fun place => ?_⟩
      rw [Slot.mask_append]
      simp [h.keyed, Slot.mask]
  | keyed container key =>
      obtain rfl := appendKeyed_eq_ok added
      refine ⟨by simp [h.operands, Slot.operands], KeyedMask.eq_of_contains fun place => ?_⟩
      rw [Slot.mask_append]
      simp [h.keyed, h.arity, Slot.mask, KeyedMask.contains_insert]

theorem Filled.fill (h : c.Filled slots) (filled : c.fill others = .ok d) :
    d.Filled (slots ++ others) := by
  induction others generalizing c slots with
  | nil =>
      cases filled
      rwa [List.append_nil]
  | cons slot others ih =>
      unfold Context.fill at filled
      split at filled
      · cases filled
      · rename_i e added
        have rest := ih (h.appendSlot added) filled
        rwa [List.append_assoc, List.singleton_append] at rest

/-- Slots that fit can be filled in. A container's mark is within the mask because its key
fits too. -/
theorem fill_of_room (h : c.Filled slots) (room : Slot.width (slots ++ others) ≤ c.maxArity)
    (limit : c.maxArity ≤ maskWidth) :
    ∃ d, c.fill others = .ok d ∧ d.Filled (slots ++ others) := by
  have fits : ∃ d, c.fill others = .ok d := by
    induction others generalizing c slots with
    | nil => exact ⟨c, rfl⟩
    | cons slot others ih =>
        have arity := h.arity
        rw [Slot.width_append] at room
        cases slot with
        | plain operand =>
            rw [Slot.width_plain] at room
            have added : c.appendSlot (.plain operand) =
                ({ c with operands := c.operands ++ [operand] }, .ok ()) :=
              if_neg (by omega)
            have rest := ih (h.appendSlot added) (by
              rw [Slot.width_append, Slot.width_append, Slot.width_plain, Slot.width_nil]
              dsimp only
              omega) limit
            rw [fill, added]
            exact rest
        | keyed container key =>
            rw [Slot.width_keyed] at room
            have first : c.append container =
                ({ c with operands := c.operands ++ [container] }, .ok ()) :=
              if_neg (by omega)
            have second : ({ c with operands := c.operands ++ [container] } : Context).append key =
                ({ c with operands := c.operands ++ [container] ++ [key] }, .ok ()) := by
              refine if_neg ?_
              rw [Context.arity] at arity ⊢
              simp only [List.length_append, List.length_singleton]
              omega
            have added : c.appendSlot (.keyed container key) =
                ({ c with operands := c.operands ++ [container] ++ [key]
                          keyed := c.keyed.insert c.arity }, .ok ()) := by
              simp only [appendSlot, appendKeyed, first, second]
              exact if_pos (by omega)
            have rest := ih (h.appendSlot added) (by
              rw [Slot.width_append, Slot.width_append, Slot.width_keyed, Slot.width_nil]
              dsimp only
              omega) limit
            rw [fill, added]
            exact rest
  obtain ⟨d, filled⟩ := fits
  exact ⟨d, filled, h.fill filled⟩

/-- The slots of a filled context are those it was filled with. -/
theorem Filled.slots_eq (h : c.Filled slots) (inside : Slot.width slots ≤ maskWidth) :
    c.slots = slots := by
  rw [Context.slots, h.operands, h.keyed]
  exact Slot.group_of_marks (Slot.marksFrom_mask slots) (by omega)

theorem fill_append (c : Context) (slots others : List Slot) :
    c.fill (slots ++ others) = (c.fill slots >>= fun d => d.fill others) := by
  induction slots generalizing c with
  | nil => rfl
  | cons slot slots ih =>
      rw [List.cons_append, fill, fill]
      cases c.appendSlot slot with
      | mk d result =>
          cases result with
          | error fault => rfl
          | ok => exact ih d

end Context
end OpSelect
