import Mathlib.Logic.Function.Basic
import OpSelect.Proofs.Selector.Expansion

/-!
What an expanded operation means. Over any values and any way to index them, running the
emitted group does to the symbols of the program what the operation would do in one step:
all slots are read before the first is written, and the temporaries are seen by none.
-/

namespace OpSelect

universe u

/-- A value for every symbol. -/
abbrev Store (V : Type u) := SymbolId → V

/-- How containers are read and written, and what a new aggregate holds. -/
structure Interpretation (V : Type u) where
  get : V → V → V
  put : V → V → V → V
  initial : V

namespace Interpretation

open Function (update)

variable {V : Type u} (I : Interpretation V)

def read (σ : Store V) : Slot → V
  | .plain operand => σ operand
  | .keyed container key => I.get (σ container) (σ key)

def write (σ : Store V) (value : V) : Slot → Store V
  | .plain operand => update σ operand value
  | .keyed container key => update σ container (I.put (σ container) (σ key) value)

/-- The operation in one step: `F` makes the new value of the first slot from those of all
slots. A first slot that is not read counts as a new aggregate. -/
def perform (F : List V → V) (reads : Bool) (σ : Store V) : List Slot → Store V
  | [] => σ
  | dest :: others =>
      let start := if reads then I.read σ dest else I.initial
      I.write σ (F (start :: others.map (I.read σ))) dest

/-- Copies, with at most one side indexed, and creation. -/
def step (σ : Store V) (i : Spelling) : Store V :=
  match i.mnemonic, i.operands, i.keyed.positions with
  | "set", [a, b], [] => update σ a (σ b)
  | "set", [a, c, k], [1] => update σ a (I.get (σ c) (σ k))
  | "set", [c, k, a], [0] => update σ c (I.put (σ c) (σ k) (σ a))
  | "new", [a, _], [] => update σ a I.initial
  | _, _, _ => σ

/-- The operation itself changes its first operand only. -/
def operate (F : List V → V) (σ : Store V) (i : Spelling) : Store V :=
  match i.operands with
  | [] => σ
  | first :: others => update σ first (F ((first :: others).map σ))

/-- Runs a group. Its operation stands just before its last instruction. -/
def runGroup (F : List V → V) (σ : Store V) : List Spelling → Store V
  | [] => σ
  | [last] => I.step σ last
  | [operation, last] => I.step (operate F σ operation) last
  | i :: rest => runGroup F (I.step σ i) rest

theorem runGroup_cons (F : List V → V) (σ : Store V) (i : Spelling) {rest : List Spelling}
    (h : 2 ≤ rest.length) : I.runGroup F σ (i :: rest) = I.runGroup F (I.step σ i) rest := by
  match rest, h with
  | j :: k :: rest, _ => simp [runGroup]

theorem runGroup_append (F : List V → V) (σ : Store V) (loads : List Spelling)
    (prepare operation last : Spelling) :
    I.runGroup F σ (loads ++ [prepare, operation, last]) =
      I.step (operate F (I.step (loads.foldl I.step σ) prepare) operation) last := by
  induction loads generalizing σ with
  | nil => rfl
  | cons load loads ih =>
      rw [List.cons_append, runGroup_cons I F σ load (by simp), ih, List.foldl_cons]

theorem step_load (σ : Store V) (slot : Slot) (temp : SymbolId) :
    I.step σ (slot.load temp) = update σ temp (I.read σ slot) := by
  have none : KeyedMask.empty.positions = [] := by decide
  have second : (KeyedMask.single 1).positions = [1] := by decide
  cases slot with
  | plain operand => simp [step, Slot.load, none, read]
  | keyed container key => simp [step, Slot.load, second, read]

theorem step_store (σ : Store V) (slot : Slot) (temp : SymbolId) :
    I.step σ (slot.store temp) = I.write σ (σ temp) slot := by
  have none : KeyedMask.empty.positions = [] := by decide
  have first : (KeyedMask.single 0).positions = [0] := by decide
  cases slot with
  | plain operand => simp [step, Slot.store, none, write]
  | keyed container key => simp [step, Slot.store, first, write]

theorem step_new (σ : Store V) (temp type : SymbolId) :
    I.step σ ⟨"new", [temp, type], .empty⟩ = update σ temp I.initial := by
  have none : KeyedMask.empty.positions = [] := by decide
  simp [step, none]

variable {I} {σ τ : Store V} {slot : Slot}

theorem read_congr (agree : ∀ id ∈ slot.operands, τ id = σ id) :
    I.read τ slot = I.read σ slot := by
  cases slot with
  | plain operand => exact agree operand (by simp [Slot.operands])
  | keyed container key =>
      rw [read, read, agree container (by simp [Slot.operands]),
        agree key (by simp [Slot.operands])]

theorem write_congr {value : V} {id : SymbolId} (agree : ∀ id ∈ slot.operands, τ id = σ id)
    (here : τ id = σ id) : I.write τ value slot id = I.write σ value slot id := by
  cases slot with
  | plain operand => simp only [write, Function.update_apply, here]
  | keyed container key =>
      simp only [write, Function.update_apply, here, agree container (by simp [Slot.operands]),
        agree key (by simp [Slot.operands])]

/-- The loads put the slots' values into their temporaries and change nothing else. The
induction is on the slots: each load leaves the places of the later ones untouched. -/
theorem foldl_loads (σ : Store V) (slots : List Slot) {start : Nat}
    (old : ∀ slot ∈ slots, ∀ id ∈ slot.operands, id < start) :
    let loads := (slots.zip (List.range' start slots.length)).map fun (slot, temp) =>
      slot.load temp
    (∀ id ∉ List.range' start slots.length, loads.foldl I.step σ id = σ id) ∧
      (List.range' start slots.length).map (loads.foldl I.step σ) = slots.map (I.read σ) := by
  induction slots generalizing start σ with
  | nil => exact ⟨fun _ _ => rfl, rfl⟩
  | cons slot slots ih =>
      obtain ⟨first, rest⟩ := List.forall_mem_cons.mp old
      obtain ⟨kept, loaded⟩ := ih (I.step σ (slot.load start)) fun slot mem id inside =>
        Nat.lt_succ_of_lt (rest slot mem id inside)
      simp only [List.length_cons, List.range'_succ, List.zip_cons_cons, List.map_cons,
        List.foldl_cons]
      rw [step_load] at kept loaded ⊢
      refine ⟨?_, ?_⟩
      · intro id outside
        obtain ⟨other, outside⟩ := not_or.mp (mt List.mem_cons.mpr outside)
        rw [kept id outside, Function.update_of_ne other]
      · have here : start ∉ List.range' (start + 1) slots.length := by
          simp only [List.mem_range'_1]
          omega
        rw [loaded, kept start here, Function.update_self]
        refine congrArg _ (List.map_congr_left fun slot mem => read_congr fun id inside => ?_)
        exact Function.update_of_ne (Nat.ne_of_lt (rest slot mem id inside)) _ _

/-- The preparation gives the first temporary the value that the operation starts from. -/
theorem step_prepare {s : Selector} {entry : OpEntry} {dest : Slot} {t t' : SymbolTable}
    {prepare : Spelling} (h : s.Prepares entry dest t prepare t') (σ : Store V) :
    I.step σ prepare =
      update σ s.symbols.size (if entry.reads 0 then I.read σ dest else I.initial) := by
  cases h with
  | load reads => rw [step_load, if_pos reads]
  | create type overwrites known => rw [step_new, if_neg (by simp [overwrites])]

end Interpretation

namespace Selector

open Interpretation
open Function (update)

/-- Running the group of an expanded operation gives every symbol but the group's temporaries
the value that it has when all slots are read in the store before, `F` is applied to their
values, and its outcome is written into the first slot. Here `F` may be any function: for an
operation that only reads its first operand it is one that returns the first value. -/
theorem expansion_preserves_meaning {V : Type u} (I : Interpretation V) (F : List V → V)
    (s : Selector) (mnemonic : String) (context : Context) (first : Nat)
    (valid : ∀ id ∈ context.operands, id < s.symbols.size)
    (keys : 2 ≤ context.keyed.count)
    (resolved : (s.resolve mnemonic context).2 = .ok first) :
    (∀ slots, Slot.Divides context.keyed 0 context.operands slots ↔ slots = context.slots) ∧
    ∃ entry,
      s.catalog.lookup (fullName mnemonic (List.replicate context.slots.length "p")) =
        some entry ∧
      ∀ (σ : Store V) (id : SymbolId), id ∉ s.temporariesFor context →
        I.runGroup F σ
            (((s.resolve mnemonic context).1.instructions.drop first).map Instruction.spelling)
            id =
          I.perform F (entry.reads 0) σ context.slots id := by
  obtain ⟨rfl, g, h⟩ := resolve_expands keys resolved
  refine ⟨fun _ => Slot.divides_iff, g.entry, h.found, fun σ id outside => ?_⟩
  have old : ∀ slot ∈ g.dest :: g.others, ∀ id ∈ slot.operands, id < s.symbols.size :=
    fun slot mem id inside => valid id (h.mem_operands mem inside)
  obtain ⟨oldDest, oldOthers⟩ := List.forall_mem_cons.mp old
  obtain ⟨kept, loaded⟩ := foldl_loads (I := I) σ g.others fun slot mem id inside =>
    Nat.lt_succ_of_lt (oldOthers slot mem id inside)
  rw [h.instructions, List.drop_left, h.spelled, runGroup_append, step_prepare h.prepared,
    step_store, h.temporaries_cons, h.slots]
  generalize List.foldl I.step σ _ = τ at kept loaded ⊢
  have same : ∀ id < s.symbols.size, τ id = σ id := fun id lt =>
    kept id fun mem => Nat.not_lt_of_lt lt (List.mem_range'_1.mp mem).1
  have start : I.read τ g.dest = I.read σ g.dest :=
    read_congr fun id inside => same id (oldDest id inside)
  have values : ((List.range' (s.symbols.size + 1) g.others.length).map
      (update τ s.symbols.size (if g.entry.reads 0 then I.read σ g.dest else I.initial))) =
        g.others.map (I.read σ) := by
    rw [← loaded]
    refine List.map_congr_left fun id mem => Function.update_of_ne ?_ _ _
    exact Nat.ne_of_gt (List.mem_range'_1.mp mem).1
  rw [temporariesFor_eq, h.temporaries_cons] at outside
  obtain ⟨other, outside⟩ := not_or.mp (mt List.mem_cons.mpr outside)
  rw [start]
  simp only [operate, List.map_cons, Function.update_self, Function.update_idem, perform]
  rw [values]
  refine write_congr (fun id inside => ?_) ?_
  · rw [Function.update_of_ne (Nat.ne_of_lt (oldDest id inside)), same id (oldDest id inside)]
  · rw [Function.update_of_ne other, kept id outside]

/-- With sums for indexing and a product for the operation, `a[0]` becomes the product of a
new aggregate, `$P2` and `b[0]`. -/
theorem expansion_preserves_meaning_mul :
    (∀ id ∈ sampleContext.operands, id < sample.symbols.size) ∧
      2 ≤ sampleContext.keyed.count ∧ (sample.resolve "mul" sampleContext).2 = .ok 0 ∧
      let I : Interpretation Nat := ⟨(· + ·), fun c k v => 100 * c + 10 * k + v, 7⟩
      let group := ((sample.resolve "mul" sampleContext).1.instructions.drop 0).map
        Instruction.spelling
      I.runGroup (List.foldl Nat.mul 1) (· + 1) group 0 = 100 * 1 + 10 * 3 + 7 * 4 * (2 + 3) := by
  have valid : ∀ id ∈ sampleContext.operands, id < sample.symbols.size := by decide
  have keys : 2 ≤ sampleContext.keyed.count := by decide
  refine ⟨valid, keys, resolve_sample, ?_⟩
  obtain ⟨_, entry, found, runs⟩ := expansion_preserves_meaning
    ⟨(· + ·), fun c k v => 100 * c + 10 * k + v, 7⟩ (List.foldl Nat.mul 1) sample "mul"
    sampleContext 0 valid keys resolve_sample
  have overwrites : entry.reads 0 = false := by
    have known : (sample.catalog.lookup
        (fullName "mul" (List.replicate sampleContext.slots.length "p"))).map (·.reads 0) =
          some false := by decide +kernel
    rw [found] at known
    exact Option.some.inj known
  rw [overwrites] at runs
  exact runs (· + 1) 0 (by decide +kernel)

end Selector
end OpSelect
