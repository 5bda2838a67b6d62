import OpSelect.Proofs.Symbol.Temporary

/-!
The life of a symbol table: any calls, answered or refused, and truncations to any size. The
table is well-formed at every moment of it. A call adds to the table and changes nothing that is
there, and a name that is known is never given to a second symbol.
-/

namespace OpSelect

/-- A call of the symbol table. A temporary may be named from any supply. -/
inductive TableCall where
  | declare (name : String) (cls : ValueClass)
  | var (name : String) (cls : ValueClass)
  | machineRegister (cls : ValueClass) (index : Nat)
  | constant (text : String) (cls : ValueClass)
  | address (name : String)
  | defineLabel (name : String)
  | temporary (supply : NameSupply) (cls : ValueClass)
  | collapse (chain : KeyChain)
deriving DecidableEq, Repr

namespace TableCall

/-- The table after a call that can be refused. -/
def answered (t : SymbolTable) : Except SymbolError (SymbolTable × SymbolId) → SymbolTable
  | .ok (u, _) => u
  | .error _ => t

def perform (t : SymbolTable) : TableCall → SymbolTable
  | declare name cls => answered t (t.declare name cls)
  | var name cls => answered t (t.var name cls)
  | machineRegister cls index => answered t (t.machineRegister cls index)
  | constant text cls => (t.constant text cls).1
  | address name => answered t (t.address name)
  | defineLabel name => (t.placeLabel name).1
  | temporary supply cls => (t.temporary supply cls).1
  | collapse chain => (chain.collapse t).1

theorem grows_answered {t : SymbolTable} {result : Except SymbolError (SymbolTable × SymbolId)}
    (grown : ∀ {u id}, result = .ok (u, id) → t.Grows u) : t.Grows (answered t result) := by
  cases result with
  | error e => exact .refl
  | ok answer => exact grown rfl

/-- A call that defines no label adds to any table, well-formed or not. -/
theorem grows_perform_unlabelled {t : SymbolTable} {call : TableCall}
    (other : ∀ name, call ≠ .defineLabel name) : t.Grows (perform t call) := by
  cases call with
  | declare name cls => exact grows_answered fun h => (SymbolTable.declare_ok h).1
  | var name cls => exact grows_answered fun h => (SymbolTable.var_ok h).1
  | machineRegister cls index =>
      exact grows_answered fun h => (SymbolTable.machineRegister_ok h).1
  | constant text cls => exact t.grows_constant text cls
  | address name => exact grows_answered fun h => (SymbolTable.address_ok h).1
  | defineLabel name => exact absurd rfl (other name)
  | temporary supply cls => exact SymbolTable.grows_temporary
  | collapse chain => exact SymbolTable.grows_collapse chain t

theorem grows_perform {t : SymbolTable} (wf : t.WellFormed) (call : TableCall) :
    t.Grows (perform t call) := by
  by_cases labels : ∃ name, call = .defineLabel name
  · obtain ⟨name, rfl⟩ := labels
    rcases SymbolTable.placeLabel_cases wf name with ⟨e, refused⟩ | ⟨u, id, placed, grown, _⟩
    · have same : perform t (defineLabel name) = t := congrArg Prod.fst refused
      rw [same]
    · have same : perform t (defineLabel name) = u := congrArg Prod.fst placed
      rw [same]
      exact grown
  · exact grows_perform_unlabelled (not_exists.mp labels)

end TableCall

namespace SymbolTable

variable {t : SymbolTable} {name : String} {id : SymbolId} {size : Nat}

section Truncate

theorem lt_size_truncate : id < (t.truncate size).size ↔ id < size ∧ id < t.size := by
  have length : (t.truncate size).size = min size t.size := List.length_take
  rw [length]
  exact Nat.lt_min

theorem get_truncate (kept : id < size) : (t.truncate size).get id = t.get id := by
  rw [get, get, List.getD_eq_getElem?_getD, List.getD_eq_getElem?_getD]
  exact congrArg (Option.getD · _) (List.getElem?_take_of_lt kept)

/-- What leads to a kept symbol is kept, and what leads to a dropped one is dropped. -/
theorem WellFormed.truncate (wf : t.WellFormed) (size : Nat) : (t.truncate size).WellFormed where
  named entry mem := by
    obtain ⟨old, kept⟩ := List.mem_filter.mp mem
    have kept : entry.2 < size := of_decide_eq_true kept
    obtain ⟨valid, leads⟩ := wf.named entry old
    rw [get_truncate kept]
    exact ⟨lt_size_truncate.mpr ⟨kept, valid⟩, leads⟩
  ordered := wf.ordered.filter _
  unique := wf.unique.sublist (List.filter_sublist.map Prod.fst)
  indexed id lt must := by
    obtain ⟨kept, valid⟩ := lt_size_truncate.mp lt
    rw [get_truncate kept] at must ⊢
    exact List.mem_filter.mpr ⟨wf.indexed id valid must, decide_eq_true kept⟩
  registers id lt := by
    obtain ⟨kept, valid⟩ := lt_size_truncate.mp lt
    rw [get_truncate kept]
    exact wf.registers id valid
  interned entry mem := by
    obtain ⟨old, kept⟩ := List.mem_filter.mp mem
    have kept : entry.2 < size := of_decide_eq_true kept
    obtain ⟨valid, symbol⟩ := wf.interned entry old
    rw [get_truncate kept]
    exact ⟨lt_size_truncate.mpr ⟨kept, valid⟩, symbol⟩
  distinct := wf.distinct.sublist (List.filter_sublist.map Prod.fst)
  labels id mem := by
    obtain ⟨old, kept⟩ := List.mem_filter.mp mem
    have kept : id < size := of_decide_eq_true kept
    obtain ⟨valid, address⟩ := wf.labels id old
    rw [get_truncate kept]
    exact ⟨lt_size_truncate.mpr ⟨kept, valid⟩, address⟩
  once := wf.once.filter _

end Truncate

section Reuse

/-- An answer that is the symbol already there and leaves the table as it is. -/
def Reuses (t : SymbolTable) (id : SymbolId)
    (result : Except SymbolError (SymbolTable × SymbolId)) : Prop :=
  ∀ u other, result = .ok (u, other) → u = t ∧ other = id

theorem reuses_mention {symbol : Symbol} (known : t.lookup symbol.name = some id) :
    t.Reuses id (t.mention symbol) := by
  intro u other answer
  rw [mention, known] at answer
  dsimp only at answer
  cases checked : t.expectValue id symbol.cls with
  | error e =>
      rw [checked] at answer
      cases answer
  | ok =>
      rw [checked] at answer
      cases answer
      exact ⟨rfl, rfl⟩

theorem reuses_address (known : t.lookup name = some id) : t.Reuses id (t.address name) := by
  intro u other answer
  rcases address_cases answer with ⟨same, leads, _⟩ | ⟨fresh, _⟩
  · exact ⟨same, Option.some.inj (leads.symm.trans known)⟩
  · rw [known] at fresh
    cases fresh

end Reuse

end SymbolTable

/-- A step in the life of a table. An expansion that fails truncates it. -/
inductive TableStep where
  | call (call : TableCall)
  | truncate (size : Nat)
deriving DecidableEq, Repr

namespace TableStep

def perform (t : SymbolTable) : TableStep → SymbolTable
  | call c => c.perform t
  | truncate size => t.truncate size

/-- The table that steps make of the empty one. -/
def run (steps : List TableStep) : SymbolTable := steps.foldl perform {}

theorem perform_wf {t : SymbolTable} (wf : t.WellFormed) (step : TableStep) :
    (step.perform t).WellFormed := by
  cases step with
  | call call => exact wf.grows (call.grows_perform wf)
  | truncate size => exact wf.truncate size

theorem foldl_perform_wf {t : SymbolTable} (wf : t.WellFormed) (steps : List TableStep) :
    (steps.foldl perform t).WellFormed := by
  induction steps generalizing t with
  | nil => exact wf
  | cons step steps ih => exact ih (perform_wf wf step)

/-- Whatever was done to it, a table is well-formed. The next call keeps every symbol where and
as it is, and where it mentions a name that is known, its answer is the symbol of this name and
the table stays the same. -/
theorem history_wellFormed (steps : List TableStep) :
    (run steps).WellFormed ∧
    (∀ call : TableCall, (run steps).symbols <+: (call.perform (run steps)).symbols) ∧
    ∀ name id, (run steps).lookup name = some id →
      (∀ cls, (run steps).Reuses id ((run steps).var name cls)) ∧
      (∀ cls index, cls.machineRegister index = name →
        (run steps).Reuses id ((run steps).machineRegister cls index)) ∧
      (run steps).Reuses id ((run steps).address name) := by
  have wf : (run steps).WellFormed := foldl_perform_wf SymbolTable.wellFormed_empty steps
  refine ⟨wf, fun call => (call.grows_perform wf).symbols, fun name id known => ⟨?_, ?_, ?_⟩⟩
  · exact fun cls => SymbolTable.reuses_mention known
  · rintro cls index rfl
    exact SymbolTable.reuses_mention known
  · exact SymbolTable.reuses_address known

/-- A register and a label, declared around a constant and names that were given up. -/
def renewed : List TableStep :=
  [.call (.machineRegister .aggregate 3), .call (.constant "P3" .string),
   .call (.declare "x" .integer), .truncate 2, .call (.declare "P3" .aggregate),
   .call (.defineLabel "x"), .call (.address "x")]

/-- Each name leads to its symbol, the second one to a symbol of another kind than at first. -/
theorem history_wellFormed_renewed :
    (run renewed).lookup "P3" = some 0 ∧
      (run renewed).Reuses 0 ((run renewed).machineRegister .aggregate 3) ∧
    (run renewed).lookup "x" = some 2 ∧ (run renewed).Reuses 2 ((run renewed).address "x") := by
  have register : (run renewed).lookup "P3" = some 0 := by decide +kernel
  have label : (run renewed).lookup "x" = some 2 := by decide +kernel
  obtain ⟨_, _, reuses⟩ := history_wellFormed renewed
  exact ⟨register, (reuses "P3" 0 register).2.1 .aggregate 3 (by decide +kernel), label,
    (reuses "x" 2 label).2.2⟩

end TableStep
end OpSelect
