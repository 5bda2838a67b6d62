import OpSelect.Proofs.Selector.Quiet
import OpSelect.Proofs.Symbol.History

/-!
Taking calls back. Whatever calls have added to a table since it had a certain size stands behind
that size: new symbols at the end of the arena, and entries that lead to them. So a truncation to
the size gives back the table as it was. The one thing that a call can say about an old symbol is
that it is a label defined now, and this is not undone if the label was only mentioned before.
-/

namespace OpSelect

namespace SymbolTable

variable {t u : SymbolTable}

theorem Adds.definedLabels (h : Adds t u) : t.definedLabels <+: u.definedLabels := by
  cases h with
  | key | named | constant => exact List.prefix_refl _
  | label id => exact List.prefix_append _ _

theorem Grows.definedLabels (h : Grows t u) : t.definedLabels <+: u.definedLabels := by
  induction h with
  | refl => exact List.prefix_refl _
  | tail _ step ih => exact ih.trans step.definedLabels

theorem definedLabels_address {name : String} {id : SymbolId} (h : t.address name = .ok (u, id)) :
    u.definedLabels = t.definedLabels := by
  rcases address_cases h with ⟨rfl, _⟩ | ⟨_, pushed⟩
  · rfl
  · cases pushed
    rfl

/-- A label that a definition adds is the one of its name. -/
theorem mem_definedLabels_placeLabel {name : String} {id : SymbolId}
    (mem : id ∈ (t.placeLabel name).1.definedLabels) :
    id ∈ t.definedLabels ∨ (t.placeLabel name).1.lookup name = some id := by
  unfold placeLabel at mem ⊢
  cases found : t.address name with
  | error e =>
      rw [found] at mem
      exact .inl mem
  | ok answer =>
      obtain ⟨u, label⟩ := answer
      have same := definedLabels_address found
      obtain ⟨_, leads, _⟩ := address_ok found
      rw [found] at mem
      dsimp only at mem ⊢
      split at mem
      · exact .inl (same ▸ mem)
      · rename_i undefined
        rw [if_neg undefined]
        cases List.mem_append.mp mem with
        | inl old => exact .inl (same ▸ old)
        | inr new =>
            rw [List.mem_singleton.mp new]
            exact .inr leads

end SymbolTable

namespace TableCall

variable {t u : SymbolTable} {id : SymbolId}

/-- The table after calls one after another, each answered or refused. -/
def performAll (t : SymbolTable) (calls : List TableCall) : SymbolTable := calls.foldl perform t

theorem grows_performAll (wf : t.WellFormed) (calls : List TableCall) :
    t.Grows (performAll t calls) := by
  induction calls generalizing t with
  | nil => exact .refl
  | cons call calls ih =>
      have first := call.grows_perform wf
      exact first.trans (ih (wf.grows first))

theorem definedLabels_answered {result : Except SymbolError (SymbolTable × SymbolId)}
    (same : ∀ {u id}, result = .ok (u, id) → u.definedLabels = t.definedLabels) :
    (answered t result).definedLabels = t.definedLabels := by
  cases result with
  | error e => rfl
  | ok answer => exact same rfl

/-- A call defines no label but the one that it is about. -/
theorem defined_perform (call : TableCall) (mem : id ∈ (perform t call).definedLabels) :
    id ∈ t.definedLabels ∨
      ∃ name, call = .defineLabel name ∧ (perform t call).lookup name = some id := by
  have unchanged (same : (perform t call).definedLabels = t.definedLabels) :
      id ∈ t.definedLabels := same ▸ mem
  cases call with
  | declare name cls =>
      exact .inl (unchanged (definedLabels_answered fun h => (SymbolTable.quiet_declare h).labels))
  | var name cls =>
      exact .inl (unchanged (definedLabels_answered fun h => (SymbolTable.quiet_var h).labels))
  | machineRegister cls index =>
      exact .inl (unchanged
        (definedLabels_answered fun h => (SymbolTable.quiet_machineRegister h).labels))
  | constant text cls => exact .inl (unchanged (t.quiet_constant text cls).labels)
  | address name =>
      exact .inl (unchanged (definedLabels_answered SymbolTable.definedLabels_address))
  | temporary supply cls => exact .inl mem
  | collapse chain => exact .inl (unchanged (SymbolTable.quiet_collapse chain t).labels)
  | defineLabel name =>
      cases SymbolTable.mem_definedLabels_placeLabel mem with
      | inl old => exact .inl old
      | inr leads => exact .inr ⟨name, rfl, leads⟩

/-- The labels that calls define are those of the names that they define, by induction on the
calls. A name that leads to a label after one call does so after all. -/
theorem defined_performAll (wf : t.WellFormed) (calls : List TableCall)
    (mem : id ∈ (performAll t calls).definedLabels) :
    id ∈ t.definedLabels ∨
      ∃ name, .defineLabel name ∈ calls ∧ (performAll t calls).lookup name = some id := by
  induction calls generalizing t with
  | nil => exact .inl mem
  | cons call calls ih =>
      have wf' := wf.grows (call.grows_perform wf)
      rcases ih wf' mem with before | ⟨name, later, leads⟩
      · rcases call.defined_perform before with old | ⟨name, rfl, leads⟩
        · exact .inl old
        · exact .inr ⟨name, List.mem_cons_self, (grows_performAll wf' calls).lookup leads⟩
      · exact .inr ⟨name, List.mem_cons_of_mem _ later, leads⟩

/-- A truncation to its size gives a table back as it was before any calls, if these define no
label whose name it has. -/
theorem truncate_undoes_calls (wf : t.WellFormed) (calls : List TableCall)
    (fresh : ∀ name, .defineLabel name ∈ calls → t.lookup name = none) :
    (performAll t calls).truncate t.size = t := by
  have grown := grows_performAll wf calls
  obtain ⟨added, labels⟩ := grown.definedLabels
  refine SymbolTable.truncate_of_grows wf grown ⟨added, labels.symm, fun id mem => ?_⟩
  by_contra old
  have defined : id ∈ (performAll t calls).definedLabels := by
    rw [← labels]
    exact List.mem_append_right _ mem
  rcases defined_performAll wf calls defined with before | ⟨name, isDefined, leads⟩
  · have once := (wf.grows grown).once
    rw [← labels] at once
    exact List.disjoint_of_nodup_append once before mem
  · have known := grown.lookup_old (Nat.lt_of_not_le old) leads
    rw [fresh name isDefined] at known
    cases known

/-- One call of each kind, and some that are refused. -/
def growingCalls : List TableCall :=
  [.declare "x" .integer, .declare "i" .integer, .var "P3" .aggregate, .machineRegister .string 0,
    .constant "P3" .string, .constant "7" .integer, .address "exit", .address "loop",
    .defineLabel "loop", .defineLabel "loop", .temporary {} .aggregate, .collapse ⟨1, [0, 4]⟩]

/-- The table has a register, a constant and a label, and seven symbols more after the calls. -/
theorem truncate_undoes_growingCalls :
    let t := TableStep.run TableStep.renewed
    t.WellFormed ∧ (∀ name, .defineLabel name ∈ growingCalls → t.lookup name = none) ∧
      t.size = 3 ∧ (performAll t growingCalls).size = 10 ∧
      (performAll t growingCalls).truncate t.size = t := by
  intro t
  have wf : t.WellFormed := TableStep.foldl_perform_wf SymbolTable.wellFormed_empty _
  have free : t.lookup "loop" = none := by decide +kernel
  have fresh : ∀ name, .defineLabel name ∈ growingCalls → t.lookup name = none := by
    intro name mem
    obtain rfl : name = "loop" := by simpa [growingCalls] using mem
    exact free
  exact ⟨wf, fresh, by decide +kernel, by decide +kernel, truncate_undoes_calls wf _ fresh⟩

/-- A label that the table mentions stays defined. -/
example :
    let t := perform {} (.address "exit")
    ((performAll t [.defineLabel "exit"]).truncate t.size).definedLabels = [0] ∧
      t.definedLabels = [] := by
  decide +kernel

end TableCall
end OpSelect
