import OpSelect.Proofs.Symbol.Growth
import OpSelect.Symbol.Temporary

/-!
Temporaries are new variables under free register names. The search for a free number ends
because register names tell numbers apart, so that a table with as many names as there are
numbers tried but one cannot hold them all.
-/

namespace OpSelect

namespace ValueClass

theorem machineRegister_toList (cls : ValueClass) (n : Nat) :
    (cls.machineRegister n).toList = cls.letter :: Nat.toDigits 10 n := by
  simp [machineRegister, ToString.toString]

theorem virtualRegister_toList (cls : ValueClass) (n : Nat) :
    (cls.virtualRegister n).toList = '$' :: (cls.machineRegister n).toList := by
  simp [virtualRegister, ToString.toString]

/-- A name has one number, whatever its class. -/
theorem number_of_virtualRegister {cls other : ValueClass} {m n : Nat}
    (h : cls.virtualRegister m = other.virtualRegister n) : m = n := by
  have spelled := congrArg String.toList h
  simp only [virtualRegister_toList, machineRegister_toList, List.cons.injEq, true_and] at spelled
  have value := congrArg (Nat.ofDigitChars 10 · 0) spelled.2
  simpa only [Nat.ofDigitChars_ten_toDigits] using value

theorem virtualRegister_injective (cls : ValueClass) : Function.Injective cls.virtualRegister :=
  fun _ _ => number_of_virtualRegister

/-- The sigil tells virtual registers from machine registers. -/
theorem machineRegister_ne_virtualRegister (cls other : ValueClass) (m n : Nat) :
    cls.machineRegister m ≠ other.virtualRegister n := by
  intro h
  have spelled := congrArg String.toList h
  rw [virtualRegister_toList, machineRegister_toList, List.cons.injEq] at spelled
  cases cls <;> simp [letter] at spelled

end ValueClass

namespace NameSupply

variable (supply : NameSupply) (cls : ValueClass) (t : SymbolTable)

theorem exists_free_candidate :
    ∃ n ∈ supply.candidates t, t.lookup (cls.virtualRegister n) = none := by
  by_contra taken
  push Not at taken
  have distinct : ((supply.candidates t).map cls.virtualRegister).Nodup :=
    (List.nodup_range' 1).map cls.virtualRegister_injective
  have inside : (supply.candidates t).map cls.virtualRegister ⊆ t.names.map Prod.fst := by
    intro name mem
    obtain ⟨n, candidate, rfl⟩ := List.mem_map.mp mem
    obtain ⟨id, found⟩ := Option.ne_none_iff_exists'.mp (taken n candidate)
    exact List.mem_map.mpr ⟨_, SymbolTable.mem_of_lookup found, rfl⟩
  have fewer := distinct.length_le_of_subset inside
  simp only [candidates, List.length_map, List.length_range'] at fewer
  omega

/-- The fallback of the search is never taken. -/
theorem find_nextNumber :
    (supply.candidates t).find? (fun n => !t.isTaken (cls.virtualRegister n)) =
      some (supply.nextNumber cls t) := by
  obtain ⟨n, candidate, free⟩ := supply.exists_free_candidate cls t
  have found : ((supply.candidates t).find?
      (fun n => !t.isTaken (cls.virtualRegister n))).isSome := by
    rw [List.find?_isSome]
    exact ⟨n, candidate, by simp [SymbolTable.isTaken, free]⟩
  obtain ⟨first, eq⟩ := Option.isSome_iff_exists.mp found
  rw [nextNumber, eq]
  rfl

theorem lookup_nextNumber : t.lookup (cls.virtualRegister (supply.nextNumber cls t)) = none := by
  simpa [SymbolTable.isTaken] using List.find?_some (supply.find_nextNumber cls t)

theorem nextNumber_bounds :
    supply.last < supply.nextNumber cls t ∧
      supply.nextNumber cls t ≤ supply.last + t.names.length + 1 := by
  have mem := List.mem_of_find?_eq_some (supply.find_nextNumber cls t)
  simp only [candidates, List.mem_range'_1] at mem
  omega

theorem last_lt_nextNumber : supply.last < supply.nextNumber cls t :=
  (supply.nextNumber_bounds cls t).1

end NameSupply

namespace SymbolTable

variable {t : SymbolTable} {supply : NameSupply} {cls : ValueClass}

/-- The table with a variable added for each register number. -/
def withRegisters (t : SymbolTable) (cls : ValueClass) (numbers : List Nat) : SymbolTable :=
  { t with
    symbols := t.symbols ++ numbers.map fun n => ⟨cls.virtualRegister n, cls, .var⟩
    names := t.names ++ (numbers.zipIdx t.size).map fun (n, id) => (cls.virtualRegister n, id) }

theorem withRegisters_cons (n : Nat) (numbers : List Nat) :
    (t.withRegisters cls [n]).withRegisters cls numbers = t.withRegisters cls (n :: numbers) := by
  simp [withRegisters, size]

theorem size_withRegisters (numbers : List Nat) :
    (t.withRegisters cls numbers).size = t.size + numbers.length := by
  simp [withRegisters, size]

/-- Each new variable has its register's name, and the name leads to it. -/
theorem get_withRegisters {numbers : List Nat} {id : Nat}
    (mem : id ∈ List.range' t.size numbers.length) :
    ∃ n ∈ numbers, (t.withRegisters cls numbers).get id = ⟨cls.virtualRegister n, cls, .var⟩ ∧
      (cls.virtualRegister n, id) ∈ (t.withRegisters cls numbers).names := by
  obtain ⟨above, below⟩ := List.mem_range'_1.mp mem
  have inside : id - t.size < numbers.length := by omega
  refine ⟨numbers[id - t.size], List.getElem_mem inside, ?_, ?_⟩
  · rw [get, withRegisters, List.getD_append_right _ _ _ _ above]
    exact (List.getD_eq_getElem _ _ (by simpa [size] using inside)).trans (List.getElem_map _)
  · refine List.mem_append_right _ (List.mem_map.mpr ⟨(numbers[id - t.size], id), ?_, rfl⟩)
    exact List.mk_mem_zipIdx_iff_le_and_getElem?_sub.mpr ⟨above, List.getElem?_eq_getElem inside⟩

/-- The new variables are of their class. -/
theorem register_withRegisters {u : SymbolTable} {numbers : List Nat}
    (table : u = t.withRegisters cls numbers) :
    ∀ id ∈ List.range' t.size numbers.length, (u.get id).cls = cls ∧ (u.get id).kind = .var := by
  intro id mem
  obtain ⟨n, _, symbol, _⟩ := get_withRegisters mem
  rw [table, symbol]
  exact ⟨rfl, rfl⟩

/-- An id stands for what it stood for, or for a new variable. -/
theorem withRegisters_get (t : SymbolTable) (cls : ValueClass) (numbers : List Nat) (id : Nat) :
    (t.withRegisters cls numbers).get id = t.get id ∨
      ((t.withRegisters cls numbers).get id).cls = cls ∧
        ((t.withRegisters cls numbers).get id).kind = .var := by
  by_cases old : id < t.size
  · left
    exact get_of_prefix (List.prefix_append _ _) old
  · have above : t.size ≤ id := Nat.le_of_not_lt old
    by_cases new : id < t.size + numbers.length
    · exact .inr (register_withRegisters rfl id (List.mem_range'_1.mpr ⟨above, new⟩))
    · have past : (t.withRegisters cls numbers).size ≤ id := by
        rw [size_withRegisters]
        exact Nat.le_of_not_lt new
      left
      rw [get, get, List.getD_eq_default _ _ past, List.getD_eq_default _ _ above]

theorem temporary_eq :
    t.temporary supply cls =
      (t.withRegisters cls [supply.nextNumber cls t], ⟨supply.nextNumber cls t⟩, t.size) := rfl

theorem grows_temporary : Grows t (t.temporary supply cls).1 :=
  grows_pushNamed (supply.lookup_nextNumber cls t) (by simp) (by simp [Symbol.NameFits])

theorem Grows.lookup_none {u : SymbolTable} {name : String} (h : Grows t u)
    (fresh : u.lookup name = none) : t.lookup name = none := by
  cases found : t.lookup name with
  | none => rfl
  | some id => rw [h.lookup found] at fresh; cases fresh

theorem grows_temporaries (t : SymbolTable) (supply : NameSupply) (cls : ValueClass)
    (count : Nat) : Grows t (t.temporaries supply cls count).1 := by
  induction count generalizing t supply with
  | zero => exact .refl
  | succ count ih => exact grows_temporary.trans (ih _ _)

/-- The temporaries of a run stand at the end of the arena, under free names whose numbers
go up from the supply's last one. -/
theorem temporaries_eq (t : SymbolTable) (supply : NameSupply) (cls : ValueClass)
    (count : Nat) :
    ∃ numbers : List Nat, numbers.length = count ∧ numbers.Pairwise (· < ·) ∧
      (∀ n ∈ numbers, supply.last < n ∧ t.lookup (cls.virtualRegister n) = none) ∧
      (t.temporaries supply cls count).1 = t.withRegisters cls numbers ∧
      (t.temporaries supply cls count).2.2 = List.range' t.size count := by
  induction count generalizing t supply with
  | zero => exact ⟨[], rfl, .nil, by simp, by simp [temporaries, withRegisters], rfl⟩
  | succ count ih =>
      let first := supply.nextNumber cls t
      have above := supply.last_lt_nextNumber cls t
      have free := supply.lookup_nextNumber cls t
      obtain ⟨numbers, length, sorted, fresh, table, ids⟩ :=
        ih (t.withRegisters cls [first]) ⟨first⟩
      refine ⟨first :: numbers, by simp [length], ?_, ?_, ?_, ?_⟩
      · exact List.pairwise_cons.mpr ⟨fun n mem => (fresh n mem).1, sorted⟩
      · intro n mem
        rcases List.mem_cons.mp mem with rfl | mem
        · exact ⟨above, free⟩
        · have grown : Grows t (t.withRegisters cls [first]) := grows_temporary
          exact ⟨Nat.lt_trans above (fresh n mem).1, grown.lookup_none (fresh n mem).2⟩
      · simp only [temporaries, temporary_eq]
        rw [table, withRegisters_cons]
      · simp only [temporaries, temporary_eq]
        rw [ids, List.range'_succ]
        simp [withRegisters, size]

/-- Only its own name denotes a virtual register. -/
theorem Denotes.written {names : List String} {n : Nat} {id : SymbolId} (wf : t.WellFormed)
    (leads : t.lookup (cls.virtualRegister n) = some id) (h : Denotes t names id) :
    cls.virtualRegister n ∈ names := by
  have name := wf.name_of_lookup leads
  cases h with
  | named other mem leadsOther => exact (wf.name_of_lookup leadsOther).symm.trans name ▸ mem
  | register other index leadsOther =>
      have same := (wf.name_of_lookup leadsOther).symm.trans name
      exact absurd same (other.machineRegister_ne_virtualRegister cls index n)
  | nameless _ unled => exact absurd leads (unled _)

end SymbolTable
end OpSelect
