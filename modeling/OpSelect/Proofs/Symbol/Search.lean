import Mathlib.Logic.Function.Iterate
import Mathlib.Order.Bounds.Basic
import OpSelect.Proofs.Symbol.History

/-!
The search for the name of a temporary, probe by probe. The loop has no bound of its own. It ends
because a table cannot hold the names of all numbers, and it ends at the least free one, which is
the number that a supply goes on to. Several supplies may serve one table, and other calls may add
names in between. No call removes a name, so a supply returns none that the table has had before,
and its counter only goes up, so it returns none for a second time.
-/

namespace OpSelect

namespace SymbolTable

/-- The numbers above a counter whose register name is free. -/
def freeAbove (t : SymbolTable) (cls : ValueClass) (counter : Nat) : Set Nat :=
  {n | counter < n ∧ t.isTaken (cls.virtualRegister n) = false}

variable {t u : SymbolTable} {name : String}

theorem isTaken_of_names (h : t.names <+: u.names) (taken : t.isTaken name = true) :
    u.isTaken name = true := by
  obtain ⟨added, names⟩ := h
  obtain ⟨id, found⟩ := Option.isSome_iff_exists.mp taken
  exact Option.isSome_iff_exists.mpr ⟨id, lookup_append added found names.symm⟩

theorem Grows.names_kept (h : Grows t u) : t.names <+: u.names := by
  obtain ⟨added, names, _⟩ := h.names
  exact ⟨added, names.symm⟩

theorem names_placeLabel (t : SymbolTable) (name : String) :
    t.names <+: (t.placeLabel name).1.names := by
  unfold placeLabel
  cases found : t.address name with
  | error e => exact List.prefix_refl _
  | ok answer =>
      have grown := (address_ok found).1.names_kept
      dsimp only
      split
      · exact grown
      · exact grown

end SymbolTable

theorem TableCall.names_perform (t : SymbolTable) (call : TableCall) :
    t.names <+: (call.perform t).names := by
  by_cases labels : ∃ name, call = .defineLabel name
  · obtain ⟨name, rfl⟩ := labels
    exact t.names_placeLabel name
  · exact (grows_perform_unlabelled (not_exists.mp labels)).names_kept

namespace NameSupply

variable (supply : NameSupply) (cls : ValueClass) (t : SymbolTable)

theorem nextNumber_isLeast :
    IsLeast (t.freeAbove cls supply.last) (supply.nextNumber cls t) := by
  obtain ⟨free, _, taken⟩ := List.find?_range'_eq_some.mp (supply.find_nextNumber cls t)
  refine ⟨⟨supply.last_lt_nextNumber cls t, by simpa using free⟩, ?_⟩
  rintro n ⟨above, free⟩
  by_contra less
  have passed := taken n above (Nat.lt_of_not_le less)
  rw [free] at passed
  cases passed

end NameSupply

/-- A search under way: the numbers up to the counter are passed over, or a free one is found, or
the counter, which has 32 bits, has overflowed. -/
inductive Search where
  | passed (counter : Nat)
  | found (number : Nat)
  | overflow
deriving DecidableEq, Repr

namespace Search

/-- One round of the loop: it counts up and probes the name of the new number. -/
def probe (t : SymbolTable) (cls : ValueClass) : Search → Search
  | passed counter =>
      if counter + 1 = UInt32.size then overflow
      else if t.isTaken (cls.virtualRegister (counter + 1)) then passed (counter + 1)
      else found (counter + 1)
  | found number => found number
  | overflow => overflow

/-- From a counter on, the search finds the number with its last probe and passes over all that
it probes before. -/
structure Stops (t : SymbolTable) (cls : ValueClass) (counter probes number : Nat) : Prop where
  passes : ∀ k < probes, (probe t cls)^[k] (passed counter) = passed (counter + k)
  finds : (probe t cls)^[probes] (passed counter) = found number

variable {t : SymbolTable} {cls : ValueClass} {counter number : Nat}

theorem probe_taken (room : counter + 1 < UInt32.size)
    (taken : t.isTaken (cls.virtualRegister (counter + 1)) = true) :
    probe t cls (passed counter) = passed (counter + 1) := by
  rw [probe, if_neg (Nat.ne_of_lt room), if_pos taken]

theorem probe_free (room : counter + 1 < UInt32.size)
    (free : t.isTaken (cls.virtualRegister (counter + 1)) = false) :
    probe t cls (passed counter) = found (counter + 1) := by
  rw [probe, if_neg (Nat.ne_of_lt room), free]
  rfl

/-- The search goes on as long as the names are taken, by induction on the probes. -/
theorem iterate_probe_taken {count : Nat} (room : counter + count < UInt32.size)
    (taken : ∀ n, counter < n → n ≤ counter + count → t.isTaken (cls.virtualRegister n) = true) :
    (probe t cls)^[count] (passed counter) = passed (counter + count) := by
  induction count with
  | zero => rfl
  | succ count ih =>
      have before := ih (by omega) fun n above below => taken n above (by omega)
      rw [Function.iterate_succ_apply', before]
      exact probe_taken room (taken _ (by omega) (Nat.le_refl _))

/-- The loop ends at the least free number, if the counter gets there. -/
theorem stops_of_isLeast (least : IsLeast (t.freeAbove cls counter) number)
    (room : number < UInt32.size) : Stops t cls counter (number - counter) number := by
  obtain ⟨⟨above, free⟩, lower⟩ := least
  have passes : ∀ k < number - counter,
      (probe t cls)^[k] (passed counter) = passed (counter + k) := by
    intro k less
    refine iterate_probe_taken (by omega) fun n above below => ?_
    by_contra untaken
    have beyond : number ≤ n := lower ⟨above, Bool.eq_false_of_not_eq_true untaken⟩
    omega
  refine ⟨passes, ?_⟩
  obtain ⟨count, rfl⟩ : ∃ count, number = counter + count + 1 := ⟨number - counter - 1, by omega⟩
  have last : counter + count + 1 - counter = count + 1 := by omega
  rw [last] at passes ⊢
  rw [Function.iterate_succ_apply', passes count (Nat.lt_succ_self _)]
  exact probe_free room free

end Search

/-- A table, the supplies that name temporaries for it, and the names that each has returned. -/
structure SharedTable (ι : Type) where
  table : SymbolTable
  supply : ι → NameSupply
  returned : List (ι × String) := []

namespace SharedTable

/-- What can happen to a shared table. A name that is drawn is the caller's to insert or not, and
that of a temporary is inserted at once. -/
inductive Step (ι : Type) where
  | draw (who : ι) (cls : ValueClass)
  | temporary (who : ι) (cls : ValueClass)
  | call (call : TableCall)
deriving DecidableEq, Repr

variable {ι : Type} [DecidableEq ι]

/-- The supply has returned the name. -/
def record (σ : SharedTable ι) (who : ι) (supply : NameSupply) (name : String) : SharedTable ι :=
  { σ with
    supply := Function.update σ.supply who supply
    returned := σ.returned ++ [(who, name)] }

theorem supply_record_self (σ : SharedTable ι) (who : ι) (supply : NameSupply) (name : String) :
    (σ.record who supply name).supply who = supply := Function.update_self _ _ _

theorem supply_record_of_ne (σ : SharedTable ι) {who other : ι} (different : other ≠ who)
    (supply : NameSupply) (name : String) :
    (σ.record who supply name).supply other = σ.supply other :=
  Function.update_of_ne different _ _

def perform (σ : SharedTable ι) : Step ι → SharedTable ι
  | .draw who cls =>
      let (supply, name) := (σ.supply who).next cls σ.table
      σ.record who supply name
  | .temporary who cls =>
      let (table, supply, id) := σ.table.temporary (σ.supply who) cls
      { σ.record who supply (table.get id).name with table }
  | .call call => { σ with table := call.perform σ.table }

def run (σ : SharedTable ι) (steps : List (Step ι)) : SharedTable ι := steps.foldl perform σ

theorem run_append (σ : SharedTable ι) (earlier later : List (Step ι)) :
    σ.run (earlier ++ later) = (σ.run earlier).run later := List.foldl_append

variable {σ : SharedTable ι}

theorem perform_draw (who : ι) (cls : ValueClass) :
    σ.perform (.draw who cls) =
      σ.record who ⟨(σ.supply who).nextNumber cls σ.table⟩
        (cls.virtualRegister ((σ.supply who).nextNumber cls σ.table)) := rfl

/-- A temporary is a name drawn and inserted. -/
theorem perform_temporary (who : ι) (cls : ValueClass) :
    σ.perform (.temporary who cls) =
      { σ.perform (.draw who cls) with
        table := (σ.table.temporary (σ.supply who) cls).1 } := by
  have name : ((σ.table.temporary (σ.supply who) cls).1.get
      (σ.table.temporary (σ.supply who) cls).2.2).name =
        cls.virtualRegister ((σ.supply who).nextNumber cls σ.table) :=
    congrArg Symbol.name SymbolTable.get_pushNamed
  simp only [perform, name]
  rfl

theorem names_perform (step : Step ι) : σ.table.names <+: (σ.perform step).table.names := by
  cases step with
  | draw who cls => exact List.prefix_refl _
  | temporary who cls =>
      rw [perform_temporary]
      exact SymbolTable.grows_temporary.names_kept
  | call call => exact call.names_perform σ.table

/-- Names are kept by a step and so, by induction, by any number of steps. -/
theorem names_run (σ : SharedTable ι) (steps : List (Step ι)) :
    σ.table.names <+: (σ.run steps).table.names := by
  induction steps generalizing σ with
  | nil => exact List.prefix_refl _
  | cons step steps ih => exact (names_perform step).trans (ih _)

/-- The names that a supply has returned have numbers that it has counted to. -/
def Counted (σ : SharedTable ι) : Prop :=
  ∀ entry ∈ σ.returned, ∃ cls n, entry.2 = ValueClass.virtualRegister cls n ∧
    n ≤ (σ.supply entry.1).last

theorem counted_draw (h : σ.Counted) (who : ι) (cls : ValueClass) :
    (σ.perform (.draw who cls)).Counted := by
  rw [perform_draw]
  have above := (σ.supply who).last_lt_nextNumber cls σ.table
  intro entry mem
  cases List.mem_append.mp mem with
  | inl old =>
      obtain ⟨other, n, name, le⟩ := h entry old
      refine ⟨other, n, name, ?_⟩
      by_cases same : entry.1 = who
      · rw [same] at le
        rw [same, supply_record_self]
        exact Nat.le_of_lt (Nat.lt_of_le_of_lt le above)
      · rw [supply_record_of_ne σ same]
        exact le
  | inr new =>
      rw [List.mem_singleton.mp new, supply_record_self]
      exact ⟨cls, _, rfl, Nat.le_refl _⟩

theorem counted_perform (h : σ.Counted) (step : Step ι) : (σ.perform step).Counted := by
  cases step with
  | draw who cls => exact counted_draw h who cls
  | temporary who cls =>
      rw [perform_temporary]
      exact counted_draw h who cls
  | call call => exact h

theorem counted_run (h : σ.Counted) (steps : List (Step ι)) : (σ.run steps).Counted := by
  induction steps generalizing σ with
  | nil => exact h
  | cons step steps ih => exact ih (counted_perform h step)

/-- Whatever was done to a shared table, the next name that a supply returns is the one of the
least free number above its counter, which it counts to. The search for it stops after at most one
probe more than the table has names. The table has had this name at no time, so that none that was
returned by any supply and inserted comes again. Nor has the supply itself returned it before,
inserted or not. -/
theorem next_least_and_new (t : SymbolTable) (supplies : ι → NameSupply) (steps : List (Step ι))
    (who : ι) (cls : ValueClass) (reached : run ⟨t, supplies, []⟩ steps = σ)
    (room : (σ.supply who).last + σ.table.names.length + 1 < UInt32.size) :
    ∃ n, (σ.supply who).next cls σ.table = (⟨n⟩, cls.virtualRegister n) ∧
      IsLeast (σ.table.freeAbove cls (σ.supply who).last) n ∧
      (∃ probes ≤ σ.table.names.length + 1,
        Search.Stops σ.table cls (σ.supply who).last probes n) ∧
      (∀ earlier, earlier <+: steps → ∀ name,
        (run ⟨t, supplies, []⟩ earlier).table.isTaken name = true → name ≠ cls.virtualRegister n) ∧
      ∀ name, (who, name) ∈ σ.returned → name ≠ cls.virtualRegister n := by
  have least := (σ.supply who).nextNumber_isLeast cls σ.table
  -- the candidates bound the number, and through it the probes of a loop that knows no candidates
  have bound := ((σ.supply who).nextNumber_bounds cls σ.table).2
  refine ⟨_, rfl, least, ⟨_, ?_, Search.stops_of_isLeast least ?_⟩, ?_, ?_⟩
  · omega
  · omega
  · rintro earlier ⟨later, rfl⟩ name taken rfl
    have kept := names_run (run ⟨t, supplies, []⟩ earlier) later
    rw [← run_append, reached] at kept
    have still := SymbolTable.isTaken_of_names kept taken
    rw [least.1.2] at still
    cases still
  · rintro name mem rfl
    have start : Counted ⟨t, supplies, []⟩ := fun _ mem => absurd mem List.not_mem_nil
    have counted : σ.Counted := reached ▸ counted_run start steps
    obtain ⟨other, m, same, le⟩ := counted _ mem
    rw [← ValueClass.number_of_virtualRegister same] at le
    exact Nat.not_le_of_lt least.1.1 le

/-- Two registers that are written before any temporary is made. -/
def writtenRegisters : SymbolTable :=
  TableStep.run [.call (.var "$P1" .aggregate), .call (.var "$P2" .aggregate)]

/-- The second supply inserts a name that the first has only returned. The third is not used. -/
def threeSupplies : List (Step (Fin 3)) :=
  [.draw 0 .aggregate, .temporary 1 .aggregate, .call (.declare "$P4" .aggregate),
    .temporary 0 .integer]

/-- Two supplies have returned the third register. The last one passes over it, and over the three
other registers that are in the table. -/
theorem next_least_and_new_threeSupplies :
    let σ := run ⟨writtenRegisters, fun _ => {}, []⟩ threeSupplies
    σ.returned = [(0, "$P3"), (1, "$P3"), (0, "$I4")] ∧
      (σ.supply 2).last = 0 ∧ σ.table.names.length = 5 ∧
      ∃ n, (σ.supply 2).next .aggregate σ.table = (⟨n⟩, ValueClass.aggregate.virtualRegister n) ∧
        IsLeast (σ.table.freeAbove .aggregate 0) n ∧
        (∃ probes ≤ 6, Search.Stops σ.table .aggregate 0 probes n) ∧
        "$P3" ≠ ValueClass.aggregate.virtualRegister n := by
  intro σ
  have returned : σ.returned = [(0, "$P3"), (1, "$P3"), (0, "$I4")] := by decide +kernel
  have last : (σ.supply 2).last = 0 := by decide +kernel
  have names : σ.table.names.length = 5 := by decide +kernel
  have inserted : (run ⟨writtenRegisters, fun _ => {}, []⟩
      (threeSupplies.take 2)).table.isTaken "$P3" = true := by decide +kernel
  have reached : run ⟨writtenRegisters, fun _ => {}, []⟩ threeSupplies = σ := rfl
  have room : (σ.supply 2).last + σ.table.names.length + 1 < UInt32.size := by
    rw [last, names]
    decide
  obtain ⟨n, next, least, stops, new, _⟩ :=
    next_least_and_new writtenRegisters (fun _ => {}) threeSupplies 2 .aggregate reached room
  rw [last] at least stops
  rw [names] at stops
  exact ⟨returned, last, names, n, next, least, stops,
    new _ (List.take_prefix 2 threeSupplies) _ inserted⟩

end SharedTable
end OpSelect
