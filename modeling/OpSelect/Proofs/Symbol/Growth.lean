import OpSelect.Proofs.Symbol.WellFormed

/-!
What the operations of the symbol table add, and what they return. `truncate` takes back
any growth of a well-formed table. The last section says which names lead to a symbol.
-/

namespace OpSelect.SymbolTable

variable {t u : SymbolTable} {symbol : Symbol} {name text : String} {cls : ValueClass}
  {id : Nat}

theorem grows_pushNamed (fresh : t.lookup symbol.name = none) (value : symbol.kind ≠ .constant)
    (fits : symbol.NameFits) : Grows t (t.pushNamed symbol).1 :=
  .single (.named symbol (lookup_eq_none_iff.mp fresh) value fits)

theorem lookup_pushNamed (fresh : t.lookup symbol.name = none) :
    (t.pushNamed symbol).1.lookup symbol.name = some t.size := by
  have absent : t.names.find? (fun entry => entry.1 == symbol.name) = none := by
    simpa [lookup] using fresh
  simp [pushNamed_eq, lookup, List.find?_append, absent]

theorem get_pushNamed : (t.pushNamed symbol).1.get t.size = symbol := get_append_size _ _ _ _ _

theorem declare_ok (h : t.declare name cls = .ok (u, id)) :
    Grows t u ∧ u.lookup name = some id := by
  unfold declare at h
  split at h
  · cases h
  · rename_i free
    have fresh : t.lookup name = none := by simpa [isTaken] using free
    cases h
    exact ⟨grows_pushNamed fresh (by simp) (by simp [Symbol.NameFits]), lookup_pushNamed fresh⟩

/-- A mentioned name leads to the symbol, whether it was there or not. -/
theorem mention_ok (value : symbol.kind ≠ .constant) (fits : symbol.NameFits)
    (h : t.mention symbol = .ok (u, id)) :
    Grows t u ∧ u.lookup symbol.name = some id := by
  unfold mention at h
  cases found : t.lookup symbol.name with
  | some other =>
      rw [found] at h
      cases checked : t.expectValue other symbol.cls with
      | error e => simp [checked, Except.map] at h
      | ok =>
          simp only [checked, Except.map, Except.ok.injEq, Prod.mk.injEq] at h
          obtain ⟨rfl, rfl⟩ := h
          exact ⟨.refl, found⟩
  | none =>
      rw [found] at h
      cases h
      exact ⟨grows_pushNamed found value fits, lookup_pushNamed found⟩

theorem var_ok (h : t.var name cls = .ok (u, id)) :
    Grows t u ∧ u.lookup name = some id :=
  mention_ok (by simp) (by simp [Symbol.NameFits]) h

theorem machineRegister_ok {index : Nat} (h : t.machineRegister cls index = .ok (u, id)) :
    Grows t u ∧ u.lookup (cls.machineRegister index) = some id := by
  refine mention_ok (by simp) ?_ h
  rintro other ⟨⟩
  rfl

theorem address_cases (h : t.address name = .ok (u, id)) :
    u = t ∧ t.lookup name = some id ∧ (t.get id).kind = .address ∨
      t.lookup name = none ∧ (t.pushNamed ⟨name, .integer, .address⟩) = (u, id) := by
  unfold address at h
  cases found : t.lookup name with
  | some other =>
      rw [found] at h
      dsimp only at h
      split at h
      · rename_i kind
        cases h
        exact .inl ⟨rfl, rfl, kind⟩
      · cases h
  | none =>
      rw [found] at h
      exact .inr ⟨rfl, Except.ok.inj h⟩

theorem address_ok (h : t.address name = .ok (u, id)) :
    Grows t u ∧ u.lookup name = some id ∧ (u.get id).kind = .address := by
  rcases address_cases h with ⟨rfl, found, kind⟩ | ⟨fresh, pushed⟩
  · exact ⟨.refl, found, kind⟩
  · cases pushed
    exact ⟨grows_pushNamed fresh (by simp) (by simp [Symbol.NameFits]), lookup_pushNamed fresh,
      congrArg Symbol.kind get_pushNamed⟩

/-- An interned constant is the symbol of its text and class. If it is new, it is the only
thing added. -/
theorem constant_cases (t : SymbolTable) (text : String) (cls : ValueClass) :
    (∃ id, ((text, cls), id) ∈ t.constants ∧ t.constant text cls = (t, id)) ∨
      (∀ entry ∈ t.constants, entry.1 ≠ (text, cls)) ∧
        t.constant text cls =
          ({ t with symbols := t.symbols ++ [⟨text, cls, .constant⟩]
                    constants := t.constants ++ [((text, cls), t.size)] }, t.size) := by
  unfold constant
  cases found : t.constants.find? (·.1 == (text, cls)) with
  | some entry =>
      have same : entry.1 = (text, cls) := by simpa using List.find?_some found
      have mem := List.mem_of_find?_eq_some found
      rw [show entry = ((text, cls), entry.2) from Prod.ext same rfl] at mem
      exact .inl ⟨entry.2, mem, rfl⟩
  | none =>
      refine .inr ⟨?_, rfl⟩
      simpa using found

theorem grows_constant (t : SymbolTable) (text : String) (cls : ValueClass) :
    Grows t (t.constant text cls).1 := by
  rcases constant_cases t text cls with ⟨id, mem, eq⟩ | ⟨fresh, eq⟩
  · rw [eq]
  · rw [eq]
    exact .single (.constant text cls fresh)

theorem constant_ok (wf : t.WellFormed) (text : String) (cls : ValueClass) :
    (t.constant text cls).2 < (t.constant text cls).1.size ∧
      (t.constant text cls).1.get (t.constant text cls).2 = ⟨text, cls, .constant⟩ := by
  rcases constant_cases t text cls with ⟨id, mem, eq⟩ | ⟨fresh, eq⟩
  · rw [eq]
    exact wf.interned _ mem
  · rw [eq]
    refine ⟨?_, get_append_size _ _ _ _ _⟩
    rw [size_append]
    exact Nat.lt_succ_self _

theorem grows_collapse (chain : KeyChain) (t : SymbolTable) : Grows t (chain.collapse t).1 := by
  unfold KeyChain.collapse
  cases chain.rest with
  | nil => exact .refl
  | cons second others =>
      refine .single (.key _ ?_)
      split <;> simp [Symbol.MustBeNamed]

/-- A refused label leaves the table as it was: a new address cannot be defined already. -/
theorem placeLabel_cases (wf : t.WellFormed) (name : String) :
    (∃ e, t.placeLabel name = (t, .error e)) ∨
      ∃ u id, t.placeLabel name = (u, .ok id) ∧ Grows t u ∧ u.lookup name = some id ∧
        (u.get id).kind = .address := by
  unfold placeLabel
  cases found : t.address name with
  | error e => exact .inl ⟨e, rfl⟩
  | ok result =>
      obtain ⟨u, id⟩ := result
      obtain ⟨grown, leads, kind⟩ := address_ok found
      by_cases defined : id ∈ u.definedLabels
      · left
        rcases address_cases found with ⟨rfl, _, _⟩ | ⟨_, pushed⟩
        · exact ⟨.redefined name, by simp [isDefinedLabel, defined]⟩
        · cases pushed
          exact absurd (wf.labels _ defined).1 (Nat.lt_irrefl _)
      · right
        refine ⟨{ u with definedLabels := u.definedLabels ++ [id] }, id, ?_, ?_, leads, kind⟩
        · simp [isDefinedLabel, defined]
        · exact grown.tail (.label id ⟨(wf.grows grown).lt_of_lookup leads, kind⟩ defined)

theorem filter_below {α : Type} {old added : List (α × SymbolId)} {size : Nat}
    (below : ∀ entry ∈ old, entry.2 < size) (above : ∀ entry ∈ added, size ≤ entry.2) :
    (old ++ added).filter (·.2 < size) = old := by
  rw [List.filter_append]
  have kept : old.filter (·.2 < size) = old :=
    List.filter_eq_self.mpr fun entry mem => decide_eq_true (below entry mem)
  have dropped : added.filter (·.2 < size) = [] :=
    List.filter_eq_nil_iff.mpr fun entry mem => by simpa using above entry mem
  rw [kept, dropped, List.append_nil]

/-- Growth is undone as a whole. -/
theorem truncate_of_grows (wf : t.WellFormed) (h : Grows t u)
    (labels : ∃ added, u.definedLabels = t.definedLabels ++ added ∧ ∀ id ∈ added, t.size ≤ id) :
    u.truncate t.size = t := by
  have take : u.symbols.take t.size = t.symbols := by
    obtain ⟨added, eq⟩ := h.symbols
    rw [← eq]
    exact List.take_left
  obtain ⟨addedNames, names, newNames⟩ := h.names
  obtain ⟨addedConstants, constants, newConstants⟩ := h.constants
  obtain ⟨addedLabels, labels, newLabels⟩ := labels
  have named : u.names.filter (·.2 < t.size) = t.names := by
    rw [names]
    exact filter_below (fun entry mem => (wf.named entry mem).1) newNames
  have interned : u.constants.filter (·.2 < t.size) = t.constants := by
    rw [constants]
    exact filter_below (fun entry mem => (wf.interned entry mem).1) newConstants
  have defined : u.definedLabels.filter (· < t.size) = t.definedLabels := by
    rw [labels, List.filter_append]
    have kept : t.definedLabels.filter (· < t.size) = t.definedLabels :=
      List.filter_eq_self.mpr fun id mem => decide_eq_true (wf.labels id mem).1
    have dropped : addedLabels.filter (· < t.size) = [] :=
      List.filter_eq_nil_iff.mpr fun id mem => by simpa using newLabels id mem
    rw [kept, dropped, List.append_nil]
  rw [truncate, take, named, interned, defined]

section Denotation

variable {names : List String}

/-- How an operand can come to be a symbol. Constants and composite keys are nameless. -/
inductive Denotes (t : SymbolTable) (names : List String) (id : SymbolId) : Prop where
  | named (name : String) (mem : name ∈ names) (leads : t.lookup name = some id)
  | register (cls : ValueClass) (index : Nat)
      (leads : t.lookup (cls.machineRegister index) = some id)
  | nameless (valid : id < t.size) (unled : ∀ name, t.lookup name ≠ some id)

theorem Denotes.lt (wf : t.WellFormed) (h : Denotes t names id) : id < t.size := by
  cases h with
  | named _ _ leads | register _ _ leads => exact wf.lt_of_lookup leads
  | nameless valid => exact valid

theorem Denotes.mono {others : List String} (h : Denotes t names id) (sub : names ⊆ others) :
    Denotes t others id := by
  cases h with
  | named name mem leads => exact .named name (sub mem) leads
  | register cls index leads => exact .register cls index leads
  | nameless valid unled => exact .nameless valid unled

/-- New names lead to new symbols. -/
theorem Grows.lookup_old (h : Grows t u) (old : id < t.size) (leads : u.lookup name = some id) :
    t.lookup name = some id := by
  obtain ⟨added, eq, new⟩ := h.names
  cases found : t.lookup name with
  | some other =>
      rw [← leads]
      exact (h.lookup found).symm
  | none =>
      have mem := mem_of_lookup leads
      rw [eq] at mem
      cases List.mem_append.mp mem with
      | inl mem => exact absurd rfl (lookup_eq_none_iff.mp found _ mem)
      | inr mem => exact absurd old (Nat.not_lt_of_le (new _ mem))

theorem Denotes.grows (h : Denotes t names id) (grown : Grows t u) : Denotes u names id := by
  cases h with
  | named name mem leads => exact .named name mem (grown.lookup leads)
  | register cls index leads => exact .register cls index (grown.lookup leads)
  | nameless valid unled =>
      refine .nameless (Nat.lt_of_lt_of_le valid grown.size_le) ?_
      exact fun name leads => unled name (grown.lookup_old valid leads)

theorem denotes_constant (wf : t.WellFormed) (text : String) (cls : ValueClass) :
    Denotes (t.constant text cls).1 names (t.constant text cls).2 := by
  obtain ⟨valid, symbol⟩ := constant_ok wf text cls
  refine .nameless valid fun name leads => ?_
  have kind := ((wf.grows (grows_constant t text cls)).named _ (mem_of_lookup leads)).2.2
  rw [symbol] at kind
  exact kind rfl

theorem denotes_collapse (wf : t.WellFormed) (chain : KeyChain)
    (first : Denotes t names chain.first) :
    Denotes (chain.collapse t).1 names (chain.collapse t).2 := by
  unfold KeyChain.collapse
  cases chain.rest with
  | nil => exact first
  | cons second others =>
      refine .nameless ?_ fun name leads => ?_
      · rw [push_eq, size_append]
        exact Nat.lt_succ_self _
      · exact Nat.lt_irrefl _ (wf.lt_of_lookup (t := t) leads)

end Denotation

end OpSelect.SymbolTable
