import Mathlib.Data.List.GetD
import Mathlib.Data.List.Nodup
import Mathlib.Logic.Relation
import OpSelect.Symbol.Table

/-!
The representation invariant of the symbol table, and the steps by which it grows. Every
operation of the table is a sequence of such steps, so that what a step keeps is proved
once: the invariant, the symbols already there, and the entries that lead to them.
-/

namespace OpSelect

/-- Labels and machine registers can be reached by name only. -/
def Symbol.MustBeNamed (s : Symbol) : Prop :=
  s.kind = .address ∨ ∃ index, s.kind = .machineRegister index

/-- A machine register bears the name of its class and number. -/
def Symbol.NameFits (s : Symbol) : Prop :=
  ∀ index, s.kind = .machineRegister index → s.name = s.cls.machineRegister index

instance (s : Symbol) : Decidable s.MustBeNamed :=
  match kind : s.kind with
  | .address => isTrue (.inl kind)
  | .machineRegister index => isTrue (.inr ⟨index, kind⟩)
  | .var | .constant => isFalse (by simp [Symbol.MustBeNamed, kind])

instance (s : Symbol) : Decidable s.NameFits :=
  match kind : s.kind with
  | .machineRegister index =>
      decidable_of_iff (s.name = s.cls.machineRegister index)
        (by simp [Symbol.NameFits, kind])
  | .var | .constant | .address => isTrue (by simp [Symbol.NameFits, kind])

namespace SymbolTable

variable {t u v : SymbolTable} {symbol : Symbol} {name text : String} {cls : ValueClass}
  {id : Nat}

structure WellFormed (t : SymbolTable) : Prop where
  named : ∀ entry ∈ t.names, entry.2 < t.size ∧ (t.get entry.2).name = entry.1 ∧
    (t.get entry.2).kind ≠ .constant
  ordered : t.names.Pairwise (·.2 < ·.2)
  unique : (t.names.map Prod.fst).Nodup
  indexed : ∀ id < t.size, (t.get id).MustBeNamed → ((t.get id).name, id) ∈ t.names
  registers : ∀ id < t.size, (t.get id).NameFits
  interned : ∀ entry ∈ t.constants, entry.2 < t.size ∧
    t.get entry.2 = ⟨entry.1.1, entry.1.2, .constant⟩
  distinct : (t.constants.map Prod.fst).Nodup
  labels : ∀ id ∈ t.definedLabels, id < t.size ∧ (t.get id).kind = .address
  once : t.definedLabels.Nodup

instance (t : SymbolTable) : Decidable t.WellFormed :=
  decidable_of_iff
    ((∀ entry ∈ t.names, entry.2 < t.size ∧ (t.get entry.2).name = entry.1 ∧
        (t.get entry.2).kind ≠ .constant) ∧
      t.names.Pairwise (·.2 < ·.2) ∧ (t.names.map Prod.fst).Nodup ∧
      (∀ id < t.size, (t.get id).MustBeNamed → ((t.get id).name, id) ∈ t.names) ∧
      (∀ id < t.size, (t.get id).NameFits) ∧
      (∀ entry ∈ t.constants, entry.2 < t.size ∧
        t.get entry.2 = ⟨entry.1.1, entry.1.2, .constant⟩) ∧
      (t.constants.map Prod.fst).Nodup ∧
      (∀ id ∈ t.definedLabels, id < t.size ∧ (t.get id).kind = .address) ∧
      t.definedLabels.Nodup)
    ⟨fun ⟨named, ordered, unique, indexed, registers, interned, distinct, labels, once⟩ =>
        ⟨named, ordered, unique, indexed, registers, interned, distinct, labels, once⟩,
      fun h => ⟨h.named, h.ordered, h.unique, h.indexed, h.registers, h.interned, h.distinct,
        h.labels, h.once⟩⟩

theorem wellFormed_empty : ({} : SymbolTable).WellFormed := by
  constructor <;> simp [size]

/-- The table with a symbol added under its own name. -/
theorem pushNamed_eq (t : SymbolTable) (symbol : Symbol) :
    t.pushNamed symbol =
      ({ t with symbols := t.symbols ++ [symbol]
                names := t.names ++ [(symbol.name, t.size)] }, t.size) := rfl

theorem push_eq (t : SymbolTable) (symbol : Symbol) :
    t.push symbol = ({ t with symbols := t.symbols ++ [symbol] }, t.size) := rfl

/-- One entry more: a symbol without a name, a symbol under a free name, a constant that
is not interned yet, or the definition of a label. -/
inductive Adds (t : SymbolTable) : SymbolTable → Prop where
  | key (symbol : Symbol) (free : ¬ symbol.MustBeNamed) :
      Adds t { t with symbols := t.symbols ++ [symbol] }
  | named (symbol : Symbol) (fresh : ∀ entry ∈ t.names, entry.1 ≠ symbol.name)
      (value : symbol.kind ≠ .constant) (fits : symbol.NameFits) :
      Adds t { t with symbols := t.symbols ++ [symbol]
                      names := t.names ++ [(symbol.name, t.size)] }
  | constant (text : String) (cls : ValueClass)
      (fresh : ∀ entry ∈ t.constants, entry.1 ≠ (text, cls)) :
      Adds t { t with symbols := t.symbols ++ [⟨text, cls, .constant⟩]
                      constants := t.constants ++ [((text, cls), t.size)] }
  | label (id : SymbolId) (address : id < t.size ∧ (t.get id).kind = .address)
      (fresh : id ∉ t.definedLabels) :
      Adds t { t with definedLabels := t.definedLabels ++ [id] }

/-- Any number of entries more. -/
abbrev Grows : SymbolTable → SymbolTable → Prop := Relation.ReflTransGen Adds

theorem Adds.symbols (h : Adds t u) : t.symbols <+: u.symbols := by
  cases h with
  | key symbol | named symbol | constant text cls => exact List.prefix_append _ _
  | label => exact List.prefix_refl _

/-- New names lead to new symbols. -/
theorem Adds.names (h : Adds t u) :
    ∃ added, u.names = t.names ++ added ∧ ∀ entry ∈ added, t.size ≤ entry.2 := by
  cases h with
  | named symbol => exact ⟨[(symbol.name, t.size)], rfl, by simp⟩
  | key | constant | label => exact ⟨[], (List.append_nil _).symm, by simp⟩

theorem Adds.constants (h : Adds t u) :
    ∃ added, u.constants = t.constants ++ added ∧ ∀ entry ∈ added, t.size ≤ entry.2 := by
  cases h with
  | constant text cls => exact ⟨[((text, cls), t.size)], rfl, by simp⟩
  | key | named | label => exact ⟨[], (List.append_nil _).symm, by simp⟩

theorem Grows.symbols (h : Grows t u) : t.symbols <+: u.symbols := by
  induction h with
  | refl => exact List.prefix_refl _
  | tail _ step ih => exact ih.trans step.symbols

theorem Grows.size_le (h : Grows t u) : t.size ≤ u.size := h.symbols.length_le

/-- An index that every step extends by entries for new symbols is so extended by growth. -/
theorem Grows.entries {α : Type} (index : SymbolTable → List (α × SymbolId))
    (extended : ∀ {t u}, Adds t u →
      ∃ added, index u = index t ++ added ∧ ∀ entry ∈ added, t.size ≤ entry.2)
    (h : Grows t u) :
    ∃ added, index u = index t ++ added ∧ ∀ entry ∈ added, t.size ≤ entry.2 := by
  induction h with
  | refl => exact ⟨[], (List.append_nil _).symm, by simp⟩
  | tail before step ih =>
      obtain ⟨first, hf, old⟩ := ih
      obtain ⟨last, hl, new⟩ := extended step
      refine ⟨first ++ last, by rw [hl, hf, List.append_assoc], ?_⟩
      intro entry mem
      cases List.mem_append.mp mem with
      | inl mem => exact old entry mem
      | inr mem => exact Nat.le_trans (Grows.size_le before) (new entry mem)

theorem Grows.names (h : Grows t u) :
    ∃ added, u.names = t.names ++ added ∧ ∀ entry ∈ added, t.size ≤ entry.2 :=
  Grows.entries SymbolTable.names Adds.names h

theorem Grows.constants (h : Grows t u) :
    ∃ added, u.constants = t.constants ++ added ∧ ∀ entry ∈ added, t.size ≤ entry.2 :=
  Grows.entries SymbolTable.constants Adds.constants h

theorem get_of_prefix (h : t.symbols <+: u.symbols) (lt : id < t.size) : u.get id = t.get id := by
  obtain ⟨added, eq⟩ := h
  rw [get, ← eq]
  exact List.getD_append _ _ _ _ lt

theorem Grows.get (h : Grows t u) (lt : id < t.size) : u.get id = t.get id :=
  get_of_prefix h.symbols lt

theorem size_append (symbols : List Symbol) (names) (constants) (labels) (symbol : Symbol) :
    (⟨symbols ++ [symbol], names, constants, labels⟩ : SymbolTable).size =
      symbols.length + 1 := by
  simp [size]

theorem get_append_size (symbols : List Symbol) (names) (constants) (labels) (symbol : Symbol) :
    (⟨symbols ++ [symbol], names, constants, labels⟩ : SymbolTable).get symbols.length =
      symbol := by
  simp [SymbolTable.get]

theorem lookup_eq_none_iff : t.lookup name = none ↔ ∀ entry ∈ t.names, entry.1 ≠ name := by
  simp [lookup]

theorem mem_of_lookup (h : t.lookup name = some id) : (name, id) ∈ t.names := by
  obtain ⟨entry, found, rfl⟩ := Option.map_eq_some_iff.mp h
  have same : entry.1 = name := by simpa using List.find?_some found
  simpa [← same] using List.mem_of_find?_eq_some found

theorem lookup_append (added : List (String × SymbolId)) (h : t.lookup name = some id)
    (names : u.names = t.names ++ added) : u.lookup name = some id := by
  obtain ⟨entry, found, rfl⟩ := Option.map_eq_some_iff.mp h
  simp [lookup, names, List.find?_append, found]

/-- A name keeps leading to the same symbol. -/
theorem Grows.lookup (h : Grows t u) (found : t.lookup name = some id) :
    u.lookup name = some id := by
  obtain ⟨added, names, _⟩ := h.names
  exact lookup_append added found names

namespace WellFormed

theorem lt_of_lookup (wf : t.WellFormed) (h : t.lookup name = some id) : id < t.size :=
  (wf.named _ (mem_of_lookup h)).1

theorem name_of_lookup (wf : t.WellFormed) (h : t.lookup name = some id) :
    (t.get id).name = name :=
  (wf.named _ (mem_of_lookup h)).2.1

theorem lookup_of_mem (wf : t.WellFormed) (h : (name, id) ∈ t.names) :
    t.lookup name = some id := by
  cases found : t.lookup name with
  | none => exact absurd rfl (lookup_eq_none_iff.mp found _ h)
  | some other =>
      have distinct := List.inj_on_of_nodup_map wf.unique (mem_of_lookup found) h rfl
      exact congrArg some (Prod.mk.inj distinct).2

end WellFormed

theorem eq_length_of_append {symbols : List Symbol} {names} {constants} {labels}
    (lt : id < (⟨symbols ++ [symbol], names, constants, labels⟩ : SymbolTable).size)
    (old : ¬ id < symbols.length) : id = symbols.length := by
  rw [size_append] at lt
  omega

/-- What a step makes of the symbol at an index: an old one is kept, and a new one is
fit for its place. -/
theorem Adds.get_cases (h : Adds t u) (lt : id < u.size) :
    id < t.size ∧ u.get id = t.get id ∨
      id = t.size ∧ (u.get id).NameFits ∧
        ((u.get id).MustBeNamed → ((u.get id).name, id) ∈ u.names) := by
  by_cases old : id < t.size
  · exact .inl ⟨old, get_of_prefix h.symbols old⟩
  · right
    cases h with
    | key symbol free =>
        obtain rfl := eq_length_of_append lt old
        rw [get_append_size]
        refine ⟨rfl, ?_, fun must => absurd must free⟩
        exact fun index kind => absurd (.inr ⟨index, kind⟩) free
    | named symbol fresh value fits =>
        obtain rfl := eq_length_of_append lt old
        rw [get_append_size]
        exact ⟨rfl, fits, fun _ => List.mem_append_right _ (List.mem_singleton.mpr rfl)⟩
    | constant text cls fresh =>
        obtain rfl := eq_length_of_append lt old
        rw [get_append_size]
        exact ⟨rfl, by simp [Symbol.NameFits], by simp [Symbol.MustBeNamed]⟩
    | label => exact absurd lt old

theorem Adds.kept (h : Adds t u) (lt : id < t.size) : id < u.size ∧ u.get id = t.get id :=
  ⟨Nat.lt_of_lt_of_le lt h.symbols.length_le, get_of_prefix h.symbols lt⟩

theorem nodup_keys_append {α : Type} {entries : List (α × SymbolId)} {key : α}
    (distinct : (entries.map Prod.fst).Nodup) (fresh : ∀ entry ∈ entries, entry.1 ≠ key) :
    ((entries ++ [(key, id)]).map Prod.fst).Nodup := by
  rw [List.map_append]
  refine distinct.append (List.nodup_singleton _) ?_
  intro other mem last
  obtain ⟨entry, inside, rfl⟩ := List.mem_map.mp mem
  exact fresh entry inside (List.mem_singleton.mp last)

namespace WellFormed

/-- What the old entries lead to is kept by a step. -/
theorem entries_kept (wf : t.WellFormed) (h : Adds t u) :
    (∀ entry ∈ t.names, entry.2 < u.size ∧ (u.get entry.2).name = entry.1 ∧
      (u.get entry.2).kind ≠ .constant) ∧
    (∀ entry ∈ t.constants, entry.2 < u.size ∧
      u.get entry.2 = ⟨entry.1.1, entry.1.2, .constant⟩) ∧
    ∀ id ∈ t.definedLabels, id < u.size ∧ (u.get id).kind = .address := by
  refine ⟨?_, ?_, ?_⟩
  · intro entry mem
    obtain ⟨lt, name, kind⟩ := wf.named entry mem
    obtain ⟨lt', same⟩ := h.kept lt
    exact ⟨lt', same ▸ name, same ▸ kind⟩
  · intro entry mem
    obtain ⟨lt, symbol⟩ := wf.interned entry mem
    exact ⟨(h.kept lt).1, (h.kept lt).2.trans symbol⟩
  · intro id mem
    obtain ⟨lt, kind⟩ := wf.labels id mem
    exact ⟨(h.kept lt).1, (h.kept lt).2 ▸ kind⟩

theorem indexed_adds (wf : t.WellFormed) (h : Adds t u) (lt : id < u.size)
    (must : (u.get id).MustBeNamed) : ((u.get id).name, id) ∈ u.names := by
  rcases h.get_cases lt with ⟨old, same⟩ | ⟨_, _, new⟩
  · obtain ⟨added, names, _⟩ := h.names
    rw [names]
    rw [same] at must ⊢
    exact List.mem_append_left _ (wf.indexed id old must)
  · exact new must

theorem registers_adds (wf : t.WellFormed) (h : Adds t u) (lt : id < u.size) :
    (u.get id).NameFits := by
  rcases h.get_cases lt with ⟨old, same⟩ | ⟨_, fits, _⟩
  · exact same ▸ wf.registers id old
  · exact fits

theorem adds (wf : t.WellFormed) (h : Adds t u) : u.WellFormed := by
  obtain ⟨named, interned, labels⟩ := wf.entries_kept h
  have indexed : ∀ id < u.size, (u.get id).MustBeNamed → ((u.get id).name, id) ∈ u.names :=
    fun _ => wf.indexed_adds h
  have registers : ∀ id < u.size, (u.get id).NameFits := fun _ => wf.registers_adds h
  cases h with
  | key symbol free =>
      exact ⟨named, wf.ordered, wf.unique, indexed, registers, interned, wf.distinct, labels,
        wf.once⟩
  | named symbol fresh value fits =>
      refine ⟨?_, ?_, ?_, indexed, registers, interned, wf.distinct, labels, wf.once⟩
      · intro entry mem
        cases List.mem_append.mp mem with
        | inl mem => exact named entry mem
        | inr mem =>
            cases List.mem_singleton.mp mem
            rw [size_append, size, get_append_size]
            exact ⟨Nat.lt_succ_self _, rfl, value⟩
      · refine List.pairwise_append.mpr ⟨wf.ordered, List.pairwise_singleton _ _, ?_⟩
        intro entry mem last single
        cases List.mem_singleton.mp single
        exact (wf.named entry mem).1
      · exact nodup_keys_append wf.unique fresh
  | constant text cls fresh =>
      refine ⟨named, wf.ordered, wf.unique, indexed, registers, ?_, ?_, labels, wf.once⟩
      · intro entry mem
        cases List.mem_append.mp mem with
        | inl mem => exact interned entry mem
        | inr mem =>
            cases List.mem_singleton.mp mem
            rw [size_append, size, get_append_size]
            exact ⟨Nat.lt_succ_self _, rfl⟩
      · exact nodup_keys_append wf.distinct fresh
  | label id address fresh =>
      refine ⟨named, wf.ordered, wf.unique, indexed, registers, interned, wf.distinct, ?_, ?_⟩
      · intro other mem
        cases List.mem_append.mp mem with
        | inl mem => exact labels other mem
        | inr mem =>
            cases List.mem_singleton.mp mem
            exact address
      · refine wf.once.append (List.nodup_singleton _) ?_
        intro other mem last
        cases List.mem_singleton.mp last
        exact fresh mem

theorem grows (wf : t.WellFormed) (h : Grows t u) : u.WellFormed := by
  induction h with
  | refl => exact wf
  | tail _ step ih => exact ih.adds step

end WellFormed

end SymbolTable
end OpSelect
