import Mathlib.Data.List.Nodup
import OpSelect.Proofs.Catalog.Naming

/-!
Catalogs after any extensions, accepted or refused. Every operation stands at the place that is its
opcode and is found under its own name, which no other operation has. An extension leaves in place
what the catalog has. It is taken as a whole if its tags are valid and all names are new and
different; if not, it leaves behind what stands before its first bad item.
-/

namespace OpSelect

/-- The entry's name is its mnemonic with a valid tag for each of its operands. -/
def OpEntry.Tagged (entry : OpEntry) : Prop :=
  ∃ tags : List String, (∀ tag ∈ tags, tag ∈ validTags) ∧
    tags.length = entry.directions.length ∧
    entry.fullName = OpSelect.fullName entry.mnemonic tags

def OpSpec.ValidTags (op : OpSpec) : Prop := ∀ arg ∈ op.args, arg.1 ∈ validTags

theorem OpSpec.tagged_entry {op : OpSpec} (valid : op.ValidTags) (opcode : Nat) :
    (op.entry opcode).Tagged := by
  refine ⟨op.args.map Prod.fst, fun tag mem => ?_, by simp [OpSpec.entry], rfl⟩
  obtain ⟨arg, isArg, rfl⟩ := List.mem_map.mp mem
  exact valid arg isArg

/-- What is wrong with an operation where these names are taken: its first unknown tag, or else
its name. -/
inductive OpSpec.Mistake (op : OpSpec) (taken : List String) : CatalogError → Prop where
  | tag {known others : List (String × Direction)} {tag : String} {direction : Direction}
      (split : op.args = known ++ (tag, direction) :: others)
      (valid : ∀ arg ∈ known, arg.1 ∈ validTags) (unknown : tag ∉ validTags) :
      op.Mistake taken (.invalidTag op.mnemonic tag)
  | name (valid : op.ValidTags) (mem : op.name ∈ taken) :
      op.Mistake taken (.duplicateOp op.name)

namespace Catalog

variable {c : Catalog} {ops before : List OpSpec} {types earlier : List (String × Int)}

def names (c : Catalog) : List String := c.entries.map OpEntry.fullName

def typeNames (c : Catalog) : List String := c.types.map Prod.fst

/-- What holds of every catalog, however it came about. -/
structure WellFormed (c : Catalog) : Prop where
  numbered : ∀ (place : Nat) (entry : OpEntry), c.entries[place]? = some entry →
    entry.opcode = place
  tagged : ∀ entry ∈ c.entries, entry.Tagged
  names : c.names.Nodup
  typeNames : c.typeNames.Nodup

theorem lookup_isSome_iff {name : String} : (c.lookup name).isSome ↔ name ∈ c.names := by
  simp [lookup, names]

theorem typeId_isSome_iff {name : String} : (c.typeId name).isSome ↔ name ∈ c.typeNames := by
  simp [typeId, typeNames]

/-- An operation is found under its own name. -/
theorem WellFormed.lookup_fullName (h : c.WellFormed) {entry : OpEntry} (mem : entry ∈ c.entries) :
    c.lookup entry.fullName = some entry := by
  obtain ⟨front, back, split⟩ := List.append_of_mem mem
  have different := h.names
  rw [Catalog.names, split, List.map_append, List.map_cons, List.nodup_append] at different
  rw [lookup, List.find?_eq_some_iff_append]
  refine ⟨beq_self_eq_true _, front, back, split, fun other found => ?_⟩
  have unlike := different.2.2 _ (List.mem_map_of_mem found) _ List.mem_cons_self
  simpa using unlike

/-- The catalog with these operations and types behind those it has. -/
def adding (c : Catalog) (ops : List OpSpec) (types : List (String × Int)) : Catalog where
  entries := c.entries ++ (ops.zipIdx c.entries.length).map fun (op, opcode) => op.entry opcode
  types := c.types ++ types

/-- The operations can be added in this order. -/
structure OpsFit (c : Catalog) (ops : List OpSpec) : Prop where
  tags : ∀ op ∈ ops, op.ValidTags
  names : (c.names ++ ops.map OpSpec.name).Nodup

/-- The types can be added in this order. -/
def TypesFit (c : Catalog) (types : List (String × Int)) : Prop :=
  (c.typeNames ++ types.map Prod.fst).Nodup

section Adding

@[simp] theorem adding_nil (c : Catalog) : c.adding [] [] = c := by simp [adding]

@[simp] theorem names_adding (c : Catalog) (ops : List OpSpec) (types : List (String × Int)) :
    (c.adding ops types).names = c.names ++ ops.map OpSpec.name := by
  have named :
      (ops.zipIdx c.entries.length).map (OpSpec.name ∘ Prod.fst) = ops.map OpSpec.name := by
    rw [← List.map_map, List.zipIdx_map_fst]
  rw [names, adding, List.map_append, List.map_map]
  exact congrArg _ named

@[simp] theorem typeNames_adding (c : Catalog) (ops : List OpSpec) (types : List (String × Int)) :
    (c.adding ops types).typeNames = c.typeNames ++ types.map Prod.fst := by
  simp [typeNames, adding]

theorem insert_adding (op : OpSpec) :
    (c.adding before types).insert op = c.adding (before ++ [op]) types := by
  simp [insert, adding, OpSpec.entry, List.zipIdx_append]

theorem foldl_insert_eq (ops : List OpSpec) (c : Catalog) :
    ops.foldl insert c = c.adding ops [] := by
  induction ops using List.reverseRecOn with
  | nil => exact (adding_nil c).symm
  | append_singleton ops op ih => rw [List.foldl_append, ih, List.foldl_cons, insert_adding]; rfl

/-- What can be added keeps a catalog well-formed. -/
theorem WellFormed.adding (h : c.WellFormed) (fit : c.OpsFit ops) (typesFit : c.TypesFit types) :
    (c.adding ops types).WellFormed where
  numbered place entry found := by
    rw [Catalog.adding, List.getElem?_append] at found
    split at found
    · exact h.numbered place entry found
    · rw [List.getElem?_map, List.getElem?_zipIdx, Option.map_map] at found
      obtain ⟨op, _, rfl⟩ := Option.map_eq_some_iff.mp found
      change c.entries.length + (place - c.entries.length) = place
      omega
  tagged entry mem := by
    cases List.mem_append.mp mem with
    | inl old => exact h.tagged entry old
    | inr new =>
        obtain ⟨⟨op, opcode⟩, place, rfl⟩ := List.mem_map.mp new
        exact OpSpec.tagged_entry (fit.tags op (List.fst_mem_of_mem_zipIdx place)) opcode
  names := by simpa using fit.names
  typeNames := by simpa [TypesFit] using typesFit

end Adding

section Steps

/-- An operation is added at the end, or refused for a mistake. -/
theorem addOp_cases (c : Catalog) (op : OpSpec) :
    c.addOp op = .ok (c.insert op) ∧ op.ValidTags ∧ op.name ∉ c.names ∨
      ∃ e, c.addOp op = .error e ∧ op.Mistake c.names e := by
  unfold addOp
  split
  · rename_i tag direction found
    obtain ⟨unknown, known, others, split, valid⟩ := List.find?_eq_some_iff_append.mp found
    refine .inr ⟨_, rfl, .tag split (fun arg mem => ?_) ?_⟩
    · simpa [isValidTag] using valid arg mem
    · simpa [isValidTag] using unknown
  · rename_i none
    have valid : op.ValidTags := by simpa [isValidTag, OpSpec.ValidTags] using none
    split
    · rename_i taken
      exact .inr ⟨_, rfl, .name valid (lookup_isSome_iff.mp taken)⟩
    · rename_i free
      exact .inl ⟨rfl, valid, fun taken => free (lookup_isSome_iff.mpr taken)⟩

/-- One more operation behind those that fit. -/
theorem addOp_adding (fit : c.OpsFit before) (op : OpSpec) :
    (c.adding before []).addOp op = .ok (c.adding (before ++ [op]) []) ∧
        c.OpsFit (before ++ [op]) ∨
      ∃ e, (c.adding before []).addOp op = .error e ∧
        op.Mistake (c.names ++ before.map OpSpec.name) e := by
  rw [← insert_adding, ← names_adding c before []]
  refine (addOp_cases (c.adding before []) op).imp_left fun ⟨added, valid, free⟩ => ?_
  rw [names_adding] at free
  refine ⟨added, ?_, ?_⟩
  · intro other mem
    cases List.mem_append.mp mem with
    | inl old => exact fit.tags other old
    | inr new => exact List.mem_singleton.mp new ▸ valid
  · rw [List.map_append, ← List.append_assoc]
    exact List.concat_eq_append ▸ fit.names.concat free

/-- One more type behind those that fit. -/
theorem addType_adding (ops : List OpSpec) (fit : c.TypesFit earlier) (type : String × Int) :
    (c.adding ops earlier).addType type = .ok (c.adding ops (earlier ++ [type])) ∧
        c.TypesFit (earlier ++ [type]) ∨
      ∃ e, (c.adding ops earlier).addType type = .error e ∧
        type.1 ∈ c.typeNames ++ earlier.map Prod.fst ∧ e = .duplicateType type.1 := by
  rw [← typeNames_adding c ops earlier]
  unfold addType
  split
  · rename_i taken
    exact .inr ⟨_, rfl, typeId_isSome_iff.mp taken, rfl⟩
  · rename_i free
    rw [typeId_isSome_iff, typeNames_adding] at free
    refine .inl ⟨by simp [adding], ?_⟩
    rw [TypesFit, List.map_append, ← List.append_assoc]
    exact List.concat_eq_append ▸ List.Nodup.concat free fit

/-- Adding items one by one goes on to the end or to the first that is refused. `result` is the
catalog with items added that fit, and `mistake` what is wrong with an item behind those. -/
theorem addEach_cases {α : Type} {add : Catalog → α → Except CatalogError Catalog}
    {fit : List α → Prop} {result : List α → Catalog}
    {mistake : List α → α → CatalogError → Prop}
    (step : ∀ {front}, fit front → ∀ item,
      add (result front) item = .ok (result (front ++ [item])) ∧ fit (front ++ [item]) ∨
        ∃ e, add (result front) item = .error e ∧ mistake front item e)
    {front : List α} (start : fit front) (items : List α) :
    fit (front ++ items) ∧ addEach add (result front) items = (result (front ++ items), .ok ()) ∨
      ∃ more item rest e, items = more ++ item :: rest ∧ fit (front ++ more) ∧
        mistake (front ++ more) item e ∧
        addEach add (result front) items = (result (front ++ more), .error e) := by
  induction items generalizing front with
  | nil => exact .inl ⟨by simpa using start, by simp [addEach]⟩
  | cons item items ih =>
      rcases step start item with ⟨added, next⟩ | ⟨e, refused, bad⟩
      · rw [addEach, added]
        rcases ih next with ⟨all, done⟩ | ⟨more, other, rest, e, split, some, bad, stopped⟩
        · exact .inl (by simpa using And.intro all done)
        · refine .inr ⟨item :: more, other, rest, e, by rw [split]; rfl, ?_⟩
          simpa using And.intro some (And.intro bad stopped)
      · refine .inr ⟨[], item, items, e, rfl, ?_⟩
        simpa [addEach, refused] using And.intro start bad

end Steps

/-- How an extension ends: all of it is added, or what stands before its first bad item. -/
inductive Outcome (c : Catalog) (extension : Extension) :
    Catalog × Except CatalogError Unit → Prop where
  | accepted (ops : c.OpsFit extension.ops) (types : c.TypesFit extension.types) :
      c.Outcome extension (c.adding extension.ops extension.types, .ok ())
  | badOp {before after : List OpSpec} {op : OpSpec} {e : CatalogError}
      (split : extension.ops = before ++ op :: after) (fit : c.OpsFit before)
      (bad : op.Mistake (c.names ++ before.map OpSpec.name) e) :
      c.Outcome extension (c.adding before [], .error e)
  | badType {before after : List (String × Int)} {type : String × Int}
      (ops : c.OpsFit extension.ops) (split : extension.types = before ++ type :: after)
      (fit : c.TypesFit before) (taken : type.1 ∈ c.typeNames ++ before.map Prod.fst) :
      c.Outcome extension (c.adding extension.ops before, .error (.duplicateType type.1))

theorem WellFormed.opsFit_nil (h : c.WellFormed) : c.OpsFit [] :=
  ⟨nofun, by simpa using h.names⟩

theorem WellFormed.typesFit_nil (h : c.WellFormed) : c.TypesFit [] := by
  simpa [TypesFit] using h.typeNames

theorem extend_outcome (h : c.WellFormed) (extension : Extension) :
    c.Outcome extension (c.extend extension) := by
  have opsDone := addEach_cases addOp_adding h.opsFit_nil extension.ops
  rw [adding_nil] at opsDone
  unfold extend
  rcases opsDone with ⟨ops, added⟩ | ⟨before, op, after, e, split, fit, bad, stopped⟩
  · have typesDone := addEach_cases (addType_adding extension.ops) h.typesFit_nil extension.types
    rw [added, List.nil_append]
    dsimp only
    rcases typesDone with ⟨types, added⟩ | ⟨before, type, after, e, split, fit, bad, stopped⟩
    · rw [added]
      exact .accepted ops types
    · obtain ⟨taken, rfl⟩ := bad
      rw [stopped]
      exact .badType ops split fit taken
  · rw [stopped]
    exact .badOp split fit bad

theorem Outcome.wellFormed {extension : Extension} {result : Catalog × Except CatalogError Unit}
    (outcome : c.Outcome extension result) (h : c.WellFormed) : result.1.WellFormed := by
  cases outcome with
  | accepted ops types => exact h.adding ops types
  | badOp _ fit _ => exact h.adding fit h.typesFit_nil
  | badType ops _ fit _ => exact h.adding ops fit

end Catalog

namespace BuiltIn

/-- The operations of one mnemonic differ in their tags. -/
theorem forms_nodup : ∀ mnemonic ∈ (ops.map OpSpec.mnemonic).eraseDups,
    ((ops.filter (·.mnemonic == mnemonic)).map fun op => op.args.map Prod.fst).Nodup := by
  decide +kernel

theorem names_nodup : (ops.map OpSpec.name).Nodup := by
  rw [List.Nodup, List.pairwise_map, List.pairwise_iff_forall_sublist]
  intro op op' both same
  have mem : op ∈ ops := both.subset (by simp)
  have mem' : op' ∈ ops := both.subset (by simp)
  obtain ⟨mnemonic, tags⟩ := (regular_ops op mem).name_inj (regular_ops op' mem') same
  have forms := forms_nodup op.mnemonic (List.mem_eraseDups.mpr (List.mem_map_of_mem mem))
  have kept : [op, op'].Sublist (ops.filter (·.mnemonic == op.mnemonic)) := by
    simpa [mnemonic] using both.filter (·.mnemonic == op.mnemonic)
  have unlike := forms.sublist (kept.map fun op => op.args.map Prod.fst)
  simp [tags] at unlike

end BuiltIn

namespace Catalog

theorem wellFormed_types {types : List (String × Int)} (distinct : (types.map Prod.fst).Nodup) :
    Catalog.WellFormed { types } :=
  ⟨nofun, nofun, List.nodup_nil, distinct⟩

theorem WellFormed.foldl_insert {c : Catalog} {ops : List OpSpec} (h : c.WellFormed)
    (fit : c.OpsFit ops) : (ops.foldl insert c).WellFormed := by
  rw [foldl_insert_eq]
  exact h.adding fit h.typesFit_nil

theorem wellFormed_builtIn : builtIn.WellFormed := by
  refine (wellFormed_types ?_).foldl_insert ⟨?_, BuiltIn.names_nodup⟩
  · decide +kernel
  · exact fun op mem => (BuiltIn.regular_ops op mem).tags

/-- The catalog after extensions one after another, each as far as it is accepted. -/
def afterAll (c : Catalog) (extensions : List Extension) : Catalog :=
  extensions.foldl (fun c extension => (c.extend extension).1) c

theorem WellFormed.afterAll {c : Catalog} (h : c.WellFormed) (extensions : List Extension) :
    (c.afterAll extensions).WellFormed := by
  induction extensions generalizing c with
  | nil => exact h
  | cons extension extensions ih => exact ih ((extend_outcome h extension).wellFormed h)

/-- After any extensions of the built-in catalog, the operations are numbered by their places, have
names of valid tags, and are found under these names, of which no two are equal. A further
extension leaves every operation and type at its place, and adds all it has, or the operations
before its first bad one and no types, or all operations and the types before the first whose name
is taken. -/
theorem extensions_keep_catalog (extensions : List Extension) (further : Extension) :
    let c := builtIn.afterAll extensions
    c.WellFormed ∧
      (∀ entry ∈ c.entries, c.lookup entry.fullName = some entry) ∧
      (∀ (place : Nat) (entry : OpEntry), c.entries[place]? = some entry →
        (c.extend further).1.entries[place]? = some entry) ∧
      (∀ (place : Nat) (type : String × Int), c.types[place]? = some type →
        (c.extend further).1.types[place]? = some type) ∧
      c.Outcome further (c.extend further) := by
  intro c
  have wf : c.WellFormed := wellFormed_builtIn.afterAll extensions
  have grown := c.extend_grows further
  exact ⟨wf, fun entry mem => wf.lookup_fullName mem,
    fun _ _ found => getElem?_of_prefix grown.entries found,
    fun _ _ found => getElem?_of_prefix grown.types found, extend_outcome wf further⟩

/-- The second operation is another reading of the first one's name. -/
example :
    let add : OpSpec :=
      { mnemonic := "add", args := [("i", .output), ("i", .input), ("i", .input)] }
    let other : OpSpec := { mnemonic := "add_i", args := [("i", .output), ("i", .input)] }
    ({} : Catalog).extend { ops := [add, other], types := [("Bag", 20)] } =
      (({} : Catalog).adding [add] [], .error (.duplicateOp "add_i_i_i")) := by
  decide +kernel

end Catalog
end OpSelect
