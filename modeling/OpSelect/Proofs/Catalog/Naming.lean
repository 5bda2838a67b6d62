import Mathlib.Data.List.Induction
import OpSelect.Catalog.BuiltIn
import OpSelect.Proofs.List
import OpSelect.Signature

/-!
Names in the catalog. A name is a mnemonic and tags joined by underscores, and no tag has an
underscore of its own. So the tags can be read off a name from its end, and two readings of one
name differ only in how many tags are counted as part of the mnemonic. The rest of the module
says which entries a catalog has and what an extension leaves in place.
-/

namespace OpSelect

section Names

variable {m n tag : String} {tags others : List String}

theorem fullName_append (m : String) (tags others : List String) :
    fullName m (tags ++ others) = fullName (fullName m tags) others :=
  List.foldl_append

theorem toList_fullName_concat (m : String) (tags : List String) (tag : String) :
    (fullName m (tags ++ [tag])).toList = (fullName m tags).toList ++ '_' :: tag.toList := by
  rw [fullName_append]
  simp [fullName]

/-- Two readings of one name: the tags of one end in those of the other, and the tags in front
are part of the other's mnemonic. The induction takes the tags off from the end. -/
theorem fullName_readings (plain : ∀ tag ∈ tags, '_' ∉ tag.toList)
    (plain' : ∀ tag ∈ others, '_' ∉ tag.toList) (same : fullName m tags = fullName n others) :
    (∃ extra, others = extra ++ tags ∧ m = fullName n extra) ∨
      ∃ extra, tags = extra ++ others ∧ n = fullName m extra := by
  induction tags using List.reverseRecOn generalizing others with
  | nil => exact .inl ⟨others, (List.append_nil _).symm, same⟩
  | append_singleton tags tag ih =>
      cases others using List.reverseRecOn with
      | nil => exact .inr ⟨tags ++ [tag], (List.append_nil _).symm, same.symm⟩
      | append_singleton others other =>
          have spelled := congrArg String.toList same
          rw [toList_fullName_concat, toList_fullName_concat] at spelled
          obtain ⟨fronts, lasts⟩ := append_cons_inj (plain tag (by simp))
            (plain' other (by simp)) spelled
          obtain rfl : tag = other := String.toList_inj.mp lasts
          have shorter := ih (fun tag mem => plain tag (List.mem_append_left _ mem))
            (fun tag mem => plain' tag (List.mem_append_left _ mem)) (String.toList_inj.mp fronts)
          refine shorter.imp ?_ ?_
          · rintro ⟨extra, rfl, mnemonic⟩
            exact ⟨extra, List.append_assoc _ _ _, mnemonic⟩
          · rintro ⟨extra, rfl, mnemonic⟩
            exact ⟨extra, List.append_assoc _ _ _, mnemonic⟩

end Names

/-- The tags that operands can have in a mangled name. Constant aggregates have one that no
entry may use. -/
def operandTags : List String := "pc" :: validTags

theorem ArgTag.text_mem (tag : ArgTag) : tag.text ∈ operandTags := by
  cases tag with
  | register cls | constant cls => cases cls <;> decide
  | address => decide
  | key integer constant => cases integer <;> cases constant <;> decide

theorem underscore_not_mem_tag {tag : String} (mem : tag ∈ operandTags) : '_' ∉ tag.toList := by
  have all : ∀ tag ∈ operandTags, '_' ∉ tag.toList := by decide +kernel
  exact all tag mem

/-- The mnemonic ends in an underscore and what looks like the tag of an operand. -/
def EndsInTag (mnemonic : String) : Prop :=
  ∃ tag ∈ operandTags, '_' :: tag.toList <:+ mnemonic.toList

instance (mnemonic : String) : Decidable (EndsInTag mnemonic) :=
  inferInstanceAs (Decidable (∃ tag ∈ operandTags, _))

section Decoding

variable {m n : String} {tags others : List String}

theorem endsInTag_fullName {tag : String} (isTag : tag ∈ operandTags) :
    EndsInTag (fullName m (tags ++ [tag])) := by
  refine ⟨tag, isTag, ?_⟩
  rw [toList_fullName_concat]
  exact List.suffix_append _ _

/-- Nothing can be split off a mnemonic that does not end in a tag. -/
theorem eq_nil_of_not_endsInTag (plain : ¬ EndsInTag m) (valid : ∀ tag ∈ tags, tag ∈ operandTags)
    (same : m = fullName n tags) : tags = [] := by
  cases tags using List.reverseRecOn with
  | nil => rfl
  | append_singleton tags tag =>
      have ends : EndsInTag m := same ▸ endsInTag_fullName (valid tag (by simp))
      exact absurd ends plain

/-- A name can be read in one way only, among mnemonics that do not end in a tag. -/
theorem fullName_inj (plain : ¬ EndsInTag m) (plain' : ¬ EndsInTag n)
    (valid : ∀ tag ∈ tags, tag ∈ operandTags) (valid' : ∀ tag ∈ others, tag ∈ operandTags)
    (same : fullName m tags = fullName n others) : m = n ∧ tags = others := by
  have readings := fullName_readings (fun tag mem => underscore_not_mem_tag (valid tag mem))
    (fun tag mem => underscore_not_mem_tag (valid' tag mem)) same
  rcases readings with ⟨extra, rfl, mnemonic⟩ | ⟨extra, rfl, mnemonic⟩
  · obtain rfl := eq_nil_of_not_endsInTag plain
      (fun tag mem => valid' tag (List.mem_append_left _ mem)) mnemonic
    exact ⟨mnemonic, rfl⟩
  · obtain rfl := eq_nil_of_not_endsInTag plain'
      (fun tag mem => valid tag (List.mem_append_left _ mem)) mnemonic
    exact ⟨mnemonic.symm, rfl⟩

end Decoding

/-- The entry that an operation has at a place of the table. -/
def OpSpec.entry (op : OpSpec) (opcode : Nat) : OpEntry where
  opcode := opcode
  mnemonic := op.mnemonic
  fullName := op.name
  directions := op.args.map Prod.snd
  jump := op.jump

namespace Catalog

variable {c d : Catalog} {name : String} {entry : OpEntry}

theorem lookup_some (h : c.lookup name = some entry) : entry ∈ c.entries ∧ entry.fullName = name :=
  ⟨List.mem_of_find?_eq_some h, by simpa using List.find?_some h⟩

theorem entries_foldl_insert (ops : List OpSpec) (c : Catalog) :
    (ops.foldl insert c).entries =
      c.entries ++ (ops.zipIdx c.entries.length).map fun (op, opcode) => op.entry opcode := by
  induction ops generalizing c with
  | nil => exact (List.append_nil _).symm
  | cons op ops ih =>
      rw [List.foldl_cons, ih]
      simp [insert, OpSpec.entry]

/-- The built-in operations are numbered by their places. -/
theorem entries_builtIn :
    builtIn.entries = BuiltIn.ops.zipIdx.map fun (op, opcode) => op.entry opcode :=
  entries_foldl_insert BuiltIn.ops _

theorem exists_op_of_mem_builtIn (mem : entry ∈ builtIn.entries) :
    ∃ op ∈ BuiltIn.ops, entry = op.entry entry.opcode := by
  rw [entries_builtIn] at mem
  obtain ⟨⟨op, opcode⟩, place, rfl⟩ := List.mem_map.mp mem
  exact ⟨op, List.fst_mem_of_mem_zipIdx place, rfl⟩

/-- Later entries do not get in the way of earlier ones. -/
theorem lookup_of_prefix (before : c.entries <+: d.entries) (h : c.lookup name = some entry) :
    d.lookup name = some entry := by
  obtain ⟨added, eq⟩ := before
  rw [lookup] at h ⊢
  rw [← eq, List.find?_append, h]
  rfl

/-- A new operation is found under its name, if that was free. -/
theorem lookup_insert {op : OpSpec} (free : c.lookup op.name = none) :
    (c.insert op).lookup op.name = some (op.entry c.entries.length) := by
  rw [lookup] at free ⊢
  simp [insert, List.find?_append, free, OpSpec.entry]

/-- The catalog `d` has what `c` has, and more after it. -/
structure Grows (c d : Catalog) : Prop where
  entries : c.entries <+: d.entries
  types : c.types <+: d.types

theorem Grows.refl (c : Catalog) : c.Grows c := ⟨List.prefix_refl _, List.prefix_refl _⟩

theorem Grows.trans {e : Catalog} (h : c.Grows d) (k : d.Grows e) : c.Grows e :=
  ⟨h.entries.trans k.entries, h.types.trans k.types⟩

theorem Grows.lookup (h : c.Grows d) (found : c.lookup name = some entry) :
    d.lookup name = some entry :=
  lookup_of_prefix h.entries found

theorem Grows.typeId {id : Int} (h : c.Grows d) (known : c.typeId name = some id) :
    d.typeId name = some id := by
  obtain ⟨added, eq⟩ := h.types
  obtain ⟨type, found, rfl⟩ := Option.map_eq_some_iff.mp known
  rw [Catalog.typeId, ← eq, List.find?_append, found]
  rfl

theorem addOp_grows {op : OpSpec} (h : c.addOp op = .ok d) : c.Grows d := by
  unfold addOp at h
  split at h
  · cases h
  · split at h
    · cases h
    · cases h
      exact ⟨List.prefix_append _ _, List.prefix_refl _⟩

theorem addType_grows {type : String × Int} (h : c.addType type = .ok d) : c.Grows d := by
  unfold addType at h
  split at h
  · cases h
  · cases h
    exact ⟨List.prefix_refl _, List.prefix_append _ _⟩

theorem addEach_grows {α : Type} (add : Catalog → α → Except CatalogError Catalog)
    (each : ∀ {c d item}, add c item = .ok d → c.Grows d) (items : List α) (c : Catalog) :
    c.Grows (addEach add c items).1 := by
  induction items generalizing c with
  | nil => exact .refl c
  | cons item items ih =>
      unfold addEach
      split
      · exact .refl c
      · rename_i added
        exact (each added).trans (ih _)

theorem extend_grows (c : Catalog) (extension : Extension) : c.Grows (c.extend extension).1 := by
  have ops := addEach_grows addOp addOp_grows extension.ops c
  unfold extend
  split
  · rename_i stopped
    rwa [stopped] at ops
  · rename_i added
    rw [added] at ops
    exact ops.trans (addEach_grows addType addType_grows extension.types _)

theorem extended_grows {extension : Extension} (h : c.extended extension = .ok d) : c.Grows d := by
  have grown := c.extend_grows extension
  unfold extended at h
  split at h
  · cases h
  · rename_i added
    cases h
    rwa [added] at grown

/-- An extension leaves every entry where it is. -/
theorem extended_entries {extension : Extension} (h : c.extended extension = .ok d) :
    c.entries <+: d.entries :=
  (extended_grows h).entries

/-- An extension by one operation with valid tags and a free name. -/
theorem extended_op {op : OpSpec} (valid : ∀ arg ∈ op.args, isValidTag arg.1 = true)
    (free : c.lookup op.name = none) : c.extended { ops := [op] } = .ok (c.insert op) := by
  have tags : op.args.find? (fun arg => !isValidTag arg.1) = none := by simpa using valid
  simp [extended, extend, addEach, addOp, tags, free]

end Catalog

/-- What holds of every built-in operation: valid tags, results in the first operand only, no
more operands than a mask holds, and a mnemonic that does not end like a tag. -/
structure OpSpec.Regular (op : OpSpec) : Prop where
  tags : ∀ arg ∈ op.args, arg.1 ∈ validTags
  inputs : ∀ arg ∈ op.args.drop 1, arg.2 = .input
  arity : op.args.length ≤ maskWidth
  mnemonic : '_' ∉ op.mnemonic.toList ∨ op.mnemonic = "set_addr"

instance (op : OpSpec) : Decidable op.Regular :=
  decidable_of_iff
    ((∀ arg ∈ op.args, arg.1 ∈ validTags) ∧ (∀ arg ∈ op.args.drop 1, arg.2 = .input) ∧
      op.args.length ≤ maskWidth ∧ ('_' ∉ op.mnemonic.toList ∨ op.mnemonic = "set_addr"))
    ⟨fun ⟨tags, inputs, arity, mnemonic⟩ => ⟨tags, inputs, arity, mnemonic⟩,
      fun h => ⟨h.tags, h.inputs, h.arity, h.mnemonic⟩⟩

theorem BuiltIn.regular_ops : ∀ op ∈ BuiltIn.ops, op.Regular := by decide +kernel

namespace OpSpec.Regular

variable {op : OpSpec}

theorem mem_operandTags (h : op.Regular) {tag : String} (mem : tag ∈ op.args.map Prod.fst) :
    tag ∈ operandTags := by
  obtain ⟨arg, isArg, rfl⟩ := List.mem_map.mp mem
  exact List.mem_cons_of_mem _ (h.tags arg isArg)

theorem not_endsInTag (h : op.Regular) : ¬ EndsInTag op.mnemonic := by
  rintro ⟨tag, isTag, front, spelled⟩
  cases h.mnemonic with
  | inl plain =>
      refine absurd ?_ plain
      rw [← spelled]
      exact List.mem_append_right _ List.mem_cons_self
  | inr address =>
      rw [address] at spelled
      have place : "set_addr".toList = "set".toList ++ '_' :: "addr".toList := by decide +kernel
      rw [place] at spelled
      obtain ⟨_, last⟩ := append_cons_inj (underscore_not_mem_tag isTag) (by decide +kernel)
        spelled
      rw [String.toList_inj.mp last] at isTag
      exact absurd isTag (by decide)

theorem mnemonic_eq_fullName (h : op.Regular) {m : String} {extra : List String}
    (tags : ∀ tag ∈ extra, tag ∈ operandTags) (same : op.mnemonic = fullName m extra) :
    extra = [] :=
  eq_nil_of_not_endsInTag h.not_endsInTag tags same

/-- The name of such an operation can be read in one way. -/
theorem name_inj {op' : OpSpec} (h : op.Regular) (h' : op'.Regular) (same : op.name = op'.name) :
    op.mnemonic = op'.mnemonic ∧ op.args.map Prod.fst = op'.args.map Prod.fst :=
  fullName_inj h.not_endsInTag h'.not_endsInTag (fun _ mem => h.mem_operandTags mem)
    (fun _ mem => h'.mem_operandTags mem) same

end OpSpec.Regular

end OpSelect
