import OpSelect.Proofs.Catalog.Extension
import OpSelect.Proofs.Selector.Expansion

/-!
What the name of a selected operation gives away. The catalog is asked for nothing but a name. As
long as no mnemonic ends like a tag, a name has one reading, so that the entry found under it is
for the mnemonic that was asked for, over operands with the tags of those at hand.
-/

namespace OpSelect

/-- The entry is named by its mnemonic and these tags, one for each of its operands. -/
def OpEntry.HasTags (entry : OpEntry) (tags : List String) : Prop :=
  (∀ tag ∈ tags, tag ∈ validTags) ∧ tags.length = entry.directions.length ∧
    entry.fullName = OpSelect.fullName entry.mnemonic tags

theorem mem_operandTags_of_valid {tags : List String} (valid : ∀ tag ∈ tags, tag ∈ validTags) :
    ∀ tag ∈ tags, tag ∈ operandTags :=
  fun tag mem => List.mem_cons_of_mem _ (valid tag mem)

/-- Every operation is named by its mnemonic and its tags, and no mnemonic ends like a tag. -/
structure Catalog.Unambiguous (c : Catalog) : Prop where
  tagged : ∀ entry ∈ c.entries, entry.Tagged
  plain : ∀ entry ∈ c.entries, ¬ EndsInTag entry.mnemonic

theorem Catalog.unambiguous_builtIn : builtIn.Unambiguous where
  tagged := wellFormed_builtIn.tagged
  plain entry mem := by
    obtain ⟨op, isOp, same⟩ := exists_op_of_mem_builtIn mem
    rw [same]
    exact (BuiltIn.regular_ops op isOp).not_endsInTag

namespace Signature

theorem tag_mem_operandTags (signature : Signature) :
    ∀ tag ∈ signature.map ArgTag.text, tag ∈ operandTags :=
  List.forall_mem_map.mpr fun tag _ => tag.text_mem

/-- An entry under a mangled name has the mnemonic and the tags that the name was made of. -/
theorem decode_mangle {c : Catalog} {signature : Signature} {mnemonic : String} {entry : OpEntry}
    (h : c.Unambiguous) (plain : ¬ EndsInTag mnemonic)
    (found : c.lookup (signature.mangle mnemonic) = some entry) :
    entry.mnemonic = mnemonic ∧
      ∀ tags, entry.HasTags tags ↔ tags = signature.map ArgTag.text := by
  obtain ⟨mem, name⟩ := Catalog.lookup_some found
  have reading : ∀ tags, entry.HasTags tags →
      entry.mnemonic = mnemonic ∧ tags = signature.map ArgTag.text := by
    rintro tags ⟨valid, -, named⟩
    exact fullName_inj (h.plain entry mem) plain (mem_operandTags_of_valid valid)
      signature.tag_mem_operandTags (named.symm.trans name)
  obtain ⟨tags, has⟩ := h.tagged entry mem
  obtain ⟨same, rfl⟩ := reading tags has
  exact ⟨same, fun others => ⟨fun other => (reading others other).2, fun eq => eq ▸ has⟩⟩

end Signature

/-- Names can be read in one way, so that an operation over at most one key is selected from an
entry with the mnemonic and the tags that were asked for. -/
theorem mangling_uniquely_decodable :
    (∀ (m n : String) (tags others : List String), (∀ tag ∈ tags, tag ∈ operandTags) →
      (∀ tag ∈ others, tag ∈ operandTags) → ¬ EndsInTag m → ¬ EndsInTag n →
      fullName m tags = fullName n others → m = n ∧ tags = others) ∧
    ∀ (s t : Selector) (mnemonic : String) (context : Context) (first : Nat),
      s.catalog.Unambiguous → ¬ EndsInTag mnemonic → context.keyed.count ≤ 1 →
      s.resolve mnemonic context = (t, .ok first) →
      ∃ entry ∈ s.catalog.entries, ∃ i, t = { s with instructions := s.instructions ++ [i] } ∧
        i.spelling = ⟨mnemonic, context.operands, context.keyed⟩ ∧
        i.opcode = some entry.opcode ∧ i.fullName = entry.fullName ∧
        entry.mnemonic = mnemonic ∧
        ∀ tags, entry.HasTags tags ↔
          tags = (Signature.of s.symbols context.operands context.keyed).map ArgTag.text := by
  constructor
  · intro m n tags others valid valid' plain plain' same
    exact fullName_inj plain plain' valid valid' same
  · intro s t mnemonic context first unambiguous plain single resolved
    rcases Selector.resolve_ok resolved with ⟨several, _⟩ | ⟨_, i, built, rfl⟩
    · omega
    · obtain ⟨_, entry, found, rfl⟩ := Selector.build_eq_ok.mp built
      obtain ⟨mnemonics, tags⟩ := Signature.decode_mangle unambiguous plain found
      exact ⟨entry, (Catalog.lookup_some found).1, _, rfl, rfl, rfl, rfl, mnemonics, tags⟩

/-- A selector with an integer register and a label. -/
def addressSample : Selector where
  catalog := .builtIn
  config := {}
  symbols :=
    { symbols := [⟨"$I0", .integer, .var⟩, ⟨"loop", .integer, .address⟩]
      names := [("$I0", 0), ("loop", 1)] }

/-- The operands of `$I0, loop`. -/
def addressContext : Context where
  maxArity := 6
  operands := [0, 1]

/-- The mnemonic `set_addr` has an underscore, but `addr` is no tag. -/
theorem set_addr_uniquely_decodable :
    addressSample.catalog.Unambiguous ∧ ¬ EndsInTag "set_addr" ∧
      ∃ entry ∈ addressSample.catalog.entries,
        entry.mnemonic = "set_addr" ∧ entry.HasTags ["i", "ic"] ∧
          ∃ i, i.opcode = some entry.opcode ∧
            (addressSample.resolve "set_addr" addressContext).1.instructions = [i] := by
  have plain : ¬ EndsInTag "set_addr" := by decide +kernel
  have unambiguous : addressSample.catalog.Unambiguous := by
    dsimp only [addressSample]
    exact Catalog.unambiguous_builtIn
  have resolved : (addressSample.resolve "set_addr" addressContext).2 = .ok 0 := by
    decide +kernel
  obtain ⟨entry, mem, i, emitted, _, opcode, _, mnemonic, tags⟩ :=
    mangling_uniquely_decodable.2 addressSample
      (addressSample.resolve "set_addr" addressContext).1 "set_addr" addressContext 0
      unambiguous plain (by decide) (by rw [← resolved])
  refine ⟨unambiguous, plain, entry, mem, mnemonic, ?_, i, opcode, ?_⟩
  · exact (tags _).mpr (by decide +kernel)
  · exact congrArg Selector.instructions emitted

end OpSelect
