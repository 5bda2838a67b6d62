import OpSelect.Proofs.Selector.Coverage
import OpSelect.Proofs.Selector.Quiet

/-!
The text of a built instruction. Its operands are put into a template with a pair of braces for
each of them, and the template follows the marks of the instruction: where the mask has each
container followed by its key, the texts fall into the slots that they belong to. What is put in
is never taken for a part of the template.
-/

namespace OpSelect

/-- The text of a slot in a listing. -/
def Slot.text (t : SymbolTable) : Slot → String
  | .plain id => (t.get id).displayText
  | .keyed container key =>
      (t.get container).displayText ++ "[" ++ (t.get key).displayText ++ "]"

theorem fill_shapes (t : SymbolTable) (slots : List Slot) :
    SlotShape.fill (slots.map Slot.shape)
        ((slots.flatMap Slot.operands).map fun id => (t.get id).displayText) =
      slots.map (Slot.text t) := by
  induction slots with
  | nil => rfl
  | cons slot slots ih =>
      cases slot with
      | plain id => simp [SlotShape.fill, Slot.shape, Slot.operands, Slot.text, ih]
      | keyed container key => simp [SlotShape.fill, Slot.shape, Slot.operands, Slot.text, ih]

/-- An instruction shows the slots of its layout. -/
theorem Instruction.render_of_slots {i : Instruction} {slots : List Slot}
    (unlabelled : i.isLabel = false) (operands : i.operands = slots.flatMap Slot.operands)
    (layout : i.layout = slots.map Slot.shape) (t : SymbolTable) :
    i.render t = if slots = [] then i.mnemonic else
      i.mnemonic ++ " " ++ String.intercalate ", " (slots.map (Slot.text t)) := by
  unfold render
  rw [if_neg (by simp [unlabelled]), layout, operands]
  cases slots with
  | nil => rfl
  | cons slot slots =>
      rw [if_neg (List.cons_ne_nil slot slots), ← fill_shapes]
      rfl

/-! ### Containers and keys -/

namespace KeyedMask

variable {m : KeyedMask} {position place count : Nat}

/-- Each container from the position on is followed by its key, among so many operands, and its
key is no container. -/
def Paired (m : KeyedMask) (position count : Nat) : Prop :=
  ∀ place, position ≤ place → m.contains place = true →
    place + 1 < position + count ∧ m.contains (place + 1) = false

theorem Paired.drop (more : Nat) (h : m.Paired position (count + more)) :
    m.Paired (position + more) count := by
  intro place later marked
  obtain ⟨followed, unmarked⟩ := h place (by omega) marked
  exact ⟨by omega, unmarked⟩

/-- No container is the last operand or stands behind it. -/
theorem Paired.contains_eq_false (h : m.Paired position count) (few : count ≤ 1)
    (later : position ≤ place) : m.contains place = false := by
  by_contra marked
  obtain ⟨followed, _⟩ := h place later (by simpa using marked)
  omega

/-- A mask with one position at most has no other. -/
theorem eq_of_count_le_one (single : m.count ≤ 1) {other : Nat}
    (marked : m.contains position = true) (marked' : m.contains other = true) :
    position = other := by
  have mem := mem_positions.mpr marked
  have mem' := mem_positions.mpr marked'
  unfold count at single
  match m.positions, single, mem, mem' with
  | [_], _, mem, mem' => rw [List.mem_singleton.mp mem, List.mem_singleton.mp mem']

end KeyedMask

theorem Selector.paired_of_checked {s : Selector} {operands : List SymbolId} {keyed : KeyedMask}
    (checked : s.checkKeyed operands keyed = .ok ()) (single : keyed.count ≤ 1) :
    keyed.Paired 0 operands.length := by
  intro place _ marked
  obtain ⟨container, key, rest, dropped, _⟩ :=
    checkKeyed_ok checked (KeyedMask.mem_positions.mpr marked)
  have length := congrArg List.length dropped
  simp only [List.length_drop, List.length_cons] at length
  refine ⟨by omega, ?_⟩
  by_contra next
  have same := KeyedMask.eq_of_count_le_one single marked (by simpa using next)
  omega

/-- For each operand of a slot, whether it is a key. -/
def SlotShape.keys : SlotShape → List Bool
  | plain => [false]
  | keyed => [false, true]

namespace Slot

variable {m : KeyedMask} {position : Nat} {operands : List SymbolId}

/-- The layout of operands is that of the slots that they are grouped into. -/
theorem layout_group (paired : m.Paired position operands.length) :
    SlotShape.layout m position operands.length = (group m position operands).map shape := by
  fun_induction group m position operands with
  | case1 => rfl
  | case2 position operand =>
      have unmarked := paired.contains_eq_false (Nat.le_refl 1) (Nat.le_refl position)
      simp [SlotShape.layout, unmarked, shape]
  | case3 position first second rest marked ih =>
      have tail := ih (paired.drop 2)
      simp only [List.length_cons, SlotShape.layout, marked, if_true, tail]
      rfl
  | case4 position first second rest unmarked ih =>
      have tail := ih (paired.drop 1)
      rw [List.length_cons] at tail
      simp only [List.length_cons, SlotShape.layout, unmarked, tail]
      rfl

/-- Grouping by a mask keeps all its marks. -/
theorem marksFrom_group (paired : m.Paired position operands.length) :
    MarksFrom m position (group m position operands) := by
  fun_induction group m position operands with
  | case1 => exact fun place later => by simp [mask, paired.contains_eq_false (by simp) later]
  | case2 => exact fun place later => by simp [mask, paired.contains_eq_false (by simp) later]
  | case3 position first second rest marked ih =>
      have tail := ih (paired.drop 2)
      obtain ⟨_, unmarked⟩ := paired position (Nat.le_refl position) marked
      intro place later
      rw [mask]
      by_cases here : position = place
      · subst here
        rw [marked, KeyedMask.contains_insert_self (BitVec.lt_of_getLsbD marked)]
      · rw [KeyedMask.contains_insert_ne here]
        by_cases next : place = position + 1
        · rw [next, unmarked, contains_mask_before (Nat.lt_succ_self _)]
        · exact tail place (by omega)
  | case4 position first second rest unmarked ih =>
      have tail := ih (paired.drop 1)
      intro place later
      rw [mask]
      by_cases here : position = place
      · rw [← here, contains_mask_before (Nat.lt_succ_self _)]
        simpa using unmarked
      · exact tail place (by omega)

/-- Operands with a mask are those of one list of slots. -/
theorem group_of_spelling {mnemonic : String} {slots : List Slot}
    (spelled : spelling mnemonic slots = ⟨mnemonic, operands, m⟩)
    (inside : operands.length ≤ maskWidth) : group m 0 operands = slots := by
  obtain ⟨_, rfl, rfl⟩ := Spelling.mk.inj spelled
  exact group_of_marks (marksFrom_mask slots) (by simpa [width] using inside)

/-- The operands that stand behind a container are the keys of the slots. -/
theorem keys_group (paired : m.Paired position operands.length)
    (start : m.isKey position = false) :
    (operands.zipIdx position).map (fun (_, place) => m.isKey place) =
      (group m position operands).flatMap fun slot => slot.shape.keys := by
  fun_induction group m position operands with
  | case1 => rfl
  | case2 position operand => simp [start, shape, SlotShape.keys]
  | case3 position first second rest marked ih =>
      obtain ⟨_, unmarked⟩ := paired position (Nat.le_refl position) marked
      have tail := ih (paired.drop 2) unmarked
      have key : m.isKey (position + 1) = true := marked
      rw [List.flatMap_cons, ← tail]
      simp [start, key, shape, SlotShape.keys]
  | case4 position first second rest unmarked ih =>
      have plain : m.isKey (position + 1) = false := eq_false_of_ne_true unmarked
      have tail := ih (paired.drop 1) plain
      rw [List.flatMap_cons, ← tail]
      simp [start, shape, SlotShape.keys]

end Slot

/-- A tag tells whether it is that of a key. -/
theorem ArgTag.contains_text (symbol : Symbol) (isKey : Bool) :
    BuiltIn.keyTags.contains (ArgTag.of symbol isKey).text = isKey := by
  have keys : ∀ integer constant,
      BuiltIn.keyTags.contains (ArgTag.key integer constant).text = true := by decide
  obtain ⟨name, cls, kind⟩ := symbol
  cases isKey with
  | true => exact keys _ _
  | false => cases kind <;> cases cls <;> rfl

/-- A signature marks the keys among the operands and nothing else. -/
theorem Signature.contains_keyTags (t : SymbolTable) (operands : List SymbolId)
    (keyed : KeyedMask) :
    ((Signature.of t operands keyed).map ArgTag.text).map BuiltIn.keyTags.contains =
      operands.zipIdx.map fun (_, place) => keyed.isKey place := by
  rw [Signature.of, List.map_map, List.map_map]
  exact List.map_congr_left fun _ _ => ArgTag.contains_text _ _

/-! ### Templates -/

namespace Template

/-- Puts texts into the pairs of braces of a template, in order. A text that was put in is not
looked at again, and where no text is left nothing is put in. -/
def put : List Char → List String → List Char
  | '\x7b' :: '\x7d' :: rest, texts => (texts.headD "").toList ++ put rest (texts.drop 1)
  | c :: rest, texts => c :: put rest texts
  | [], _ => []

/-- For each pair of braces of a template, whether brackets stand around it. -/
def bracketed : List Char → List Bool
  | '[' :: '\x7b' :: '\x7d' :: ']' :: rest => true :: bracketed rest
  | '\x7b' :: '\x7d' :: rest => false :: bracketed rest
  | _ :: rest => bracketed rest
  | [] => []

theorem toList_cons (shape next : SlotShape) (shapes : List SlotShape) :
    (operandTemplate (shape :: next :: shapes)).toList =
      shape.template.toList ++ ',' :: ' ' :: (operandTemplate (next :: shapes)).toList := by
  simp [operandTemplate]

/-- The texts of the slots are what the template makes of the texts of the operands. -/
theorem put_operandTemplate (shapes : List SlotShape) (texts : List String) :
    put (operandTemplate shapes).toList texts =
      (String.intercalate ", " (SlotShape.fill shapes texts)).toList := by
  induction shapes generalizing texts with
  | nil => rfl
  | cons shape shapes ih =>
      cases shapes with
      | nil =>
          cases shape <;> simp [operandTemplate, SlotShape.template, SlotShape.fill, put]
      | cons next shapes =>
          have more : ∀ texts, SlotShape.fill (next :: shapes) texts ≠ [] := by
            intro texts
            cases next <;> exact List.cons_ne_nil _ _
          rw [toList_cons]
          cases shape with
          | plain =>
              rw [SlotShape.fill, String.intercalate_cons_of_ne_nil (more _)]
              simp [SlotShape.template, put, ih]
          | keyed =>
              rw [SlotShape.fill, String.intercalate_cons_of_ne_nil (more _)]
              simp [SlotShape.template, put, ih]

/-- The brackets of the template stand around the keys. -/
theorem bracketed_operandTemplate (shapes : List SlotShape) :
    bracketed (operandTemplate shapes).toList = shapes.flatMap SlotShape.keys := by
  induction shapes with
  | nil => rfl
  | cons shape shapes ih =>
      cases shapes with
      | nil => cases shape <;> rfl
      | cons next shapes =>
          rw [toList_cons, List.flatMap_cons, ← ih]
          cases shape <;> simp [SlotShape.template, SlotShape.keys, bracketed]

end Template

namespace Selector

variable {s : Selector} {mnemonic : String} {operands : List SymbolId} {keyed : KeyedMask}
  {i : Instruction} {entry : OpEntry}

/-- A built instruction whose entry has an operand for each of its own lays out all its slots. -/
theorem layout_of_build (built : s.build mnemonic operands keyed = .ok i)
    (paired : keyed.Paired 0 operands.length) (found : s.catalog.lookup i.fullName = some entry)
    (enough : operands.length ≤ entry.directions.length) :
    i.layout = (Slot.group keyed 0 operands).map Slot.shape := by
  obtain ⟨_, other, found', rfl⟩ := build_eq_ok.mp built
  have same : s.catalog.lookup other.fullName = some other :=
    (Catalog.lookup_some found').2 ▸ found'
  obtain rfl : other = entry := Option.some.inj (same.symm.trans found)
  rw [instructionOf, operandLayout, Nat.min_eq_left enough, Slot.layout_group paired]

theorem spelling_group (paired : keyed.Paired 0 operands.length) :
    Slot.spelling mnemonic (Slot.group keyed 0 operands) = ⟨mnemonic, operands, keyed⟩ := by
  have marks : keyed = Slot.mask 0 (Slot.group keyed 0 operands) :=
    KeyedMask.eq_of_contains fun place => Slot.marksFrom_group paired place (Nat.zero_le place)
  rw [Slot.spelling, Slot.flatMap_group, ← marks]

/-- It is shown as its mnemonic and its slots. -/
theorem render_of_build (built : s.build mnemonic operands keyed = .ok i)
    (paired : keyed.Paired 0 operands.length) (found : s.catalog.lookup i.fullName = some entry)
    (enough : operands.length ≤ entry.directions.length) (t : SymbolTable) :
    i.render t = if operands = [] then mnemonic else mnemonic ++ " " ++
      String.intercalate ", " ((Slot.group keyed 0 operands).map (Slot.text t)) := by
  obtain ⟨spelled, _⟩ := build_ok built
  have ofOperands : i.operands = operands := congrArg Spelling.operands spelled
  have ofMnemonic : i.mnemonic = mnemonic := congrArg Spelling.mnemonic spelled
  have grouped := Slot.flatMap_group keyed 0 operands
  have empty : Slot.group keyed 0 operands = [] ↔ operands = [] := by
    constructor
    · intro none
      rw [← grouped, none, List.flatMap_nil]
    · rintro rfl
      rfl
  rw [Instruction.render_of_slots (build_unlabelled built) (ofOperands.trans grouped.symm)
    (layout_of_build built paired found enough), ofMnemonic]
  simp only [empty]

/-- An instruction over at most one key shows each operand once, in its slot, and the brackets
stand around the operand that the mangled name has as a key. -/
theorem rendering_shows_operands (s : Selector) (mnemonic : String) (operands : List SymbolId)
    (keyed : KeyedMask) (i : Instruction) (entry : OpEntry)
    (built : s.build mnemonic operands keyed = .ok i) (single : keyed.count ≤ 1)
    (found : s.catalog.lookup i.fullName = some entry)
    (enough : operands.length ≤ entry.directions.length) :
    let tags := (Signature.of s.symbols operands keyed).map ArgTag.text
    let template := (operandTemplate i.layout).toList
    (∃ slots, Slot.spelling mnemonic slots = ⟨mnemonic, operands, keyed⟩ ∧
      ∀ t : SymbolTable,
        i.render t = (if operands = [] then mnemonic else
          mnemonic ++ " " ++ String.intercalate ", " (slots.map (Slot.text t))) ∧
        (String.intercalate ", " (slots.map (Slot.text t))).toList =
          Template.put template (operands.map fun id => (t.get id).displayText)) ∧
      i.fullName = fullName mnemonic tags ∧
      tags.map BuiltIn.keyTags.contains = Template.bracketed template := by
  intro tags template
  obtain ⟨checked, _, lookup, same⟩ := build_eq_ok.mp built
  have paired := paired_of_checked checked single
  have layout := layout_of_build built paired found enough
  refine ⟨⟨Slot.group keyed 0 operands, spelling_group paired, fun t => ⟨?_, ?_⟩⟩, ?_, ?_⟩
  · exact render_of_build built paired found enough t
  · rw [Template.put_operandTemplate, layout, ← fill_shapes, Slot.flatMap_group]
  · rw [same]
    exact (Catalog.lookup_some lookup).2
  · rw [Template.bracketed_operandTemplate, layout, Signature.contains_keyTags,
      Slot.keys_group paired rfl, List.flatMap_map]

/-- A string register, an aggregate and a key that looks like a part of a template. -/
def bracesSample : Selector where
  catalog := .builtIn
  config := {}
  symbols :=
    { symbols := [⟨"$S0", .string, .var⟩, ⟨"$P0", .aggregate, .var⟩,
        ⟨"\x7b\x7d, [", .string, .constant⟩]
      names := [("$S0", 0), ("$P0", 1)]
      constants := [(("\x7b\x7d, [", .string), 2)] }

/-- The entry of `set_s_p_kc`. -/
def bracesEntry : OpEntry where
  opcode := 32
  mnemonic := "set"
  fullName := "set_s_p_kc"
  directions := [.output, .input, .input]
  jump := false

/-- The braces and the bracket in the key are shown as they are. -/
theorem rendering_shows_braces :
    let i := bracesSample.instructionOf bracesEntry "set" [0, 1, 2] (.single 1)
    bracesSample.build "set" [0, 1, 2] (.single 1) = .ok i ∧ (KeyedMask.single 1).count ≤ 1 ∧
      bracesSample.catalog.lookup i.fullName = some bracesEntry ∧
      Template.bracketed (operandTemplate i.layout).toList = [false, false, true] ∧
      i.render bracesSample.symbols = "set $S0, $P0[\"\x7b\x7d, [\"]" := by
  intro i
  have built : bracesSample.build "set" [0, 1, 2] (.single 1) = .ok i := by decide +kernel
  have single : (KeyedMask.single 1).count ≤ 1 := by decide
  have found : bracesSample.catalog.lookup i.fullName = some bracesEntry := by decide +kernel
  obtain ⟨⟨slots, spelled, shown⟩, _, keys⟩ :=
    rendering_shows_operands bracesSample "set" [0, 1, 2] (.single 1) i bracesEntry built single
      found (by decide)
  obtain rfl := Slot.group_of_spelling spelled (by decide)
  refine ⟨built, single, found, keys.symm.trans (by decide +kernel), ?_⟩
  rw [(shown bracesSample.symbols).1]
  decide +kernel

end Selector
end OpSelect
