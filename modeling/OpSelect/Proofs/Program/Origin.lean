import OpSelect.Proofs.Program.Phrase
import OpSelect.Proofs.Program.Placement

/-!
Where the atoms of a file come from. A reader moves over the tokens of a file, and each atom that
it reads is written with tokens that it passes. So the atoms of all statements stand in the tokens
at the offsets where they begin, as bases of operands and as keys.
-/

namespace OpSelect

/-- The atom is written with some of the tokens, the first of which begins at the offset. -/
def Atom.StandsIn (tokens : List Token) (offset : Nat) (a : Atom) : Prop :=
  ∃ before t taken after, tokens = before ++ t :: (taken ++ after) ∧ t.span.start = offset ∧
    a.Written ((t :: taken).map Token.kind)

/-- The atoms of an operand with the offsets where they begin. -/
def Operand.atoms (o : Located Operand) : List (Nat × Atom) :=
  (o.span.start, o.node.base) :: o.node.keys.map fun key => (key.span.start, key.node)

/-- The atoms of a statement in the order in which they are written. -/
def Statement.atoms (s : Statement) : List (Nat × Atom) := s.operands.flatMap Operand.atoms

def Operand.StandsIn (tokens : List Token) (o : Located Operand) : Prop :=
  ∀ place ∈ Operand.atoms o, place.2.StandsIn tokens place.1

def Statement.StandsIn (tokens : List Token) (s : Statement) : Prop :=
  ∀ o ∈ s.operands, Operand.StandsIn tokens o

theorem Cursor.Reaches.suffix {c d : Cursor} (h : c.Reaches d) : d.rest <:+ c.rest := by
  induction h with
  | refl c => exact List.suffix_refl _
  | step _ _ ih => exact ih.trans (List.suffix_cons _ _)

section Yields

variable {α β : Type} {tokens : List Token}

/-- Among the tokens, the reader stays among them and reads things that have the property. -/
structure Reader.Yields (tokens : List Token) (p : Reader α) (P : α → Prop) : Prop where
  read {c a d} : c.rest <:+ tokens → (p.run c).result = some (a, d) → d.rest <:+ tokens ∧ P a

/-- A reader of something that has no atoms. -/
abbrev Reader.Passes (tokens : List Token) (p : Reader α) : Prop := p.Yields tokens fun _ => True

structure Sweeper.Yields (tokens : List Token) (q : Sweeper α) (P : α → Prop) : Prop where
  read {c} : c.rest <:+ tokens → (q.run c).cursor.rest <:+ tokens ∧ P (q.run c).value

namespace Reader

variable {p : Reader α} {q : Reader β} {P : α → Prop} {Q : β → Prop}

theorem Places.passes {f : α → List Span} (h : p.Places (fun _ => True) 0 f P) :
    p.Passes tokens where
  read within found := ⟨(h.reaches found).suffix.trans within, trivial⟩

namespace Yields

theorem map (h : p.Yields tokens P) {k : α → β} (image : ∀ a, P a → Q (k a)) :
    (p.map k).Yields tokens Q where
  read within found := by
    obtain ⟨⟨a, e⟩, read, eq⟩ := Option.map_eq_some_iff.mp found
    cases eq
    exact (h.read within read).imp_right (image a)

theorem andThen (h : p.Yields tokens P) (k : q.Yields tokens Q) :
    (p.andThen q).Yields tokens fun ab => P ab.1 ∧ Q ab.2 where
  read within found := by
    rw [andThen_result] at found
    obtain ⟨⟨a, d⟩, read, next⟩ := Option.bind_eq_some_iff.mp found
    obtain ⟨⟨b, e'⟩, then_, eq⟩ := Option.map_eq_some_iff.mp next
    cases eq
    obtain ⟨within', first⟩ := h.read within read
    obtain ⟨after, second⟩ := k.read within' then_
    exact ⟨after, first, second⟩

theorem left (h : p.Yields tokens P) (k : q.Passes tokens) : (p.left q).Yields tokens P :=
  (h.andThen k).map fun _ both => both.1

theorem right (h : p.Passes tokens) (k : q.Yields tokens Q) : (p.right q).Yields tokens Q :=
  (h.andThen k).map fun _ both => both.2

theorem orElse {p q : Reader α} (h : p.Yields tokens P) (k : q.Yields tokens P) :
    (p <|> q).Yields tokens P where
  read within found := by
    rcases orElse_some found with read | ⟨_, read⟩
    · exact h.read within read
    · exact k.read within read

theorem located (h : p.Yields tokens P) : p.located.Yields tokens fun a => P a.node where
  read within found := by
    obtain ⟨⟨a, e⟩, read, eq⟩ := Option.map_eq_some_iff.mp found
    cases eq
    exact h.read within read

theorem followedBy {q : Sweeper β} (h : p.Yields tokens P) (k : q.Yields tokens Q) :
    (p.followedBy q).Yields tokens fun ab => P ab.1 ∧ Q ab.2 where
  read within found := by
    rw [followedBy_result] at found
    obtain ⟨⟨a, d⟩, read, eq⟩ := Option.map_eq_some_iff.mp found
    cases eq
    obtain ⟨within', first⟩ := h.read within read
    obtain ⟨after, second⟩ := k.read within'
    exact ⟨after, first, second⟩

theorem optional (h : p.Yields tokens P) :
    p.optional.Yields tokens fun a => ∀ b ∈ a, P b where
  read {c} within := by
    cases first : (p.run c).result with
    | none => simpa [Reader.optional, first] using within
    | some out => simpa [Reader.optional, first] using h.read within first

/-- Things one after the other, by induction on the repetition. -/
theorem many (h : p.Yields tokens P) : p.many.Yields tokens fun as => ∀ a ∈ as, P a where
  read {c} within := by
    change (p.repeatedly c).cursor.rest <:+ tokens ∧ ∀ a ∈ (p.repeatedly c).value, P a
    fun_induction repeatedly p c with
    | case1 c _ => exact ⟨within, fun _ mem => absurd mem List.not_mem_nil⟩
    | case2 c a d read _ rest ih =>
        obtain ⟨within', first⟩ := h.read within read
        obtain ⟨after, others⟩ := ih within'
        exact ⟨after, List.forall_mem_cons.mpr ⟨first, others⟩⟩

theorem separatedBy (h : p.Yields tokens P) (k : q.Passes tokens) :
    (p.separatedBy q).Yields tokens fun as => ∀ a ∈ as, P a :=
  (h.followedBy (k.right h).many).map fun _ both => List.forall_mem_cons.mpr both

end Yields
end Reader
end Yields

theorem Atom.Written.ne_nil {a : Atom} {taken : List TokenKind} (h : a.Written taken) :
    taken ≠ [] := by
  cases h <;> exact List.cons_ne_nil _ _

namespace Grammar

open Reader

variable {tokens : List Token}

/-- What a reader of atoms reads stands where it began to read. -/
theorem standsIn_of_reads {p : Reader Atom} (reads : p.Reads Atom.Written)
    (bare : p.Bare (fun _ => True) 0) {c d : Cursor} {a : Atom} (within : c.rest <:+ tokens)
    (found : (p.run c).result = some (a, d)) : a.StandsIn tokens c.start := by
  obtain ⟨taken, kinds, written⟩ := reads c a d found
  obtain ⟨passed, split⟩ := (bare.reaches found).suffix
  obtain ⟨before, whole⟩ := within
  have same : passed.map Token.kind = taken := by
    rw [Cursor.kinds, Cursor.kinds, ← split, List.map_append] at kinds
    exact List.append_cancel_right kinds
  cases passed with
  | nil => exact absurd same.symm written.ne_nil
  | cons t passed =>
      refine ⟨before, t, passed, d.rest, ?_, ?_, same ▸ written⟩
      · rw [← whole, ← split]
        rfl
      · rw [Cursor.start, ← split]
        rfl

theorem yields_located {p : Reader Atom} (reads : p.Reads Atom.Written)
    (bare : p.Bare (fun _ => True) 0) :
    p.located.Yields tokens fun a => a.node.StandsIn tokens a.span.start where
  read within found := by
    obtain ⟨⟨a, e⟩, read, eq⟩ := Option.map_eq_some_iff.mp found
    cases eq
    exact ⟨(bare.passes.read within read).1, standsIn_of_reads reads bare within read⟩

theorem passes_mark (m : Mark) : (mark m).Passes tokens := (places_mark m).passes

theorem yields_keyGroup :
    keyGroup.Yields tokens fun keys => ∀ key ∈ keys, key.node.StandsIn tokens key.span.start := by
  apply Yields.left
  · apply (passes_mark _).right
    exact (yields_located reads_atom bare_atom).separatedBy (passes_mark _)
  · exact passes_mark _

/-- The base of an operand begins where the operand does. -/
theorem yields_operand : operand.Yields tokens (Operand.StandsIn tokens) where
  read {c o d} within found := by
    simp only [operand, located_result, map_result, followedBy_result, Option.map_map] at found
    obtain ⟨⟨base, e⟩, read, eq⟩ := Option.map_eq_some_iff.mp found
    cases eq
    obtain ⟨after, keys⟩ := yields_keyGroup.many.read (bare_atom.passes.read within read).1
    refine ⟨after, List.forall_mem_cons.mpr ⟨?_, List.forall_mem_map.mpr fun key mem => ?_⟩⟩
    · exact standsIn_of_reads reads_atom bare_atom within read
    · obtain ⟨group, isGroup, isKey⟩ := List.mem_flatten.mp mem
      exact keys group isGroup key isKey

theorem yields_value :
    value.Yields tokens fun v => ∀ o ∈ v.operands, Operand.StandsIn tokens o := by
  have operand : operand.Yields tokens (Operand.StandsIn tokens) := yields_operand
  have word (text : String) : (keyword text).Passes tokens := (bare_keyword text).passes
  unfold value
  apply Yields.orElse
  · refine ((passes_mark _).right (yields_located reads_typeName (places_accept rfl))).map ?_
    intro type stands
    exact List.forall_mem_singleton.mpr (List.forall_mem_singleton.mpr stands)
  apply Yields.orElse
  · exact ((word _).right bare_name.passes).map fun _ _ => nofun
  apply Yields.orElse
  · exact ((word _).right operand).map fun _ stands => List.forall_mem_singleton.mpr stands
  apply Yields.orElse
  · exact ((word _).right operand).map fun _ stands => List.forall_mem_singleton.mpr stands
  apply Yields.orElse
  · have op : binaryOp.Passes tokens := (places_accept rfl).passes
    refine ((operand.andThen op).andThen operand).map fun _ both => ?_
    exact List.forall_mem_cons.mpr ⟨both.1.1, List.forall_mem_singleton.mpr both.2⟩
  apply Yields.orElse
  · exact operand.map fun _ stands => List.forall_mem_singleton.mpr stands
  · have op : unaryOp.Passes tokens := (places_accept rfl).passes
    exact (op.andThen operand).map fun _ both => List.forall_mem_singleton.mpr both.2

theorem yields_condition :
    condition.Yields tokens fun v => ∀ o ∈ v.operands, Operand.StandsIn tokens o := by
  have op : relation.Passes tokens := (places_accept rfl).passes
  apply Yields.orElse
  · refine ((yields_operand.andThen op).andThen yields_operand).map fun _ both => ?_
    exact List.forall_mem_cons.mpr ⟨both.1.1, List.forall_mem_singleton.mpr both.2⟩
  · exact yields_operand.map fun _ stands => List.forall_mem_singleton.mpr stands

theorem yields_conditional : conditional.Yields tokens (Statement.StandsIn tokens) := by
  have word (m : Mark) (negated : Bool) : ((mark m).map fun _ => negated).Passes tokens :=
    (passes_mark m).map fun _ _ => trivial
  have test := ((word .ifWord false).orElse (word .unlessWord true)).andThen yields_condition
  exact ((test.left (passes_mark .gotoWord)).andThen bare_name.passes).map fun _ both => both.1.2

theorem passes_mnemonic : mnemonic.Passes tokens := by
  have word (m : Mark) (text : String) : ((mark m).map fun _ => text).Passes tokens :=
    (passes_mark m).map fun _ _ => trivial
  exact bare_name.passes.orElse ((word _ _).orElse ((word _ _).orElse (word _ _)))

theorem yields_instruction : instruction.Yields tokens (Statement.StandsIn tokens) := by
  have comma : (mark .comma).Passes tokens := passes_mark .comma
  have operands := yields_operand.separatedBy comma
  refine (passes_mnemonic.followedBy operands.optional).map ?_
  rintro ⟨text, _ | operands⟩ ⟨_, stand⟩
  · nofun
  · exact stand _ rfl

theorem yields_statement : statement.Yields tokens (Statement.StandsIn tokens) := by
  have name : name.Passes tokens := bare_name.passes
  have word (text : String) : (directive text).Passes tokens := (bare_directive text).passes
  unfold statement
  apply Yields.orElse
  · exact ((word _).right name).map fun _ _ => nofun
  apply Yields.orElse
  · exact (word _).map fun _ _ => nofun
  apply Yields.orElse
  · exact (((word _).right name).andThen name).map fun _ _ => nofun
  apply Yields.orElse
  · exact ((passes_mark _).right name).map fun _ _ => nofun
  apply Yields.orElse
  · exact yields_conditional
  apply Yields.orElse
  · exact ((bare_keyword _).passes.right name).map fun _ _ => nofun
  apply Yields.orElse
  · refine ((yields_operand.left (passes_mark _)).andThen yields_value).map fun _ both => ?_
    exact List.forall_mem_cons.mpr both
  · exact yields_instruction

theorem yields_line :
    line.Yields tokens fun statements => ∀ s ∈ statements, s.node.StandsIn tokens := by
  have statement : statement.located.Yields tokens fun s => s.node.StandsIn tokens :=
    yields_statement.located
  have labelled : labelled.Yields tokens fun statements =>
      ∀ s ∈ statements, s.node.StandsIn tokens := by
    apply Yields.orElse
    · have label : ((name.left (mark .colon)).map Statement.label).located.Yields tokens
          fun s => s.node.StandsIn tokens :=
        ((bare_name.passes.left (passes_mark _)).map fun _ _ => nofun).located
      refine (label.followedBy statement.optional).map ?_
      rintro ⟨label, _ | s⟩ ⟨first, second⟩
      · exact List.forall_mem_singleton.mpr first
      · exact List.forall_mem_cons.mpr ⟨first, List.forall_mem_singleton.mpr (second _ rfl)⟩
    · exact statement.map fun _ stands => List.forall_mem_singleton.mpr stands
  constructor
  intro c statements d within found
  rw [line_result] at found
  exact labelled.read within (Option.filter_eq_some_iff.mp found).1

end Grammar

namespace Reading

variable {tokens : List Token}

theorem newlines_within {c : Cursor} (within : c.rest <:+ tokens) :
    (newlines c).cursor.rest <:+ tokens := by
  revert within
  refine newlines_induction (P := fun c d => c.rest <:+ tokens → d.rest <:+ tokens) ?_ ?_ c
  · exact fun c within => within
  · exact fun stop t rest d _ ih within => ih ((List.suffix_cons t rest).trans within)

/-- The statements of the lines stand in the tokens, by induction on the reading. -/
theorem lines_standIn (c : Cursor) (complaint : Option Complaint) (within : c.rest <:+ tokens) :
    ∀ s ∈ (lines c complaint).statements, s.node.StandsIn tokens := by
  fun_induction lines c complaint with
  | case1 c complaint attempt noted first d found _ _ gap rest ih =>
      obtain ⟨after, stand⟩ := Grammar.yields_line.read within found
      exact List.forall_mem_append.mpr ⟨stand, ih (newlines_within after)⟩
  | case2 c complaint attempt noted failed first d misses retried _ _ gap rest ih =>
      obtain ⟨e, reached, read⟩ := reaches_of_retry retried
      have found : (Grammar.line.run e).result = some (first, d) := by rw [read]
      obtain ⟨after, stand⟩ := Grammar.yields_line.read (reached.suffix.trans within) found
      exact List.forall_mem_append.mpr ⟨stand, ih (newlines_within after)⟩
  | case3 => exact fun _ mem => absurd mem List.not_mem_nil

theorem ofTokens_standIn (tokens : List Token) :
    ∀ s ∈ (ofTokens tokens).statements, s.node.StandsIn tokens :=
  lines_standIn _ _ (newlines_within (List.suffix_refl tokens))

end Reading

end OpSelect
