import OpSelect.Proofs.Program.Reader

/-!
The outcome of a reader, told from the kinds of the tokens at the cursor: how far it goes and what
it reads, or that it fails. Spans and misses have no part in this.
-/

namespace OpSelect

/-- At these tokens the sweeper goes as far as `rest`, and what it finds has the property. -/
def Sweeper.Sweeps {β : Type} (q : Sweeper β) (kinds rest : List TokenKind) (Q : β → Prop) : Prop :=
  ∀ c : Cursor, c.kinds = kinds → (q.run c).cursor.kinds = rest ∧ Q (q.run c).value

namespace Reader

variable {α β : Type} {p : Reader α} {q : Reader β} {kinds middle rest : List TokenKind}
  {P : α → Prop} {Q : β → Prop}

/-- At these tokens the reader goes as far as `rest`, and what it reads has the property. -/
def Finds (p : Reader α) (kinds rest : List TokenKind) (P : α → Prop) : Prop :=
  ∀ c : Cursor, c.kinds = kinds →
    ∃ a d, (p.run c).result = some (a, d) ∧ d.kinds = rest ∧ P a

/-- At these tokens the reader fails. -/
def Fails (p : Reader α) (kinds : List TokenKind) : Prop :=
  ∀ c : Cursor, c.kinds = kinds → (p.run c).result = none

section Accept

variable {e : Expectation} {f : TokenKind → Option α} {kind : TokenKind}

theorem finds_accept {a : α} (h : f kind = some a) :
    (accept e f).Finds (kind :: rest) rest (· = a) := by
  rintro ⟨stop, tokens⟩ here
  obtain ⟨t, more, rfl, rfl, rfl⟩ := List.map_eq_cons_iff.mp here
  refine ⟨a, ⟨t.span.stop, more⟩, ?_, rfl, rfl⟩
  rw [accept_result_cons, h]
  rfl

theorem fails_accept (h : ∀ kind ∈ kinds.head?, f kind = none) : (accept e f).Fails kinds := by
  rintro ⟨stop, tokens⟩ rfl
  cases tokens with
  | nil => rfl
  | cons t more =>
      rw [accept_result_cons, h t.kind rfl]
      rfl

theorem finds_token : (token kind).Finds (kind :: rest) rest fun _ => True :=
  fun c here =>
    have ⟨a, d, found, ends, _⟩ := finds_accept (if_pos rfl) c here
    ⟨a, d, found, ends, trivial⟩

theorem fails_token (h : kinds.head? ≠ some kind) : (token kind).Fails kinds := by
  refine fails_accept fun other mem => if_neg ?_
  rintro rfl
  exact h mem

end Accept

theorem Finds.mono {P' : α → Prop} (h : p.Finds kinds rest P) (weaker : ∀ a, P a → P' a) :
    p.Finds kinds rest P' := by
  intro c here
  obtain ⟨a, d, found, ends, holds⟩ := h c here
  exact ⟨a, d, found, ends, weaker a holds⟩

theorem Finds.map {f : α → β} (h : p.Finds kinds rest P) (image : ∀ a, P a → Q (f a)) :
    (p.map f).Finds kinds rest Q := by
  intro c here
  obtain ⟨a, d, found, ends, holds⟩ := h c here
  refine ⟨f a, d, ?_, ends, image a holds⟩
  rw [map_result, found]
  rfl

theorem Fails.map {f : α → β} (h : p.Fails kinds) : (p.map f).Fails kinds := by
  intro c here
  rw [map_result, h c here]
  rfl

theorem Finds.located (h : p.Finds kinds rest P) :
    p.located.Finds kinds rest fun a => P a.node := by
  intro c here
  obtain ⟨a, d, found, ends, holds⟩ := h c here
  refine ⟨⟨a, ⟨c.start, d.stop⟩⟩, d, ?_, ends, holds⟩
  rw [located_result, found]
  rfl

theorem Fails.located (h : p.Fails kinds) : p.located.Fails kinds := by
  intro c here
  rw [located_result, h c here]
  rfl

theorem Finds.andThen (h : p.Finds kinds middle P) (k : q.Finds middle rest Q) :
    (p.andThen q).Finds kinds rest fun ab => P ab.1 ∧ Q ab.2 := by
  intro c here
  obtain ⟨a, d, found, ends, holds⟩ := h c here
  obtain ⟨b, e, then_, ends', holds'⟩ := k d ends
  refine ⟨(a, b), e, ?_, ends', holds, holds'⟩
  rw [andThen_result, found]
  dsimp only [Option.bind]
  rw [then_]
  rfl

theorem Fails.andThen (h : p.Fails kinds) : (p.andThen q).Fails kinds := by
  intro c here
  rw [andThen_result, h c here]
  rfl

theorem Finds.andThen_fails (h : p.Finds kinds middle P) (k : q.Fails middle) :
    (p.andThen q).Fails kinds := by
  intro c here
  obtain ⟨a, d, found, ends, _⟩ := h c here
  rw [andThen_result, found]
  dsimp only [Option.bind]
  rw [k d ends]
  rfl

theorem Finds.left (h : p.Finds kinds middle P) (k : q.Finds middle rest Q) :
    (p.left q).Finds kinds rest P :=
  (h.andThen k).map fun _ both => both.1

theorem Finds.right (h : p.Finds kinds middle P) (k : q.Finds middle rest Q) :
    (p.right q).Finds kinds rest Q :=
  (h.andThen k).map fun _ both => both.2

theorem Finds.orElse {p q : Reader α} (h : p.Finds kinds rest P) :
    (p <|> q).Finds kinds rest P := by
  intro c here
  obtain ⟨a, d, found, ends, holds⟩ := h c here
  refine ⟨a, d, ?_, ends, holds⟩
  rw [orElse_result, found]
  rfl

theorem Fails.orElse_finds {p q : Reader α} (h : p.Fails kinds) (k : q.Finds kinds rest P) :
    (p <|> q).Finds kinds rest P := by
  intro c here
  obtain ⟨a, d, found, ends, holds⟩ := k c here
  refine ⟨a, d, ?_, ends, holds⟩
  rw [orElse_result, h c here, found]
  rfl

theorem Fails.orElse {p q : Reader α} (h : p.Fails kinds) (k : q.Fails kinds) :
    (p <|> q).Fails kinds := by
  intro c here
  rw [orElse_result, h c here, k c here]
  rfl

section Sweeps

variable {sweeper : Sweeper β} {c d : Cursor} {a : α}

theorem Finds.followedBy (h : p.Finds kinds middle P) (k : sweeper.Sweeps middle rest Q) :
    (p.followedBy sweeper).Finds kinds rest fun ab => P ab.1 ∧ Q ab.2 := by
  intro c here
  obtain ⟨a, d, found, ends, holds⟩ := h c here
  obtain ⟨ends', holds'⟩ := k d ends
  refine ⟨(a, (sweeper.run d).value), (sweeper.run d).cursor, ?_, ends', holds, holds'⟩
  rw [followedBy_result, found]
  rfl

theorem Fails.followedBy (h : p.Fails kinds) : (p.followedBy sweeper).Fails kinds := by
  intro c here
  rw [followedBy_result, h c here]
  rfl

theorem Finds.optional (h : p.Finds kinds rest P) :
    p.optional.Sweeps kinds rest fun result => ∃ a, result = some a ∧ P a := by
  intro c here
  obtain ⟨a, d, found, ends, holds⟩ := h c here
  simp only [Reader.optional, found]
  exact ⟨ends, a, rfl, holds⟩

theorem Fails.optional (h : p.Fails kinds) : p.optional.Sweeps kinds kinds (· = none) := by
  intro c here
  simp only [Reader.optional, h c here]
  exact ⟨here, trivial⟩

theorem repeatedly_of_none (h : (p.run c).result = none) :
    (p.repeatedly c).cursor = c ∧ (p.repeatedly c).value = [] := by
  rw [repeatedly]
  split
  · exact ⟨rfl, rfl⟩
  · rename_i found
    rw [h] at found
    cases found

theorem repeatedly_of_some (h : (p.run c).result = some (a, d)) :
    (p.repeatedly c).cursor = (p.repeatedly d).cursor ∧
      (p.repeatedly c).value = a :: (p.repeatedly d).value := by
  rw [repeatedly]
  split
  · rename_i failed
    rw [h] at failed
    cases failed
  · rename_i found
    rw [h] at found
    cases found
    exact ⟨rfl, rfl⟩

/-- Things one after the other up to a place where there is no more. Each may depend on what
follows it. -/
theorem sweeps_each {W : β → List TokenKind → Prop} (ends : List TokenKind → Prop)
    {R : β → α → Prop} {things : List β} {taken : List TokenKind} (written : Each W things taken)
    (each : ∀ b kinds, W b kinds → ∀ more, ends more → p.Finds (kinds ++ more) more (R b))
    (next : ∀ b kinds, W b kinds → ∀ more, ends (kinds ++ more)) (last : ends rest)
    (stop : p.Fails rest) :
    p.many.Sweeps (taken ++ rest) rest (List.Forall₂ R things) := by
  induction written with
  | nil =>
      intro c here
      obtain ⟨cursor, value⟩ := repeatedly_of_none (stop c here)
      refine ⟨(congrArg Cursor.kinds cursor).trans here, ?_⟩
      change List.Forall₂ R [] (p.repeatedly c).value
      rw [value]
      exact .nil
  | @cons b things first later head tail ih =>
      intro c here
      rw [List.append_assoc] at here
      have follows : ends (later ++ rest) := by
        cases tail with
        | nil => exact last
        | cons head' tail' =>
            rw [List.append_assoc]
            exact next _ _ head' _
      obtain ⟨a, d, found, atNext, related⟩ := each b first head _ follows c here
      obtain ⟨cursor, value⟩ := repeatedly_of_some found
      obtain ⟨stops, others⟩ := ih d atNext
      refine ⟨(congrArg Cursor.kinds cursor).trans stops, ?_⟩
      change List.Forall₂ R (b :: things) (p.repeatedly c).value
      rw [value]
      exact .cons related others

/-- Things with a mark between them. -/
theorem finds_separated {W : β → List TokenKind → Prop} (ends : List TokenKind → Prop) {m : Mark}
    {R : β → α → Prop} {things : List β} {taken : List TokenKind}
    (written : Separated (.mark m) W things taken)
    (each : ∀ b kinds, W b kinds → ∀ more, ends more → p.Finds (kinds ++ more) more (R b))
    (next : ∀ more, ends (.mark m :: more)) (last : ends rest)
    (stop : rest.head? ≠ some (.mark m)) :
    (p.separatedBy (mark m)).Finds (taken ++ rest) rest (List.Forall₂ R things) := by
  cases things with
  | nil => exact written.elim
  | cons b things =>
      obtain ⟨first, later, rfl, head, tail⟩ := written
      have others : ((mark m).right p).many.Sweeps (later ++ rest) rest
          (List.Forall₂ R things) := by
        refine sweeps_each ends tail ?_ ?_ last (fails_token stop).andThen.map
        · rintro b' _ ⟨kinds, rfl, written⟩ more follows
          exact finds_token.right (each b' kinds written more follows)
        · rintro b' _ ⟨kinds, rfl, _⟩ more
          exact next _
      have follows : ends (later ++ rest) := by
        cases tail with
        | nil => exact last
        | cons head' tail' =>
            obtain ⟨kinds, rfl, _⟩ := head'
            exact next _
      rw [List.append_assoc]
      exact ((each b first head _ follows).followedBy others).map
        fun _ related => .cons related.1 related.2

/-- Things that are spelled one after the other. -/
theorem each_flatMap (spell : β → List TokenKind) (things : List β) :
    Each (fun b kinds => b ∈ things ∧ kinds = spell b) things (things.flatMap spell) := by
  suffices all : ∀ others ⊆ things,
      Each (fun b kinds => b ∈ things ∧ kinds = spell b) others (others.flatMap spell) from
    all things (List.Subset.refl _)
  intro others inside
  induction others with
  | nil => exact .nil
  | cons b others ih =>
      obtain ⟨mem, later⟩ := List.cons_subset.mp inside
      exact .cons ⟨mem, rfl⟩ (ih later)

theorem finds_separatedBy (ends : List TokenKind → Prop) {m : Mark} {spell : β → List TokenKind}
    {R : β → α → Prop} {b : β} {things : List β}
    (each : ∀ b' ∈ b :: things, ∀ more, ends more → p.Finds (spell b' ++ more) more (R b'))
    (next : ∀ more, ends (.mark m :: more)) (last : ends rest)
    (stop : rest.head? ≠ some (.mark m)) :
    (p.separatedBy (mark m)).Finds
      (spell b ++ things.flatMap (fun b' => .mark m :: spell b') ++ rest) rest
      (List.Forall₂ R (b :: things)) := by
  have later := each_flatMap (fun b' => .mark m :: spell b') things
  have written : Separated (.mark m) (fun b' kinds => b' ∈ b :: things ∧ kinds = spell b')
      (b :: things) (spell b ++ things.flatMap fun b' => .mark m :: spell b') := by
    refine ⟨_, _, rfl, ⟨List.mem_cons_self, rfl⟩, later.mono ?_⟩
    rintro b' _ ⟨mem, rfl⟩
    exact ⟨_, rfl, List.mem_cons_of_mem _ mem, rfl⟩
  refine finds_separated ends written ?_ next last stop
  rintro b' _ ⟨mem, rfl⟩
  exact each b' mem

end Sweeps

end Reader
end OpSelect
