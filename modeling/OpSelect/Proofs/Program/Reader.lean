import Mathlib.Data.List.Basic
import OpSelect.Program.Reader

/-!
Readers seen from outside: the result of each combinator, apart from its misses, and the tokens
that a successful reader has taken, as a relation between them and what was read. A reader that
fails says why.
-/

namespace OpSelect

/-- The kinds of the tokens still to be read. -/
def Cursor.kinds (c : Cursor) : List TokenKind := c.rest.map Token.kind

namespace Reader

variable {α β : Type} {p : Reader α} {q : Reader β} {c d : Cursor}

section Results

@[simp] theorem accept_result_nil (e : Expectation) (f : TokenKind → Option α) (stop : Nat) :
    ((accept e f).run ⟨stop, []⟩).result = none := rfl

@[simp] theorem accept_result_cons (e : Expectation) (f : TokenKind → Option α) (stop : Nat)
    (t : Token) (rest : List Token) :
    ((accept e f).run ⟨stop, t :: rest⟩).result =
      (f t.kind).map fun a => (a, ⟨t.span.stop, rest⟩) := by
  cases chosen : f t.kind <;> simp [accept, chosen]

@[simp] theorem map_result (f : α → β) (p : Reader α) (c : Cursor) :
    ((p.map f).run c).result = (p.run c).result.map fun (a, d) => (f a, d) := rfl

@[simp] theorem andThen_result (p : Reader α) (q : Reader β) (c : Cursor) :
    ((p.andThen q).run c).result =
      (p.run c).result.bind fun (a, d) => (q.run d).result.map fun (b, e) => ((a, b), e) := by
  cases first : (p.run c).result <;> simp [andThen, first]

@[simp] theorem followedBy_result (p : Reader α) (q : Sweeper β) (c : Cursor) :
    ((p.followedBy q).run c).result =
      (p.run c).result.map fun (a, d) => ((a, (q.run d).value), (q.run d).cursor) := by
  cases first : (p.run c).result <;> simp [followedBy, first]

@[simp] theorem orElse_result (p q : Reader α) (c : Cursor) :
    ((p <|> q).run c).result = (p.run c).result.or (q.run c).result := by
  change ((p.orElse q).run c).result = _
  cases first : (p.run c).result <;> simp [orElse, first]

@[simp] theorem located_result (p : Reader α) (c : Cursor) :
    (p.located.run c).result =
      (p.run c).result.map fun (a, d) => (⟨a, ⟨c.start, d.stop⟩⟩, d) := rfl

theorem orElse_some {p q : Reader α} {out : α × Cursor}
    (h : ((p <|> q).run c).result = some out) :
    (p.run c).result = some out ∨ (p.run c).result = none ∧ (q.run c).result = some out := by
  rw [orElse_result] at h
  exact Option.or_eq_some_iff.mp h

end Results

/-- Whatever the reader takes is related to what it reads. -/
def Reads (p : Reader α) (R : α → List TokenKind → Prop) : Prop :=
  ∀ c a d, (p.run c).result = some (a, d) → ∃ taken, c.kinds = taken ++ d.kinds ∧ R a taken

/-- Things one after the other. -/
inductive Each (R : α → List TokenKind → Prop) : List α → List TokenKind → Prop where
  | nil : Each R [] []
  | cons {a : α} {as : List α} {first rest : List TokenKind} (head : R a first)
      (tail : Each R as rest) : Each R (a :: as) (first ++ rest)

/-- Things with a separator between them. -/
def Separated (separator : TokenKind) (R : α → List TokenKind → Prop) :
    List α → List TokenKind → Prop
  | [], _ => False
  | a :: as, taken => ∃ first rest, taken = first ++ rest ∧ R a first ∧
      Each (fun b kinds => ∃ more, kinds = separator :: more ∧ R b more) as rest

variable {R : α → List TokenKind → Prop} {S : β → List TokenKind → Prop}

theorem Each.mono {R' : α → List TokenKind → Prop} {as : List α} {taken : List TokenKind}
    (h : Each R as taken) (weaker : ∀ a kinds, R a kinds → R' a kinds) : Each R' as taken := by
  induction h with
  | nil => exact .nil
  | cons head _ ih => exact .cons (weaker _ _ head) ih

theorem Each.singleton {a : α} {taken : List TokenKind} (h : R a taken) : Each R [a] taken := by
  rw [← List.append_nil taken]
  exact .cons h .nil

theorem Each.append {as bs : List α} {first second : List TokenKind} (h : Each R as first)
    (k : Each R bs second) : Each R (as ++ bs) (first ++ second) := by
  induction h with
  | nil => exact k
  | cons head _ ih =>
      rw [List.append_assoc]
      exact .cons head ih

/-- What holds of all tokens of the things holds of all tokens. -/
theorem Each.all {P : TokenKind → Prop} {as : List α} {taken : List TokenKind}
    (h : Each R as taken) (each : ∀ a kinds, R a kinds → ∀ kind ∈ kinds, P kind) :
    ∀ kind ∈ taken, P kind := by
  induction h with
  | nil => exact fun _ mem => absurd mem List.not_mem_nil
  | cons head tail ih =>
      intro kind mem
      rcases List.mem_append.mp mem with mem | mem
      · exact each _ _ head kind mem
      · exact ih kind mem

theorem Separated.all {P : TokenKind → Prop} {separator : TokenKind} {as : List α}
    {taken : List TokenKind} (h : Separated separator R as taken) (separates : P separator)
    (each : ∀ a kinds, R a kinds → ∀ kind ∈ kinds, P kind) : ∀ kind ∈ taken, P kind := by
  cases as with
  | nil => exact h.elim
  | cons a as =>
      obtain ⟨first, rest, rfl, head, tail⟩ := h
      intro kind mem
      rcases List.mem_append.mp mem with mem | mem
      · exact each a first head kind mem
      · refine tail.all ?_ kind mem
        rintro b kinds ⟨more, rfl, related⟩ kind (_ | ⟨_, mem⟩)
        · exact separates
        · exact each b more related kind mem

theorem Reads.mono {R' : α → List TokenKind → Prop} (h : p.Reads R)
    (weaker : ∀ a taken, R a taken → R' a taken) : p.Reads R' := by
  intro c a d result
  obtain ⟨taken, split, related⟩ := h c a d result
  exact ⟨taken, split, weaker a taken related⟩

theorem reads_accept {e : Expectation} {f : TokenKind → Option α} :
    (accept e f).Reads fun a taken => ∃ kind, taken = [kind] ∧ f kind = some a := by
  intro c a d result
  obtain ⟨stop, rest⟩ := c
  cases rest with
  | nil => cases result
  | cons t rest =>
      rw [accept_result_cons] at result
      obtain ⟨b, chosen, same⟩ := Option.map_eq_some_iff.mp result
      cases same
      exact ⟨[t.kind], rfl, t.kind, rfl, chosen⟩

theorem reads_token {kind : TokenKind} : (token kind).Reads fun _ taken => taken = [kind] := by
  refine reads_accept.mono ?_
  rintro _ taken ⟨k, rfl, chosen⟩
  by_cases same : k = kind
  · rw [same]
  · simp [same] at chosen

theorem reads_mark {m : Mark} : (mark m).Reads fun _ taken => taken = [.mark m] := reads_token

theorem Reads.map {f : α → β} (h : p.Reads R) (image : ∀ a taken, R a taken → S (f a) taken) :
    (p.map f).Reads S := by
  intro c b d result
  rw [map_result] at result
  obtain ⟨⟨a, e⟩, read, same⟩ := Option.map_eq_some_iff.mp result
  cases same
  obtain ⟨taken, split, related⟩ := h c a d read
  exact ⟨taken, split, image a taken related⟩

theorem Reads.located (h : p.Reads R) : p.located.Reads fun a taken => R a.node taken := by
  intro c b d result
  rw [located_result] at result
  obtain ⟨⟨a, e⟩, read, same⟩ := Option.map_eq_some_iff.mp result
  cases same
  exact h c a d read

theorem Reads.andThen (h : p.Reads R) (k : q.Reads S) :
    (p.andThen q).Reads fun ab taken =>
      ∃ first second, taken = first ++ second ∧ R ab.1 first ∧ S ab.2 second := by
  intro c ab e result
  rw [andThen_result] at result
  obtain ⟨⟨a, d⟩, read, next⟩ := Option.bind_eq_some_iff.mp result
  obtain ⟨⟨b, e'⟩, then_, same⟩ := Option.map_eq_some_iff.mp next
  cases same
  obtain ⟨first, split, related⟩ := h c a d read
  obtain ⟨second, split', related'⟩ := k d b e then_
  exact ⟨first ++ second, by rw [split, split', List.append_assoc], first, second, rfl, related,
    related'⟩

theorem Reads.left_mark {m : Mark} (h : p.Reads R) :
    (p.left (mark m)).Reads fun a taken => ∃ first, taken = first ++ [.mark m] ∧ R a first := by
  refine (h.andThen reads_mark).map ?_
  rintro ab taken ⟨first, second, rfl, related, rfl⟩
  exact ⟨first, rfl, related⟩

theorem Reads.token_right {kind : TokenKind} (h : p.Reads R) :
    ((token kind).right p).Reads fun a taken => ∃ rest, taken = kind :: rest ∧ R a rest := by
  refine (reads_token.andThen h).map ?_
  rintro ab taken ⟨first, second, rfl, rfl, related⟩
  exact ⟨second, rfl, related⟩

theorem Reads.mark_right {m : Mark} (h : p.Reads R) :
    ((mark m).right p).Reads fun a taken => ∃ rest, taken = .mark m :: rest ∧ R a rest :=
  h.token_right

theorem Reads.orElse {p q : Reader α} (h : p.Reads R) (k : q.Reads R) : (p <|> q).Reads R := by
  intro c a d result
  rcases orElse_some result with read | ⟨_, read⟩
  · exact h c a d read
  · exact k c a d read

/-- What is taken by repetition, by induction on the repetition. -/
theorem Reads.repeatedly (h : p.Reads R) (c : Cursor) :
    ∃ taken, c.kinds = taken ++ (p.repeatedly c).cursor.kinds ∧
      Each R (p.repeatedly c).value taken := by
  fun_induction Reader.repeatedly p c with
  | case1 c failed => exact ⟨[], rfl, .nil⟩
  | case2 c a d read shorter rest ih =>
      obtain ⟨first, split, related⟩ := h c a d read
      obtain ⟨more, split', all⟩ := ih
      exact ⟨first ++ more, by rw [split, split', List.append_assoc], .cons related all⟩

theorem Reads.followedBy_many (h : p.Reads R) (k : q.Reads S) :
    (p.followedBy q.many).Reads fun ab taken =>
      ∃ first rest, taken = first ++ rest ∧ R ab.1 first ∧ Each S ab.2 rest := by
  intro c ab e result
  rw [followedBy_result] at result
  obtain ⟨⟨a, d⟩, read, same⟩ := Option.map_eq_some_iff.mp result
  cases same
  obtain ⟨first, split, related⟩ := h c a d read
  obtain ⟨rest, split', all⟩ := k.repeatedly d
  exact ⟨first ++ rest, by rw [split, split', List.append_assoc]; rfl, first, rest, rfl, related,
    all⟩

theorem Reads.followedBy_optional (h : p.Reads R) (k : q.Reads S) :
    (p.followedBy q.optional).Reads fun ab taken =>
      ∃ first rest, taken = first ++ rest ∧ R ab.1 first ∧
        (ab.2 = none ∧ rest = [] ∨ ∃ b, ab.2 = some b ∧ S b rest) := by
  intro c ab e result
  rw [followedBy_result] at result
  obtain ⟨⟨a, d⟩, read, same⟩ := Option.map_eq_some_iff.mp result
  cases same
  obtain ⟨first, split, related⟩ := h c a d read
  cases next : (q.run d).result with
  | none =>
      have nothing : q.optional.run d = ⟨none, d, (q.run d).misses⟩ := by
        simp [optional, next]
      rw [nothing]
      exact ⟨first, split, first, [], (List.append_nil _).symm, related, .inl ⟨rfl, rfl⟩⟩
  | some out =>
      obtain ⟨b, e⟩ := out
      have something : q.optional.run d = ⟨some b, e, (q.run d).misses⟩ := by
        simp [optional, next]
      rw [something]
      obtain ⟨rest, split', related'⟩ := k d b e next
      exact ⟨first ++ rest, by rw [split, split', List.append_assoc], first, rest, rfl, related,
        .inr ⟨b, rfl, related'⟩⟩

theorem Reads.separatedBy {m : Mark} (h : p.Reads R) :
    (p.separatedBy (mark m)).Reads (Separated (.mark m) R) :=
  (h.followedBy_many h.mark_right).map fun _ _ related => related

/-- A reader that fails has a miss to show. -/
def Complains (p : Reader α) : Prop := ∀ c, (p.run c).result = none → (p.run c).misses ≠ []

theorem complains_accept {e : Expectation} {f : TokenKind → Option α} :
    (accept e f).Complains := by
  intro c failed
  obtain ⟨stop, rest⟩ := c
  cases rest with
  | nil => exact List.cons_ne_nil _ _
  | cons t rest =>
      cases chosen : f t.kind with
      | none => simp [accept, chosen]
      | some a => simp [chosen] at failed

theorem complains_token {kind : TokenKind} : (token kind).Complains := by
  unfold token
  exact complains_accept

theorem Complains.map {f : α → β} (h : p.Complains) : (p.map f).Complains :=
  fun c failed => h c (Option.map_eq_none_iff.mp failed)

theorem Complains.located (h : p.Complains) : p.located.Complains :=
  fun c failed => h c (Option.map_eq_none_iff.mp failed)

theorem Complains.followedBy {q : Sweeper β} (h : p.Complains) : (p.followedBy q).Complains := by
  intro c failed
  cases first : (p.run c).result with
  | none =>
      have said := h c first
      simpa [Reader.followedBy, first] using said
  | some out => simp [first] at failed

theorem Complains.orElse {p q : Reader α} (k : q.Complains) : (p <|> q).Complains := by
  intro c failed
  rw [orElse_result] at failed
  obtain ⟨first, second⟩ := Option.or_eq_none_iff.mp failed
  have said := k c second
  change ((p.orElse q).run c).misses ≠ []
  simp [Reader.orElse, first, said]

end Reader
end OpSelect
