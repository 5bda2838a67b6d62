import OpSelect.Program.Complaint

/-!
Readers of token sequences. A reader takes tokens from the front or fails, and
lists the misses of everything that it tried on the way. Its result never depends
on misses, neither its own nor earlier ones. A reader that succeeds has taken a
token, so repetition ends.
-/

namespace OpSelect

/-- A place between tokens: those still to be read, and where the last one read ends. -/
structure Cursor where
  stop : Nat
  rest : List Token
deriving DecidableEq, Repr

namespace Cursor

/-- At the end of the input a miss points just behind the last token. -/
def miss (c : Cursor) (expected : Expectation) : Miss :=
  match c.rest with
  | [] => ⟨⟨c.stop, c.stop⟩, none, expected⟩
  | t :: _ => ⟨t.span, some t.kind, expected⟩

/-- Where the next token begins. -/
def start (c : Cursor) : Nat :=
  match c.rest with
  | [] => c.stop
  | t :: _ => t.span.start

end Cursor

/-- What became of an attempt to read. -/
structure Attempt (α : Type) where
  result : Option (α × Cursor)
  misses : List Miss

structure Reader (α : Type) where
  run : Cursor → Attempt α
  shortens : ∀ c a d, (run c).result = some (a, d) → d.rest.length < c.rest.length

/-- What became of a reading that cannot fail, but may take no token. -/
structure Sweep (α : Type) where
  value : α
  cursor : Cursor
  misses : List Miss

structure Sweeper (α : Type) where
  run : Cursor → Sweep α
  keeps : ∀ c, (run c).cursor.rest.length ≤ c.rest.length

namespace Reader

variable {α β : Type}

def accept (expected : Expectation) (choose : TokenKind → Option α) : Reader α where
  run c :=
    match c.rest with
    | [] => ⟨none, [c.miss expected]⟩
    | t :: rest =>
        match choose t.kind with
        | some a => ⟨some (a, ⟨t.span.stop, rest⟩), []⟩
        | none => ⟨none, [c.miss expected]⟩
  shortens := by
    intro c a d h
    split at h
    · simp at h
    · split at h
      · simp at h
        simp_all [← h.2]
      · simp at h

/-- Takes exactly this token. -/
def token (kind : TokenKind) : Reader Unit :=
  accept (.token kind) fun k => if k = kind then some () else none

def mark (m : Mark) : Reader Unit := token (.mark m)

def map (f : α → β) (p : Reader α) : Reader β where
  run c :=
    let first := p.run c
    ⟨first.result.map fun (a, d) => (f a, d), first.misses⟩
  shortens := by
    intro c b d h
    simp only [Option.map_eq_some_iff] at h
    obtain ⟨⟨a, e⟩, ha, he⟩ := h
    cases he
    exact p.shortens c a _ ha

/-- Reads one thing and then another. -/
def andThen (p : Reader α) (q : Reader β) : Reader (α × β) where
  run c :=
    let first := p.run c
    match first.result with
    | none => ⟨none, first.misses⟩
    | some (a, d) =>
        let second := q.run d
        ⟨second.result.map fun (b, e) => ((a, b), e), first.misses ++ second.misses⟩
  shortens := by
    intro c ab e h
    dsimp only at h
    split at h
    · simp at h
    · rename_i a d hd
      simp only [Option.map_eq_some_iff] at h
      obtain ⟨⟨b, e'⟩, hb, he⟩ := h
      cases he
      exact Nat.lt_trans (q.shortens d b _ hb) (p.shortens c a d hd)

def left (p : Reader α) (q : Reader β) : Reader α := (p.andThen q).map Prod.fst

def right (p : Reader α) (q : Reader β) : Reader β := (p.andThen q).map Prod.snd

/-- Reads one thing and then what a sweeper finds. -/
def followedBy (p : Reader α) (q : Sweeper β) : Reader (α × β) where
  run c :=
    let first := p.run c
    match first.result with
    | none => ⟨none, first.misses⟩
    | some (a, d) =>
        let second := q.run d
        ⟨some ((a, second.value), second.cursor), first.misses ++ second.misses⟩
  shortens := by
    intro c ab e h
    dsimp only at h
    split at h
    · simp at h
    · rename_i a d hd
      simp only [Option.some.injEq, Prod.mk.injEq] at h
      obtain ⟨-, rfl⟩ := h
      exact Nat.lt_of_le_of_lt (q.keeps d) (p.shortens c a d hd)

/-- Tries the second reader from the same place if the first one fails. -/
def orElse (p q : Reader α) : Reader α where
  run c :=
    let first := p.run c
    match first.result with
    | some out => ⟨some out, first.misses⟩
    | none =>
        let second := q.run c
        ⟨second.result, first.misses ++ second.misses⟩
  shortens := by
    intro c a d h
    dsimp only at h
    split at h
    · rename_i out hout
      cases h
      exact p.shortens c a d hout
    · exact q.shortens c a d h

instance : OrElse (Reader α) where
  orElse p q := p.orElse (q ())

/-- Adds the span from the first token taken to the last one. -/
def located (p : Reader α) : Reader (Located α) where
  run c :=
    let first := p.run c
    ⟨first.result.map fun (a, d) => (⟨a, ⟨c.start, d.stop⟩⟩, d), first.misses⟩
  shortens := by
    intro c b d h
    simp only [Option.map_eq_some_iff] at h
    obtain ⟨⟨a, e⟩, ha, he⟩ := h
    cases he
    exact p.shortens c a _ ha

/-- Reads as many things as there are, up to the first that fails. -/
def repeatedly (p : Reader α) (c : Cursor) : Sweep (List α) :=
  match h : (p.run c).result with
  | none => ⟨[], c, (p.run c).misses⟩
  | some (a, d) =>
      have := p.shortens c a d h
      let rest := p.repeatedly d
      ⟨a :: rest.value, rest.cursor, (p.run c).misses ++ rest.misses⟩
termination_by c.rest.length

theorem repeatedly_keeps (p : Reader α) (c : Cursor) :
    (p.repeatedly c).cursor.rest.length ≤ c.rest.length := by
  fun_induction repeatedly p c with
  | case1 c h => exact Nat.le_refl _
  | case2 c a d h lt rest ih => exact Nat.le_trans ih (Nat.le_of_lt lt)

def many (p : Reader α) : Sweeper (List α) := ⟨p.repeatedly, p.repeatedly_keeps⟩

/-- Takes the thing if it is there. -/
def optional (p : Reader α) : Sweeper (Option α) where
  run c :=
    let first := p.run c
    match first.result with
    | none => ⟨none, c, first.misses⟩
    | some (a, d) => ⟨some a, d, first.misses⟩
  keeps := by
    intro c
    dsimp only
    split
    · exact Nat.le_refl _
    · rename_i a d hd
      exact Nat.le_of_lt (p.shortens c a d hd)

/-- One or more things with a separator between them. A separator without a thing
after it is not taken. -/
def separatedBy (p : Reader α) (separator : Reader β) : Reader (List α) :=
  (p.followedBy (separator.right p).many).map fun (first, rest) => first :: rest

end Reader
end OpSelect
