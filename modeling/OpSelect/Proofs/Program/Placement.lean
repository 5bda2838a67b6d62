import OpSelect.Proofs.Program.Lines
import OpSelect.Proofs.Token.Row

/-!
Where readers go and where the things lie that they read. A reader moves over tokens of the line
and looks at no place that it has not moved to. The spans of what it reads stand in a row between
the first token taken and the last one, so those of operands lie within their statement and those
of keys within their operand.
-/

namespace OpSelect

namespace Cursor

/-- The cursor moves over tokens of the line. -/
inductive Reaches : Cursor → Cursor → Prop where
  | refl (c : Cursor) : Reaches c c
  | step {stop : Nat} {t : Token} {rest : List Token} {d : Cursor} (plain : t.kind ≠ .newline)
      (more : Reaches ⟨t.span.stop, rest⟩ d) : Reaches ⟨stop, t :: rest⟩ d

theorem Reaches.trans {c d e : Cursor} (h : c.Reaches d) (k : d.Reaches e) : c.Reaches e := by
  induction h with
  | refl => exact k
  | step plain _ ih => exact .step plain (ih k)

/-- The tokens to be read stand in a row behind the cursor. -/
structure Laid (allowed : Nat → Prop) (size : Nat) (c : Cursor) : Prop where
  stop : allowed c.stop
  row : InRow allowed c.stop (c.rest.map Token.span) size

variable {allowed : Nat → Prop} {size : Nat} {c d : Cursor}

theorem Laid.next {stop : Nat} {t : Token} {rest : List Token}
    (laid : Laid allowed size ⟨stop, t :: rest⟩) : Laid allowed size ⟨t.span.stop, rest⟩ :=
  have ⟨_, _, _, ends, more⟩ := laid.row
  ⟨ends, more⟩

theorem Laid.reached (laid : c.Laid allowed size) (h : c.Reaches d) : d.Laid allowed size := by
  induction h with
  | refl => exact laid
  | step _ _ ih => exact ih laid.next

theorem Laid.stop_le_start (laid : c.Laid allowed size) : c.stop ≤ c.start := by
  obtain ⟨stop, rest⟩ := c
  cases rest with
  | nil => exact Nat.le_refl _
  | cons t rest => exact laid.row.1

theorem Laid.allowed_start (laid : c.Laid allowed size) : allowed c.start := by
  obtain ⟨stop, rest⟩ := c
  cases rest with
  | nil => exact laid.stop
  | cons t rest => exact laid.row.2.2.1

theorem Laid.le_of_reaches (laid : c.Laid allowed size) (h : c.Reaches d) :
    c.stop ≤ d.stop ∧ c.start ≤ d.start := by
  induction h with
  | refl => exact ⟨Nat.le_refl _, Nat.le_refl _⟩
  | @step stop t rest d _ _ ih =>
      obtain ⟨stops, starts⟩ := ih laid.next
      have after := laid.next.stop_le_start
      obtain ⟨before, nonempty, _⟩ := laid.row
      dsimp only [Cursor.start] at *
      omega

/-- A cursor that moves passes the first token. -/
theorem Laid.eq_or_start_lt (laid : c.Laid allowed size) (h : c.Reaches d) :
    d = c ∨ c.start < d.stop := by
  cases h with
  | refl => exact .inl rfl
  | @step stop t rest _ _ more =>
      have passed := (laid.next.le_of_reaches more).1
      have nonempty : t.span.start < t.span.stop := laid.row.2.1
      exact .inr (Nat.lt_of_lt_of_le nonempty passed)

end Cursor

section Places

variable {α β : Type} {allowed : Nat → Prop} {size : Nat}

/-- The reader stays on the line, misses only where it has come to, and reads things whose spans
stand in a row and that have the property. -/
structure Reader.Places (allowed : Nat → Prop) (size : Nat) (p : Reader α)
    (spans : α → List Span) (P : α → Prop) : Prop where
  reaches {c a d} : (p.run c).result = some (a, d) → c.Reaches d
  misses {c m} : m ∈ (p.run c).misses → ∃ d e, c.Reaches d ∧ m = d.miss e
  row {c a d} : c.Laid allowed size → (p.run c).result = some (a, d) →
    InRow allowed c.start (spans a) d.stop
  holds {c a d} : c.Laid allowed size → (p.run c).result = some (a, d) → P a

/-- A reader of something that has no spans. -/
abbrev Reader.Bare (allowed : Nat → Prop) (size : Nat) (p : Reader α) : Prop :=
  p.Places allowed size (fun _ => []) fun _ => True

/-- The same for a sweeper. It may take nothing, so the row begins where the text before ends. -/
structure Sweeper.Places (allowed : Nat → Prop) (size : Nat) (q : Sweeper α)
    (spans : α → List Span) (P : α → Prop) : Prop where
  reaches (c : Cursor) : c.Reaches (q.run c).cursor
  misses {c m} : m ∈ (q.run c).misses → ∃ d e, c.Reaches d ∧ m = d.miss e
  row {c} : c.Laid allowed size →
    InRow allowed c.stop (spans (q.run c).value) (q.run c).cursor.stop
  holds {c} : c.Laid allowed size → P (q.run c).value

namespace Reader

variable {p : Reader α} {q : Reader β} {f : α → List Span} {g : β → List Span} {P : α → Prop}
  {Q : β → Prop}

theorem places_accept {e : Expectation} {choose : TokenKind → Option α}
    (h : choose .newline = none) :
    (accept e choose).Bare allowed size where
  reaches {c a d} found := by
    obtain ⟨stop, rest⟩ := c
    cases rest with
    | nil => cases found
    | cons t rest =>
        rw [accept_result_cons] at found
        obtain ⟨b, chosen, same⟩ := Option.map_eq_some_iff.mp found
        cases same
        refine .step ?_ (.refl _)
        intro newline
        rw [newline, h] at chosen
        cases chosen
  misses {c m} mem := by
    refine ⟨c, e, .refl c, ?_⟩
    obtain ⟨stop, rest⟩ := c
    cases rest with
    | nil => exact List.mem_singleton.mp mem
    | cons t rest =>
        cases chosen : choose t.kind with
        | none => simpa [accept, chosen] using mem
        | some a => simp [accept, chosen] at mem
  row {c a d} laid found := by
    obtain ⟨stop, rest⟩ := c
    cases rest with
    | nil => cases found
    | cons t rest =>
        rw [accept_result_cons] at found
        obtain ⟨b, chosen, same⟩ := Option.map_eq_some_iff.mp found
        cases same
        exact Nat.le_of_lt laid.row.2.1
  holds _ _ := trivial

theorem places_token {kind : TokenKind} (h : kind ≠ .newline) :
    (token kind).Bare allowed size :=
  places_accept (if_neg h.symm)

theorem places_mark (m : Mark) : (mark m).Bare allowed size := places_token nofun

namespace Places

theorem mono {g : α → List Span} {Q : α → Prop} (h : p.Places allowed size f P)
    (same : ∀ a, g a = f a) (weaker : ∀ a, P a → Q a) : p.Places allowed size g Q where
  reaches := h.reaches
  misses := h.misses
  row laid found := same _ ▸ h.row laid found
  holds laid found := weaker _ (h.holds laid found)

theorem map (h : p.Places allowed size f P) {k : α → β} (same : ∀ a, g (k a) = f a)
    (image : ∀ a, P a → Q (k a)) : (p.map k).Places allowed size g Q where
  reaches found := by
    obtain ⟨⟨a, d⟩, read, eq⟩ := Option.map_eq_some_iff.mp found
    cases eq
    exact h.reaches read
  misses := h.misses
  row laid found := by
    obtain ⟨⟨a, d⟩, read, eq⟩ := Option.map_eq_some_iff.mp found
    cases eq
    rw [same]
    exact h.row laid read
  holds laid found := by
    obtain ⟨⟨a, d⟩, read, eq⟩ := Option.map_eq_some_iff.mp found
    cases eq
    exact image a (h.holds laid read)

theorem andThen (h : p.Places allowed size f P) (k : q.Places allowed size g Q) :
    (p.andThen q).Places allowed size (fun ab => f ab.1 ++ g ab.2)
      (fun ab => P ab.1 ∧ Q ab.2) := by
  have inv {c ab e} (found : ((p.andThen q).run c).result = some (ab, e)) :
      ∃ d, (p.run c).result = some (ab.1, d) ∧ (q.run d).result = some (ab.2, e) := by
    rw [andThen_result] at found
    obtain ⟨⟨a, d⟩, read, next⟩ := Option.bind_eq_some_iff.mp found
    obtain ⟨⟨b, e'⟩, then_, eq⟩ := Option.map_eq_some_iff.mp next
    cases eq
    exact ⟨d, read, then_⟩
  constructor
  case reaches =>
    intro c ab e found
    obtain ⟨d, first, second⟩ := inv found
    exact (h.reaches first).trans (k.reaches second)
  case misses =>
    intro c m mem
    cases first : (p.run c).result with
    | none => exact h.misses (by simpa [Reader.andThen, first] using mem)
    | some out =>
        obtain ⟨a, d⟩ := out
        simp only [Reader.andThen, first, List.mem_append] at mem
        cases mem with
        | inl mem => exact h.misses mem
        | inr mem =>
            obtain ⟨d', e, reached, eq⟩ := k.misses mem
            exact ⟨d', e, (h.reaches first).trans reached, eq⟩
  case row =>
    intro c ab e laid found
    obtain ⟨d, first, second⟩ := inv found
    have laid' := laid.reached (h.reaches first)
    exact (h.row laid first).append ((k.row laid' second).widen laid'.stop_le_start (Nat.le_refl _))
  case holds =>
    intro c ab e laid found
    obtain ⟨d, first, second⟩ := inv found
    exact ⟨h.holds laid first, k.holds (laid.reached (h.reaches first)) second⟩

/-- What stands behind and has no spans of its own. -/
theorem left (h : p.Places allowed size f P) (k : q.Bare allowed size) :
    (p.left q).Places allowed size f P :=
  (h.andThen k).map (fun _ => (List.append_nil _).symm) fun _ both => both.1

/-- What stands in front and has no spans of its own. -/
theorem right (h : p.Bare allowed size) (k : q.Places allowed size g Q) :
    (p.right q).Places allowed size g Q :=
  (h.andThen k).map (fun _ => rfl) fun _ both => both.2

theorem orElse {p q : Reader α} (h : p.Places allowed size f P)
    (k : q.Places allowed size f P) : (p <|> q).Places allowed size f P where
  reaches found := by
    rcases orElse_some found with read | ⟨_, read⟩
    · exact h.reaches read
    · exact k.reaches read
  misses {c m} mem := by
    change m ∈ ((p.orElse q).run c).misses at mem
    cases first : (p.run c).result with
    | some out => exact h.misses (by simpa [Reader.orElse, first] using mem)
    | none =>
        simp only [Reader.orElse, first, List.mem_append] at mem
        exact mem.elim h.misses k.misses
  row laid found := by
    rcases orElse_some found with read | ⟨_, read⟩
    · exact h.row laid read
    · exact k.row laid read
  holds laid found := by
    rcases orElse_some found with read | ⟨_, read⟩
    · exact h.holds laid read
    · exact k.holds laid read

/-- The span of a thing holds the row of spans within the thing. -/
theorem located (h : p.Places allowed size f P) :
    p.located.Places allowed size (fun a => [a.span]) fun a =>
      InRow allowed a.span.start (f a.node) a.span.stop ∧ P a.node where
  reaches found := by
    obtain ⟨⟨a, d⟩, read, eq⟩ := Option.map_eq_some_iff.mp found
    cases eq
    exact h.reaches read
  misses := h.misses
  row {c b e} laid found := by
    obtain ⟨⟨a, d⟩, read, eq⟩ := Option.map_eq_some_iff.mp found
    cases eq
    have reached := h.reaches read
    have moved : c.start < e.stop := by
      rcases laid.eq_or_start_lt reached with rfl | moved
      · exact absurd (p.shortens _ a _ read) (Nat.lt_irrefl _)
      · exact moved
    exact ⟨Nat.le_refl _, moved, laid.allowed_start, (laid.reached reached).stop, Nat.le_refl _⟩
  holds laid found := by
    obtain ⟨⟨a, d⟩, read, eq⟩ := Option.map_eq_some_iff.mp found
    cases eq
    exact ⟨h.row laid read, h.holds laid read⟩

theorem followedBy {q : Sweeper β} (h : p.Places allowed size f P)
    (k : q.Places allowed size g Q) :
    (p.followedBy q).Places allowed size (fun ab => f ab.1 ++ g ab.2)
      (fun ab => P ab.1 ∧ Q ab.2) where
  reaches found := by
    rw [followedBy_result] at found
    obtain ⟨⟨a, d⟩, read, eq⟩ := Option.map_eq_some_iff.mp found
    cases eq
    exact (h.reaches read).trans (k.reaches d)
  misses {c m} mem := by
    cases first : (p.run c).result with
    | none => exact h.misses (by simpa [Reader.followedBy, first] using mem)
    | some out =>
        obtain ⟨a, d⟩ := out
        simp only [Reader.followedBy, first, List.mem_append] at mem
        cases mem with
        | inl mem => exact h.misses mem
        | inr mem =>
            obtain ⟨d', e, reached, eq⟩ := k.misses mem
            exact ⟨d', e, (h.reaches first).trans reached, eq⟩
  row laid found := by
    rw [followedBy_result] at found
    obtain ⟨⟨a, d⟩, read, eq⟩ := Option.map_eq_some_iff.mp found
    cases eq
    exact (h.row laid read).append (k.row (laid.reached (h.reaches read)))
  holds laid found := by
    rw [followedBy_result] at found
    obtain ⟨⟨a, d⟩, read, eq⟩ := Option.map_eq_some_iff.mp found
    cases eq
    exact ⟨h.holds laid read, k.holds (laid.reached (h.reaches read))⟩

theorem optional (h : p.Places allowed size f P) :
    p.optional.Places allowed size (fun a => a.toList.flatMap f) fun a => ∀ b ∈ a, P b where
  reaches c := by
    cases first : (p.run c).result with
    | none => simpa [Reader.optional, first] using Cursor.Reaches.refl c
    | some out => simpa [Reader.optional, first] using h.reaches first
  misses {c m} mem := by
    apply h.misses
    cases first : (p.run c).result with
    | none | some out => simpa [Reader.optional, first] using mem
  row {c} laid := by
    cases first : (p.run c).result with
    | none => simp [Reader.optional, first, InRow]
    | some out =>
        have row := (h.row laid first).widen laid.stop_le_start (Nat.le_refl _)
        simpa [Reader.optional, first] using row
  holds {c} laid := by
    cases first : (p.run c).result with
    | none => simp [Reader.optional, first]
    | some out => simpa [Reader.optional, first] using h.holds laid first

/-- Things one after the other, by induction on the repetition. -/
theorem many (h : p.Places allowed size f P) :
    p.many.Places allowed size (fun as => as.flatMap f) fun as => ∀ a ∈ as, P a := by
  constructor
  case reaches =>
    intro c
    change c.Reaches (p.repeatedly c).cursor
    fun_induction repeatedly p c with
    | case1 c _ => exact .refl c
    | case2 c a d read _ rest ih => exact (h.reaches read).trans ih
  case misses =>
    intro c m mem
    change m ∈ (p.repeatedly c).misses at mem
    fun_induction repeatedly p c with
    | case1 c _ => exact h.misses mem
    | case2 c a d read _ rest ih =>
        rcases List.mem_append.mp mem with mem | mem
        · exact h.misses mem
        · obtain ⟨d', e, reached, eq⟩ := ih mem
          exact ⟨d', e, (h.reaches read).trans reached, eq⟩
  case row =>
    intro c laid
    change InRow allowed c.stop ((p.repeatedly c).value.flatMap f) (p.repeatedly c).cursor.stop
    fun_induction repeatedly p c with
    | case1 c _ => exact Nat.le_refl _
    | case2 c a d read _ rest ih =>
        rw [List.flatMap_cons]
        have first := (h.row laid read).widen laid.stop_le_start (Nat.le_refl _)
        exact first.append (ih (laid.reached (h.reaches read)))
  case holds =>
    intro c laid
    change ∀ a ∈ (p.repeatedly c).value, P a
    fun_induction repeatedly p c with
    | case1 c _ =>
        intro a mem
        cases mem
    | case2 c a d read _ rest ih =>
        exact List.forall_mem_cons.mpr ⟨h.holds laid read, ih (laid.reached (h.reaches read))⟩

theorem separatedBy (h : p.Places allowed size f P) (k : q.Bare allowed size) :
    (p.separatedBy q).Places allowed size (fun as => as.flatMap f) fun as => ∀ a ∈ as, P a :=
  (h.followedBy (k.right h).many).map (fun _ => List.flatMap_cons) fun _ both =>
    List.forall_mem_cons.mpr both

end Places
end Reader
end Places

/-- The operands of a value as they are written. The type that `new` names is one. -/
def Value.operands : Value → List (Located Operand)
  | operand source | unary _ source | defined source | clone source => [source]
  | binary _ lhs rhs => [lhs, rhs]
  | new type => [⟨⟨type.node, []⟩, type.span⟩]
  | addr _ => []

def Condition.operands : Condition → List (Located Operand)
  | truth operand => [operand]
  | compare _ lhs rhs => [lhs, rhs]

/-- All operands of a statement as they are written, the target of an assignment first. -/
def Statement.operands : Statement → List (Located Operand)
  | openSub _ | closeSub | declare _ _ | label _ | jump _ | call _ => []
  | instruction _ operands => operands
  | assign target value => target :: value.operands
  | branch _ condition _ => condition.operands

/-- The keys of an operand stand in a row within it. -/
def Operand.Placed (allowed : Nat → Prop) (o : Located Operand) : Prop :=
  InRow allowed o.span.start (o.node.keys.map Located.span) o.span.stop

/-- The operands of a statement stand in a row within it, each with its keys. -/
structure Statement.Placed (allowed : Nat → Prop) (s : Located Statement) : Prop where
  row : InRow allowed s.span.start (s.node.operands.map Located.span) s.span.stop
  keys : ∀ o ∈ s.node.operands, Operand.Placed allowed o

/-- The reader places the operands of what it reads. -/
abbrev Reader.Carries {α : Type} (allowed : Nat → Prop) (size : Nat) (p : Reader α)
    (operands : α → List (Located Operand)) : Prop :=
  p.Places allowed size (fun a => (operands a).map Located.span) fun a =>
    ∀ o ∈ operands a, Operand.Placed allowed o

namespace Reader

variable {α β : Type} {allowed : Nat → Prop} {size : Nat} {p : Reader α} {q : Reader β}
  {f : α → List (Located Operand)} {g : β → List (Located Operand)}

theorem Places.carries (h : p.Bare allowed size) : p.Carries allowed size fun _ => [] :=
  h.mono (fun _ => rfl) fun _ _ => nofun

theorem Carries.map (h : p.Carries allowed size f) {k : α → β} (same : ∀ a, g (k a) = f a) :
    (p.map k).Carries allowed size g :=
  Places.map h (fun a => by rw [same]) fun a placed => same a ▸ placed

theorem Carries.andThen (h : p.Carries allowed size f) (k : q.Carries allowed size g) :
    (p.andThen q).Carries allowed size fun ab => f ab.1 ++ g ab.2 :=
  (Places.andThen h k).mono (fun _ => List.map_append) fun _ placed =>
    List.forall_mem_append.mpr placed

end Reader

namespace Grammar

open Reader

variable {allowed : Nat → Prop} {size : Nat}

theorem bare_keyword (text : String) : (keyword text).Bare allowed size := places_token nofun

theorem bare_directive (name : String) : (directive name).Bare allowed size := places_token nofun

theorem bare_name : name.Bare allowed size := places_accept rfl

theorem bare_atom : atom.Bare allowed size := by
  apply Places.orElse
  · exact places_accept rfl
  · exact (places_mark _).right (places_accept rfl)

theorem places_keyGroup :
    keyGroup.Places allowed size (fun keys => keys.map Located.span) fun _ => True := by
  apply Places.left
  · apply (places_mark _).right
    refine (bare_atom.located.separatedBy (places_mark _)).mono ?_ fun _ _ => trivial
    exact fun keys => List.map_eq_flatMap
  · exact places_mark _

theorem carries_operand : operand.Carries allowed size fun o => [o] := by
  have keyed : ((atom.followedBy keyGroup.many).map fun parts =>
      (⟨parts.1, parts.2.flatten⟩ : Operand)).Places allowed size
      (fun o => o.keys.map Located.span) fun _ => True := by
    refine (bare_atom.followedBy places_keyGroup.many).map (fun parts => ?_) fun _ _ => trivial
    exact List.map_flatten.trans List.flatMap_def.symm
  refine keyed.located.mono (fun _ => rfl) fun o placed => ?_
  exact List.forall_mem_singleton.mpr placed.1

theorem carries_value : value.Carries allowed size Value.operands := by
  have operand : operand.Carries allowed size fun o => [o] := carries_operand
  unfold value
  apply Places.orElse
  · have type : typeName.Bare allowed size := places_accept rfl
    refine ((places_mark _).right type.located).map (fun _ => rfl) fun type placed => ?_
    exact List.forall_mem_singleton.mpr placed.1
  apply Places.orElse
  · exact ((bare_keyword _).right bare_name).carries.map fun _ => rfl
  apply Places.orElse
  · exact Carries.map ((bare_keyword _).right operand) fun _ => rfl
  apply Places.orElse
  · exact Carries.map ((bare_keyword _).right operand) fun _ => rfl
  apply Places.orElse
  · have op : binaryOp.Bare allowed size := places_accept rfl
    exact ((operand.andThen op.carries).andThen operand).map fun _ => rfl
  apply Places.orElse
  · exact operand.map fun _ => rfl
  · have op : unaryOp.Bare allowed size := places_accept rfl
    exact (op.carries.andThen operand).map fun _ => rfl

theorem carries_condition : condition.Carries allowed size Condition.operands := by
  have operand : operand.Carries allowed size fun o => [o] := carries_operand
  have op : relation.Bare allowed size := places_accept rfl
  apply Places.orElse
  · exact ((operand.andThen op.carries).andThen operand).map fun _ => rfl
  · exact operand.map fun _ => rfl

theorem carries_conditional : conditional.Carries allowed size Statement.operands := by
  have word (m : Mark) (negated : Bool) :
      ((mark m).map fun _ => negated).Bare allowed size :=
    (places_mark m).map (fun _ => rfl) fun _ _ => trivial
  have test := ((word .ifWord false).orElse (word .unlessWord true)).carries.andThen
    carries_condition
  have jump := Carries.andThen (test.left (places_mark .gotoWord)) bare_name.carries
  exact jump.map fun _ => by simp [Statement.operands]

theorem carries_instruction : instruction.Carries allowed size Statement.operands := by
  have word (m : Mark) (text : String) : ((mark m).map fun _ => text).Bare allowed size :=
    (places_mark m).map (fun _ => rfl) fun _ _ => trivial
  have mnemonic : mnemonic.Bare allowed size :=
    bare_name.orElse ((word _ _).orElse ((word _ _).orElse (word _ _)))
  have operand : operand.Carries allowed size fun o => [o] := carries_operand
  have operands := operand.separatedBy (places_mark .comma)
  refine (mnemonic.followedBy operands.optional).map ?_ ?_
  · rintro ⟨text, _ | operands⟩
    · rfl
    · simp [Statement.operands, List.map_eq_flatMap]
  · rintro ⟨text, _ | operands⟩ ⟨_, placed⟩
    · nofun
    · simpa [Statement.operands] using placed

theorem carries_statement : statement.Carries allowed size Statement.operands := by
  have name : name.Bare allowed size := bare_name
  unfold statement
  apply Places.orElse
  · exact ((bare_directive _).right name).carries.map fun _ => rfl
  apply Places.orElse
  · exact (bare_directive _).carries.map fun _ => rfl
  apply Places.orElse
  · exact ((((bare_directive _).right name).carries).andThen name.carries).map fun _ => rfl
  apply Places.orElse
  · exact ((places_mark _).right name).carries.map fun _ => rfl
  apply Places.orElse
  · exact carries_conditional
  apply Places.orElse
  · exact ((bare_keyword _).right name).carries.map fun _ => rfl
  apply Places.orElse
  · exact (Carries.andThen (carries_operand.left (places_mark _)) carries_value).map fun _ => rfl
  · exact carries_instruction

theorem places_labelled :
    labelled.Places allowed size (fun statements => statements.map Located.span)
      fun statements => ∀ s ∈ statements, Statement.Placed allowed s := by
  have statement : statement.located.Places allowed size (fun s => [s.span])
      (Statement.Placed allowed) :=
    carries_statement.located.mono (fun _ => rfl) fun _ placed => ⟨placed.1, placed.2⟩
  apply Places.orElse
  · have label : ((name.left (mark .colon)).map Statement.label).located.Places allowed size
        (fun s => [s.span]) (Statement.Placed allowed) := by
      have bare : (name.left (mark .colon)).Bare allowed size := bare_name.left (places_mark _)
      have carries : ((name.left (mark .colon)).map Statement.label).Carries allowed size
          Statement.operands := bare.carries.map fun _ => rfl
      exact carries.located.mono (fun _ => rfl) fun _ placed => ⟨placed.1, placed.2⟩
    refine (label.followedBy statement.optional).map ?_ ?_
    · rintro ⟨label, _ | statement⟩ <;> rfl
    · rintro ⟨label, _ | statement⟩ ⟨first, second⟩
      · exact List.forall_mem_singleton.mpr first
      · exact List.forall_mem_cons.mpr ⟨first, List.forall_mem_singleton.mpr (second _ rfl)⟩
  · refine statement.map (fun _ => rfl) fun s placed => ?_
    exact List.forall_mem_singleton.mpr placed

theorem misses_of_lineEnd {c : Cursor} {m : Miss} (mem : m ∈ (lineEnd c).2) :
    ∃ e, m = c.miss e := by
  obtain ⟨stop, rest⟩ := c
  cases rest with
  | nil => exact ⟨_, List.mem_singleton.mp mem⟩
  | cons t rest =>
      by_cases newline : t.kind = .newline
      · simp [lineEnd, newline] at mem
      · simp only [lineEnd, newline, if_false, List.mem_cons, List.not_mem_nil, or_false] at mem
        exact mem.elim (fun eq => ⟨_, eq⟩) fun eq => ⟨_, eq⟩

theorem places_line :
    line.Places allowed size (fun statements => statements.map Located.span)
      fun statements => ∀ s ∈ statements, Statement.Placed allowed s := by
  have labelled : labelled.Places allowed size (fun statements => statements.map Located.span)
      fun statements => ∀ s ∈ statements, Statement.Placed allowed s := places_labelled
  have read {c statements d} (found : (line.run c).result = some (statements, d)) :
      (Grammar.labelled.run c).result = some (statements, d) := by
    rw [line_result] at found
    exact (Option.filter_eq_some_iff.mp found).1
  constructor
  case reaches => exact fun found => labelled.reaches (read found)
  case row => exact fun laid found => labelled.row laid (read found)
  case holds => exact fun laid found => labelled.holds laid (read found)
  case misses =>
    intro c m mem
    cases first : (Grammar.labelled.run c).result with
    | none => exact labelled.misses (by simpa [line, first] using mem)
    | some out =>
        obtain ⟨statements, d⟩ := out
        simp only [line, first, List.mem_append] at mem
        cases mem with
        | inl mem => exact labelled.misses mem
        | inr mem =>
            obtain ⟨e, eq⟩ := misses_of_lineEnd mem
            exact ⟨d, e, labelled.reaches first, eq⟩

end Grammar

namespace Reading

variable {allowed : Nat → Prop} {size : Nat} {c d : Cursor} {statements : List (Located Statement)}

/-- Recovery reads from a place further along the line. -/
theorem reaches_of_retry {misses : List Miss} (h : retry c.rest = some (statements, d, misses)) :
    ∃ e, c.Reaches e ∧ Grammar.line.run e = ⟨some (statements, d), misses⟩ := by
  obtain ⟨stop, rest⟩ := c
  change retry rest = _ at h
  fun_induction retry rest generalizing stop with
  | case1 | case2 => cases h
  | case3 t rest plain s e m read =>
      cases h
      exact ⟨⟨t.span.stop, rest⟩, .step plain (.refl _), read⟩
  | case4 t rest plain m failed ih =>
      obtain ⟨e, reached, read⟩ := ih t.span.stop h
      exact ⟨e, .step plain reached, read⟩

/-- Looking for newlines ends with one miss, behind them. -/
theorem misses_newlines (c : Cursor) :
    (newlines c).misses = [(newlines c).cursor.miss (.token .newline)] := by
  unfold newlines
  fun_induction Reader.repeatedly (Reader.token .newline) c with
  | case1 c failed =>
      obtain ⟨stop, rest⟩ := c
      cases rest with
      | nil => rfl
      | cons t rest =>
          by_cases newline : t.kind = .newline
          · simp [Reader.token, newline] at failed
          · simp [Reader.token, Reader.accept, newline]
  | case2 c a d found shorter others ih =>
      obtain ⟨stop, rest⟩ := c
      cases rest with
      | nil => cases found
      | cons t rest =>
          have newline : t.kind = .newline := by
            by_contra other
            simp [Reader.token, other] at found
          have silent : ((Reader.token .newline).run ⟨stop, t :: rest⟩).misses = [] := by
            simp [Reader.token, Reader.accept, newline]
          rw [silent]
          exact ih

/-- The newlines at a cursor are passed one by one. -/
theorem newlines_induction {P : Cursor → Cursor → Prop} (stay : ∀ c, P c c)
    (pass : ∀ stop t rest d, t.kind = .newline → P ⟨t.span.stop, rest⟩ d → P ⟨stop, t :: rest⟩ d)
    (c : Cursor) : P c (newlines c).cursor := by
  unfold newlines
  fun_induction Reader.repeatedly (Reader.token .newline) c with
  | case1 c _ => exact stay c
  | case2 c a d found shorter others ih =>
      obtain ⟨stop, rest⟩ := c
      cases rest with
      | nil => cases found
      | cons t rest =>
          by_cases newline : t.kind = .newline
          · simp only [Reader.token, Reader.accept_result_cons, newline, if_true,
              Option.map_some, Option.some.injEq, Prod.mk.injEq] at found
            obtain ⟨_, rfl⟩ := found
            exact pass stop t rest _ newline ih
          · simp [Reader.token, newline] at found

theorem laid_newlines (laid : c.Laid allowed size) :
    (newlines c).cursor.Laid allowed size ∧ c.stop ≤ (newlines c).cursor.stop := by
  revert laid
  refine newlines_induction (P := fun c d => c.Laid allowed size →
    d.Laid allowed size ∧ c.stop ≤ d.stop) ?_ ?_ c
  · exact fun c laid => ⟨laid, Nat.le_refl _⟩
  · intro stop t rest d _ ih laid
    obtain ⟨laid', after⟩ := ih laid.next
    have before : stop ≤ t.span.start := laid.row.1
    have nonempty : t.span.start < t.span.stop := laid.row.2.1
    exact ⟨laid', before.trans (nonempty.le.trans after)⟩

theorem newlines_of_end (h : c.rest = []) : (newlines c).cursor = c := by
  obtain ⟨stop, rest⟩ := c
  cases h
  exact (Reader.repeatedly_of_none rfl).1

/-- Newlines take up room. -/
theorem start_lt_newlines (laid : c.Laid allowed size) (ends : EndsLine c.rest)
    (more : c.rest ≠ []) : c.start < (newlines c).cursor.start := by
  obtain ⟨stop, rest⟩ := c
  cases rest with
  | nil => exact absurd rfl more
  | cons t rest =>
      have passed : (newlines ⟨stop, t :: rest⟩).cursor = (newlines ⟨t.span.stop, rest⟩).cursor :=
        (Reader.repeatedly_of_some (a := ()) (by simp [Reader.token, ends t rfl])).1
      obtain ⟨laid', after⟩ := laid_newlines laid.next
      have nonempty : t.span.start < t.span.stop := laid.row.2.1
      rw [passed]
      exact nonempty.trans_le (after.trans laid'.stop_le_start)

/-- The statements of a file stand in a row, and so does what they hold. -/
theorem statements_lines (laid : c.Laid allowed size) (complaint : Option Complaint) :
    InRow allowed c.stop ((lines c complaint).statements.map Located.span) size ∧
      ∀ s ∈ (lines c complaint).statements, Statement.Placed allowed s := by
  fun_induction lines c complaint with
  | case1 c complaint attempt noted first d found _ _ gap rest ih =>
      have line : Grammar.line.Places allowed size _ _ := Grammar.places_line
      obtain ⟨laid', after⟩ := laid_newlines (laid.reached (line.reaches found))
      obtain ⟨row, placed⟩ := ih laid'
      constructor
      · rw [List.map_append]
        have here := (line.row laid found).widen laid.stop_le_start after
        exact here.append row
      · exact List.forall_mem_append.mpr ⟨line.holds laid found, placed⟩
  | case2 c complaint attempt noted failed first d misses retried _ _ gap rest ih =>
      have line : Grammar.line.Places allowed size _ _ := Grammar.places_line
      obtain ⟨e, reached, read⟩ := reaches_of_retry retried
      have found : (Grammar.line.run e).result = some (first, d) := by rw [read]
      have laid_e := laid.reached reached
      obtain ⟨laid', after⟩ := laid_newlines (laid_e.reached (line.reaches found))
      obtain ⟨row, placed⟩ := ih laid'
      constructor
      · rw [List.map_append]
        have before := laid.stop_le_start.trans (laid.le_of_reaches reached).2
        exact ((line.row laid_e found).widen before after).append row
      · exact List.forall_mem_append.mpr ⟨line.holds laid_e found, placed⟩
  | case3 c complaint attempt noted failed noRetry final =>
      exact ⟨laid.row.le, fun _ mem => absurd mem List.not_mem_nil⟩

end Reading
end OpSelect
