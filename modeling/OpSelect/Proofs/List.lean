import Mathlib.Data.List.Forall2

/-!
Facts about lists that are not in the library: separators, positions, lists whose members are
related one by one, and traversals that may fail.
-/

namespace OpSelect

section Separators

variable {α : Type} {separator : List α} {x : α} {parts : List (List α)}

theorem intercalate_cons (separator first : List α) (others : List (List α)) :
    separator.intercalate (first :: others) = first ++ others.flatMap (separator ++ ·) := by
  induction others generalizing first with
  | nil => simp
  | cons second others ih =>
      rw [List.intercalate_cons_cons, ih, List.flatMap_cons, List.append_assoc,
        List.append_assoc]

theorem mem_intercalate {part : List α} (isPart : part ∈ parts) (mem : x ∈ part) :
    x ∈ separator.intercalate parts := by
  cases parts with
  | nil => cases isPart
  | cons first others =>
      rw [intercalate_cons]
      cases isPart with
      | head => exact List.mem_append_left _ mem
      | tail _ isPart =>
          refine List.mem_append_right _ (List.mem_flatMap.mpr ⟨part, isPart, ?_⟩)
          exact List.mem_append_right _ mem

theorem not_mem_intercalate (outside : x ∉ separator) (each : ∀ part ∈ parts, x ∉ part) :
    x ∉ separator.intercalate parts := by
  cases parts with
  | nil => exact List.not_mem_nil
  | cons first others =>
      rw [intercalate_cons]
      obtain ⟨head, tail⟩ := List.forall_mem_cons.mp each
      simp only [List.mem_append, List.mem_flatMap, not_or, not_exists, not_and]
      exact ⟨head, fun part mem => ⟨outside, tail part mem⟩⟩

/-- Parts that each end in the separator are cut apart again, and nothing follows the last. -/
theorem splitOn_terminated [BEq α] [LawfulBEq α] (h : ∀ part ∈ parts, x ∉ part) :
    (parts.flatMap (· ++ [x])).splitOn x = parts ++ [[]] := by
  have joined : [x].intercalate (parts ++ [[]]) = parts.flatMap (· ++ [x]) := by
    induction parts with
    | nil => rfl
    | cons part parts ih =>
        rw [List.cons_append, List.intercalate_cons_of_ne_nil (by simp),
          ih (List.forall_mem_cons.mp h).2, List.flatMap_cons]
  rw [← joined]
  refine List.splitOn_intercalate x (List.forall_mem_append.mpr ⟨h, ?_⟩) (by simp)
  exact List.forall_mem_singleton.mpr List.not_mem_nil

/-- The last separator stands in one place only. -/
theorem append_cons_inj {front front' back back' : List α} (h : x ∉ back) (h' : x ∉ back')
    (same : front ++ x :: back = front' ++ x :: back') : front = front' ∧ back = back' := by
  cases List.append_eq_append_iff.mp same with
  | inl longer =>
      obtain ⟨between, rfl, rest⟩ := longer
      cases between with
      | nil => exact ⟨(List.append_nil _).symm, (List.cons.inj rest).2⟩
      | cons c between =>
          have inside : x ∈ back := by
            rw [(List.cons.inj rest).2]
            exact List.mem_append_right _ List.mem_cons_self
          exact absurd inside h
  | inr longer =>
      obtain ⟨between, rfl, rest⟩ := longer
      cases between with
      | nil => exact ⟨List.append_nil _, (List.cons.inj rest).2.symm⟩
      | cons c between =>
          have inside : x ∈ back' := by
            rw [(List.cons.inj rest).2]
            exact List.mem_append_right _ List.mem_cons_self
          exact absurd inside h'

end Separators

section Positions

variable {α β : Type} {xs ys zs : List α} {place : Nat} {a : α}

theorem getElem?_of_prefix (before : xs <+: ys) (found : xs[place]? = some a) :
    ys[place]? = some a := by
  obtain ⟨inside, rfl⟩ := List.getElem?_eq_some_iff.mp found
  exact List.prefix_iff_getElem?.mp before place inside

/-- Where an element of three lists stands. -/
theorem mem_or_between (h : (xs ++ ys ++ zs)[place]? = some a) :
    a ∈ xs ∨ place ∈ List.range' xs.length ys.length ∨ a ∈ zs := by
  rw [List.append_assoc] at h
  cases Nat.lt_or_ge place xs.length with
  | inl lt =>
      rw [List.getElem?_append_left lt] at h
      exact .inl (List.mem_of_getElem? h)
  | inr ge =>
      rw [List.getElem?_append_right ge] at h
      cases Nat.lt_or_ge (place - xs.length) ys.length with
      | inl lt => exact .inr (.inl (List.mem_range'_1.mpr ⟨ge, by omega⟩))
      | inr past =>
          rw [List.getElem?_append_right past] at h
          exact .inr (.inr (List.mem_of_getElem? h))

/-- Items paired with what is found for them, filtered by what was found. -/
theorem map_fst_filter_pairs {f : α → Option β} {p : β → Bool} {q : α → Bool}
    (same : ∀ x ∈ xs, ∀ y, f x = some y → p y = q x) :
    ((xs.filterMap fun x => (f x).map fun y => (x, y)).filter fun pair => p pair.2).map Prod.fst =
      xs.filter fun x => (f x).isSome && q x := by
  induction xs with
  | nil => rfl
  | cons x xs ih =>
      obtain ⟨first, rest⟩ := List.forall_mem_cons.mp same
      cases found : f x with
      | none => simp [found, ih rest]
      | some y => by_cases kept : q x = true <;> simp [found, first y found, kept, ih rest]

end Positions

section Related

variable {α β : Type} {R : α → β → Prop} {as : List α} {bs : List β}

theorem exists_forall₂ (h : ∀ a ∈ as, ∃ b, R a b) : ∃ bs, List.Forall₂ R as bs := by
  induction as with
  | nil => exact ⟨[], .nil⟩
  | cons a as ih =>
      obtain ⟨first, others⟩ := List.forall_mem_cons.mp h
      obtain ⟨b, head⟩ := first
      obtain ⟨bs, tail⟩ := ih others
      exact ⟨b :: bs, .cons head tail⟩

theorem exists_mem_of_forall₂ {a : α} (h : List.Forall₂ R as bs) (mem : a ∈ as) :
    ∃ b ∈ bs, R a b := by
  induction h with
  | nil => cases mem
  | cons head _ ih =>
      cases mem with
      | head => exact ⟨_, List.mem_cons_self, head⟩
      | tail _ mem =>
          obtain ⟨b, found, related⟩ := ih mem
          exact ⟨b, List.mem_cons_of_mem _ found, related⟩

theorem forall_of_forall₂ {P : β → Prop} (h : List.Forall₂ R as bs)
    (each : ∀ a ∈ as, ∀ b, R a b → P b) : ∀ b ∈ bs, P b := by
  intro b found
  obtain ⟨a, mem, related⟩ := exists_mem_of_forall₂ h.flip found
  exact each a mem b related

theorem exists_concat_of_forall₂ {b : β} (h : List.Forall₂ R as (bs ++ [b])) :
    ∃ front a, as = front ++ [a] ∧ R a b := by
  have last := List.forall₂_drop_append _ _ _ h
  rw [List.forall₂_cons_right_iff] at last
  obtain ⟨a, rest, related, none, dropped⟩ := last
  cases none
  exact ⟨as.take bs.length, a, by rw [← dropped, List.take_append_drop], related⟩

theorem map_eq_of_forall₂ {f : α → β} (h : List.Forall₂ (fun b a => f a = b) bs as) :
    as.map f = bs := by
  have same : List.Forall₂ (· = ·) (as.map f) bs := List.forall₂_map_left_iff.mpr h.flip
  rwa [List.forall₂_eq_eq_eq] at same

/-- What is related to the members of a list, one by one, is ordered as they are. -/
theorem pairwise_of_forall₂ {S : α → α → Prop} {T : β → β → Prop} (h : List.Forall₂ R as bs)
    (ordered : as.Pairwise S)
    (each : ∀ a ∈ as, ∀ a' ∈ as, ∀ b b', R a b → R a' b' → S a a' → T b b') :
    bs.Pairwise T := by
  induction h with
  | nil => exact .nil
  | cons head rest ih =>
      obtain ⟨first, others⟩ := List.pairwise_cons.mp ordered
      refine List.pairwise_cons.mpr ⟨fun b found => ?_, ih others fun a mem a' mem' =>
        each a (.tail _ mem) a' (.tail _ mem')⟩
      obtain ⟨a, mem, related⟩ := exists_mem_of_forall₂ rest.flip found
      exact each _ (.head _) a (.tail _ mem) _ b head related (first a mem)

theorem forall₂_modifyHead {R : α → α → Prop} {f g : α → α} {as bs : List α}
    (h : List.Forall₂ R as bs) (keeps : ∀ a b, R a b → R (f a) (g b)) :
    List.Forall₂ R (as.modifyHead f) (bs.modifyHead g) := by
  cases h with
  | nil => exact .nil
  | cons head tail => exact .cons (keeps _ _ head) tail

end Related

section Traversals

variable {ε α β : Type} {xs : List α}

theorem bind_eq_ok {x : Except ε α} {f : α → Except ε β} {b : β} :
    x >>= f = .ok b ↔ ∃ a, x = .ok a ∧ f a = .ok b := by
  cases x with
  | error e => exact ⟨nofun, nofun⟩
  | ok a => exact ⟨fun h => ⟨a, rfl, h⟩, fun ⟨_, same, h⟩ => by cases same; exact h⟩

theorem map_eq_ok {x : Except ε α} {f : α → β} {b : β} :
    x.map f = .ok b ↔ ∃ a, x = .ok a ∧ f a = b := by
  cases x with
  | error e => simp [Except.map]
  | ok a => simp [Except.map]

theorem mapM_eq_ok {f : α → Except ε β} {ys : List β} :
    xs.mapM f = .ok ys ↔ List.Forall₂ (fun x y => f x = .ok y) xs ys := by
  induction xs generalizing ys with
  | nil =>
      rw [List.mapM_nil, List.forall₂_nil_left_iff]
      exact ⟨fun h => (Except.ok.inj h).symm, fun h => h ▸ rfl⟩
  | cons x xs ih =>
      rw [List.mapM_cons, bind_eq_ok, List.forall₂_cons_left_iff]
      constructor
      · rintro ⟨y, first, h⟩
        obtain ⟨rest, others, h⟩ := bind_eq_ok.mp h
        exact ⟨y, rest, first, ih.mp others, (Except.ok.inj h).symm⟩
      · rintro ⟨y, rest, first, others, rfl⟩
        exact ⟨y, first, bind_eq_ok.mpr ⟨rest, ih.mpr others, rfl⟩⟩

theorem forM_eq_ok {f : α → Except ε Unit} : xs.forM f = .ok () ↔ ∀ x ∈ xs, f x = .ok () := by
  induction xs with
  | nil => exact ⟨fun _ _ mem => absurd mem List.not_mem_nil, fun _ => rfl⟩
  | cons x xs ih =>
      rw [List.forM, bind_eq_ok, List.forall_mem_cons]
      exact ⟨fun ⟨_, first, rest⟩ => ⟨first, ih.mp rest⟩, fun h => ⟨(), h.1, ih.mpr h.2⟩⟩

/-- A traversal that fails does so at one item, and those before it have passed. -/
theorem forM_eq_error {f : α → Except ε Unit} {e : ε} (h : xs.forM f = .error e) :
    ∃ before x after, xs = before ++ x :: after ∧ (∀ y ∈ before, f y = .ok ()) ∧
      f x = .error e := by
  induction xs with
  | nil => cases h
  | cons x xs ih =>
      rw [List.forM] at h
      cases first : f x with
      | error other =>
          rw [first] at h
          cases h
          exact ⟨[], x, xs, rfl, nofun, first⟩
      | ok =>
          rw [first] at h
          obtain ⟨before, y, after, rfl, passed, failed⟩ := ih h
          exact ⟨x :: before, y, after, rfl, List.forall_mem_cons.mpr ⟨first, passed⟩, failed⟩

end Traversals
end OpSelect
