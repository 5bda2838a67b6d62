import OpSelect.Proofs.Program.Completeness
import OpSelect.Proofs.Token.Respelling

/-!
Keys may be grouped in any way. Two lists of tokens are `Regrouped` if they differ only in how the
keys of their operands share brackets. Every reader of the grammar but that of a single group is
`Alike` on such lists: it fails on both, or it finds the same in both, up to spans, and leaves
regrouped rests. That goes through the combinators, and the repetition of key groups is the one
place where the groups are looked at. Splitting the semicolons of a line that is read regroups
it, so the file that is left is read as the same statements.
-/

namespace OpSelect

open Reader Grammar

section Groups

/-- Keys with semicolons between them. -/
def KeysWritten (keys : List (Located Atom)) (inside : List TokenKind) : Prop :=
  Separated (.mark .semicolon) (fun (key : Located Atom) => key.node.Written) keys inside

/-- These keys, in any number of brackets. -/
def Grouped (keys : List Atom) (kinds : List TokenKind) : Prop :=
  ∃ groups, Each KeyGroup groups kinds ∧ groups.flatten.map Located.node = keys

variable {keys more : List Atom} {kinds others front front' : List TokenKind}

theorem grouped_of_keyGroup {keys : List (Located Atom)} (h : KeyGroup keys kinds) :
    Grouped (keys.map Located.node) kinds :=
  ⟨[keys], Each.singleton h, by simp⟩

theorem Grouped.append (h : Grouped keys kinds) (k : Grouped more others) :
    Grouped (keys ++ more) (kinds ++ others) := by
  obtain ⟨groups, written, rfl⟩ := h
  obtain ⟨groups', written', rfl⟩ := k
  exact ⟨groups ++ groups', written.append written', by simp⟩

/-- There is a bracket if and only if there is a key. -/
theorem Grouped.cases (h : Grouped keys kinds) :
    (keys = [] ∧ kinds = []) ∨ keys ≠ [] ∧ ∃ tail, kinds = .mark .openBracket :: tail := by
  obtain ⟨groups, written, rfl⟩ := h
  cases written with
  | nil => exact .inl ⟨rfl, rfl⟩
  | @cons first groups _ rest head tail =>
      obtain ⟨inside, rfl, separated⟩ := head
      refine .inr ⟨?_, _, rfl⟩
      cases first with
      | nil => exact separated.elim
      | cons key keys => simp

/-- A token that stands outside of the brackets. -/
@[simp] def TokenKind.IsPlain (kind : TokenKind) : Prop :=
  kind ≠ .mark .openBracket ∧ kind ≠ .mark .semicolon ∧ kind ≠ .mark .closeBracket

/-- The same tokens and keys, with the keys in other groups. -/
inductive Regrouped : List TokenKind → List TokenKind → Prop where
  | nil : Regrouped [] []
  | plain {kind : TokenKind} {kinds others : List TokenKind} (outside : kind.IsPlain)
      (h : Regrouped kinds others) : Regrouped (kind :: kinds) (kind :: others)
  | keys {keys : List Atom} {front front' kinds others : List TokenKind}
      (first : Grouped keys front) (second : Grouped keys front') (h : Regrouped kinds others) :
      Regrouped (front ++ kinds) (front' ++ others)

namespace Regrouped

theorem append {first second first' second' : List TokenKind} (h : Regrouped first first')
    (k : Regrouped second second') : Regrouped (first ++ second) (first' ++ second') := by
  induction h with
  | nil => exact k
  | plain outside _ ih => exact .plain outside ih
  | keys first second _ ih =>
      rw [List.append_assoc, List.append_assoc]
      exact .keys first second ih

/-- The groups at the front, all of them, and what comes behind them. -/
inductive Begins (keys : List Atom) : List TokenKind → List TokenKind → Prop where
  | last {front front' : List TokenKind} (first : Grouped keys front)
      (second : Grouped keys front') : Begins keys front front'
  | before {front front' kinds others : List TokenKind} {kind : TokenKind}
      (first : Grouped keys front) (second : Grouped keys front') (outside : kind.IsPlain)
      (h : Regrouped kinds others) : Begins keys (front ++ kind :: kinds) (front' ++ kind :: others)

theorem begins (h : Regrouped kinds others) : ∃ keys, Begins keys kinds others := by
  have none : Grouped [] [] := ⟨[], .nil, rfl⟩
  induction h with
  | nil => exact ⟨[], .last none none⟩
  | plain outside h _ => exact ⟨[], .before none none outside h⟩
  | @keys keys _ _ _ _ first second _ ih =>
      obtain ⟨more, begins⟩ := ih
      refine ⟨keys ++ more, ?_⟩
      cases begins with
      | last first' second' => exact .last (first.append first') (second.append second')
      | before first' second' outside h =>
          rw [← List.append_assoc, ← List.append_assoc]
          exact .before (first.append first') (second.append second') outside h

/-- The first tokens are the same, and the rests are regrouped unless a group begins. -/
theorem first (h : Regrouped kinds others) :
    (kinds = [] ∧ others = []) ∨
      (∃ kind rest rest', kinds = kind :: rest ∧ others = kind :: rest' ∧ Regrouped rest rest') ∨
      ∃ rest rest', kinds = .mark .openBracket :: rest ∧ others = .mark .openBracket :: rest' := by
  obtain ⟨keys, begins⟩ := h.begins
  cases begins with
  | last first second =>
      rcases first.cases with ⟨rfl, rfl⟩ | ⟨some, tail, rfl⟩
      · rcases second.cases with ⟨_, rfl⟩ | ⟨some, _⟩
        · exact .inl ⟨rfl, rfl⟩
        · exact absurd rfl some
      · rcases second.cases with ⟨none, _⟩ | ⟨_, tail', rfl⟩
        · exact absurd none some
        · exact .inr (.inr ⟨tail, tail', rfl, rfl⟩)
  | before first second outside later =>
      rcases first.cases with ⟨rfl, rfl⟩ | ⟨some, tail, rfl⟩
      · rcases second.cases with ⟨_, rfl⟩ | ⟨some, _⟩
        · exact .inr (.inl ⟨_, _, _, rfl, rfl, later⟩)
        · exact absurd rfl some
      · rcases second.cases with ⟨none, _⟩ | ⟨_, tail', rfl⟩
        · exact absurd none some
        · exact .inr (.inr ⟨_, _, rfl, rfl⟩)

theorem eq_nil (h : Regrouped [] others) : others = [] := by
  rcases h.first with ⟨_, none⟩ | ⟨_, _, _, some, _⟩ | ⟨_, _, some, _⟩
  · exact none
  · cases some
  · cases some

end Regrouped
end Groups

/-- The sweeper finds the same, as far as the view shows it, however keys are grouped. -/
def Sweeper.Alike {β γ : Type} (q : Sweeper β) (view : β → γ) : Prop :=
  ∀ c d, Regrouped c.kinds d.kinds →
    view (q.run c).value = view (q.run d).value ∧
      Regrouped (q.run c).cursor.kinds (q.run d).cursor.kinds

namespace Reader

variable {α β γ δ : Type} {p : Reader α} {q : Reader β} {view : α → γ} {view' : β → δ}

/-- The reader finds the same, as far as the view shows it, however keys are grouped, or it finds
nothing either way. -/
def Alike (p : Reader α) (view : α → γ) : Prop :=
  ∀ c d, Regrouped c.kinds d.kinds →
    Option.Rel (fun x y => view x.1 = view y.1 ∧ Regrouped x.2.kinds y.2.kinds)
      (p.run c).result (p.run d).result

/-- At a group there is nothing for a reader of one other token. -/
theorem alike_accept {e : Expectation} {f : TokenKind → Option α}
    (h : f (.mark .openBracket) = none) : (accept e f).Alike id := by
  rintro ⟨stop, tokens⟩ ⟨stop', tokens'⟩ same
  rcases same.first with ⟨none, none'⟩ | ⟨kind, rest, rest', here, here', later⟩ |
    ⟨rest, rest', here, here'⟩
  · obtain rfl := List.map_eq_nil_iff.mp none
    obtain rfl := List.map_eq_nil_iff.mp none'
    exact .none
  · obtain ⟨t, tokens, rfl, rfl, rfl⟩ := List.map_eq_cons_iff.mp here
    obtain ⟨t', tokens', rfl, sameKind, rfl⟩ := List.map_eq_cons_iff.mp here'
    rw [accept_result_cons, accept_result_cons, sameKind]
    cases f t.kind with
    | none => exact .none
    | some a => exact .some ⟨rfl, later⟩
  · obtain ⟨t, tokens, rfl, isBracket, rfl⟩ := List.map_eq_cons_iff.mp here
    obtain ⟨t', tokens', rfl, isBracket', rfl⟩ := List.map_eq_cons_iff.mp here'
    rw [accept_result_cons, accept_result_cons, isBracket, isBracket', h]
    exact .none

theorem alike_token {kind : TokenKind} (h : kind ≠ .mark .openBracket) : (token kind).Alike id :=
  alike_accept (if_neg h.symm)

theorem alike_mark (m : Mark) (h : m ≠ .openBracket) : (mark m).Alike id :=
  alike_token fun same => h (TokenKind.mark.inj same)

namespace Alike

theorem map {f : α → β} (h : p.Alike view)
    (keeps : ∀ a b, view a = view b → view' (f a) = view' (f b)) : (p.map f).Alike view' := by
  intro c d same
  have found := h c d same
  rw [map_result, map_result]
  generalize (p.run c).result = x, (p.run d).result = y at found
  cases found with
  | none => exact .none
  | some both => exact .some ⟨keeps _ _ both.1, both.2⟩

theorem andThen (h : p.Alike view) (k : q.Alike view') :
    (p.andThen q).Alike (Prod.map view view') := by
  intro c d same
  have found := h c d same
  rw [andThen_result, andThen_result]
  generalize (p.run c).result = x, (p.run d).result = y at found
  cases found with
  | none => exact .none
  | @some x y first =>
      obtain ⟨a, c⟩ := x
      obtain ⟨b, d⟩ := y
      have found' := k c d first.2
      simp only [Option.bind_some]
      generalize (q.run c).result = x, (q.run d).result = y at found'
      cases found' with
      | none => exact .none
      | some second => exact .some ⟨Prod.ext first.1 second.1, second.2⟩

theorem left (h : p.Alike view) (k : q.Alike view') : (p.left q).Alike view :=
  (h.andThen k).map fun _ _ same => (Prod.ext_iff.mp same).1

theorem right (h : p.Alike view) (k : q.Alike view') : (p.right q).Alike view' :=
  (h.andThen k).map fun _ _ same => (Prod.ext_iff.mp same).2

theorem orElse {p q : Reader α} (h : p.Alike view) (k : q.Alike view) : (p <|> q).Alike view := by
  intro c d same
  have found := h c d same
  rw [orElse_result, orElse_result]
  generalize (p.run c).result = x, (p.run d).result = y at found
  cases found with
  | none => exact k c d same
  | some both => exact .some both

theorem located {strip : α → α} (h : p.Alike strip) : p.located.Alike (Located.unplaced strip) := by
  intro c d same
  have found := h c d same
  rw [located_result, located_result]
  generalize (p.run c).result = x, (p.run d).result = y at found
  cases found with
  | none => exact .none
  | some both => exact .some ⟨congrArg (Located.mk · ⟨0, 0⟩) both.1, both.2⟩

theorem followedBy {q : Sweeper β} (h : p.Alike view) (k : q.Alike view') :
    (p.followedBy q).Alike (Prod.map view view') := by
  intro c d same
  have found := h c d same
  rw [followedBy_result, followedBy_result]
  generalize (p.run c).result = x, (p.run d).result = y at found
  cases found with
  | none => exact .none
  | some both =>
      obtain ⟨value, cursor⟩ := k _ _ both.2
      exact .some ⟨Prod.ext both.1 value, cursor⟩

theorem optional (h : p.Alike view) : p.optional.Alike (Option.map view) := by
  intro c d same
  have found := h c d same
  simp only [Reader.optional]
  generalize (p.run c).result = x, (p.run d).result = y at found
  cases found with
  | none => exact ⟨rfl, same⟩
  | some both => exact ⟨congrArg some both.1, both.2⟩

theorem found {c d c' : Cursor} {a : α} (h : p.Alike view) (same : Regrouped c.kinds d.kinds)
    (read : (p.run c).result = some (a, c')) :
    ∃ b d', (p.run d).result = some (b, d') ∧ view a = view b ∧ Regrouped c'.kinds d'.kinds := by
  have both := h c d same
  rw [read] at both
  generalize (p.run d).result = out at both
  cases both with
  | @some _ out related => exact ⟨out.1, out.2, rfl, related⟩

theorem failed {c d : Cursor} (h : p.Alike view) (same : Regrouped c.kinds d.kinds)
    (fails : (p.run c).result = none) : (p.run d).result = none := by
  have both := h c d same
  rw [fails] at both
  generalize (p.run d).result = out at both
  cases both
  rfl

/-- By induction on the repetition. -/
theorem many (h : p.Alike view) : p.many.Alike (List.map view) := by
  intro c d same
  change (p.repeatedly c).value.map view = (p.repeatedly d).value.map view ∧
    Regrouped (p.repeatedly c).cursor.kinds (p.repeatedly d).cursor.kinds
  fun_induction repeatedly p c generalizing d with
  | case1 c fails =>
      obtain ⟨cursor, value⟩ := repeatedly_of_none (h.failed same fails)
      rw [cursor, value]
      exact ⟨rfl, same⟩
  | case2 c a c' read shorter rest ih =>
      obtain ⟨b, d', read', views, rests⟩ := h.found same read
      obtain ⟨cursor, value⟩ := repeatedly_of_some read'
      obtain ⟨values, cursors⟩ := ih d' rests
      rw [cursor, value]
      exact ⟨List.cons_eq_cons.mpr ⟨views, values⟩, cursors⟩

theorem separatedBy (h : p.Alike view) (k : q.Alike view') :
    (p.separatedBy q).Alike (List.map view) := by
  refine (h.followedBy (k.right h).many).map ?_
  rintro ⟨a, as⟩ ⟨b, bs⟩ same
  exact List.cons_eq_cons.mpr (Prod.ext_iff.mp same)

end Alike
end Reader

namespace Grammar

theorem alike_keyword (text : String) : (keyword text).Alike id := alike_token nofun

theorem alike_directive (name : String) : (directive name).Alike id := alike_token nofun

theorem alike_name : name.Alike id := alike_accept rfl

/-- A word that stands for one thing. -/
theorem alike_word {α : Type} (m : Mark) (a : α) (h : m ≠ .openBracket) :
    ((mark m).map fun _ => a).Alike id :=
  (alike_mark m h).map fun _ _ _ => rfl

theorem alike_atom : atom.Alike id := by
  apply Alike.orElse
  · exact alike_accept rfl
  · exact (alike_mark .minus (by decide)).right (alike_accept rfl)

/-- All groups at the cursor are read, so their keys are the same. -/
theorem alike_keyGroups :
    keyGroup.many.Alike fun groups => groups.flatten.map Located.node := by
  have stops {kind : TokenKind} {rest : List TokenKind} (outside : kind.IsPlain) :
      (kind :: rest).head? ≠ some (.mark .openBracket) :=
    fun same => outside.1 (Option.some.inj same)
  intro c d same
  obtain ⟨keys, begins⟩ := same.begins
  generalize here : c.kinds = kinds, here' : d.kinds = others at begins
  cases begins with
  | last first second =>
      obtain ⟨groups, written, rfl⟩ := first
      obtain ⟨groups', written', flat⟩ := second
      have noMore : ([] : List TokenKind).head? ≠ some (.mark .openBracket) := nofun
      obtain ⟨ends, value⟩ := sweeps_keyGroups written noMore c (by simpa using here)
      obtain ⟨ends', value'⟩ := sweeps_keyGroups written' noMore d (by simpa using here')
      rw [ends, ends']
      exact ⟨value.trans (flat.symm.trans value'.symm), .nil⟩
  | before first second outside later =>
      obtain ⟨groups, written, rfl⟩ := first
      obtain ⟨groups', written', flat⟩ := second
      obtain ⟨ends, value⟩ := sweeps_keyGroups written (stops outside) c here
      obtain ⟨ends', value'⟩ := sweeps_keyGroups written' (stops outside) d here'
      rw [ends, ends']
      exact ⟨value.trans (flat.symm.trans value'.symm), .plain outside later⟩

theorem alike_operand : operand.Alike (Located.unplaced Operand.unplaced) := by
  refine ((alike_atom.followedBy alike_keyGroups).map ?_).located
  rintro ⟨a, groups⟩ ⟨b, groups'⟩ same
  obtain ⟨base, keys⟩ := Prod.ext_iff.mp same
  exact Operand.unplaced_eq base keys

theorem alike_value : value.Alike Value.unplaced := by
  have operand := alike_operand
  unfold value
  apply Alike.orElse
  · exact ((alike_mark .newWord (by decide)).right (Alike.located (alike_accept rfl))).map
      fun _ _ same => congrArg Value.new same
  apply Alike.orElse
  · exact ((alike_keyword "addr").right alike_name).map fun _ _ same => congrArg Value.addr same
  apply Alike.orElse
  · exact ((alike_keyword "defined").right operand).map fun _ _ same => congrArg Value.defined same
  apply Alike.orElse
  · exact ((alike_keyword "clone").right operand).map fun _ _ same => congrArg Value.clone same
  apply Alike.orElse
  · refine ((operand.andThen (alike_accept rfl)).andThen operand).map ?_
    rintro ⟨⟨lhs, op⟩, rhs⟩ ⟨⟨lhs', op'⟩, rhs'⟩ same
    simp_all [Value.unplaced]
  apply Alike.orElse
  · exact operand.map fun _ _ same => congrArg Value.operand same
  · refine (Alike.andThen (alike_accept rfl) operand).map ?_
    rintro ⟨op, source⟩ ⟨op', source'⟩ same
    simp_all [Value.unplaced]

theorem alike_condition : condition.Alike Condition.unplaced := by
  have operand := alike_operand
  apply Alike.orElse
  · refine ((operand.andThen (alike_accept rfl)).andThen operand).map ?_
    rintro ⟨⟨lhs, op⟩, rhs⟩ ⟨⟨lhs', op'⟩, rhs'⟩ same
    simp_all [Condition.unplaced]
  · exact operand.map fun _ _ same => congrArg Condition.truth same

theorem alike_conditional : conditional.Alike Statement.unplaced := by
  have test := ((alike_word .ifWord false (by decide)).orElse
    (alike_word .unlessWord true (by decide))).andThen alike_condition
  refine ((test.left (alike_mark .gotoWord (by decide))).andThen alike_name).map ?_
  rintro ⟨⟨negated, test⟩, label⟩ ⟨⟨negated', test'⟩, label'⟩ same
  simp_all [Statement.unplaced]

theorem alike_instruction : instruction.Alike Statement.unplaced := by
  have mnemonic : mnemonic.Alike id :=
    alike_name.orElse ((alike_word .ifWord "if" (by decide)).orElse
      ((alike_word .unlessWord "unless" (by decide)).orElse
        (alike_word .newWord "new" (by decide))))
  have operands := alike_operand.separatedBy (alike_mark .comma (by decide))
  refine (mnemonic.followedBy operands.optional).map ?_
  rintro ⟨op, operands⟩ ⟨op', operands'⟩ same
  obtain ⟨rfl, same⟩ := Prod.ext_iff.mp same
  cases operands <;> cases operands' <;> simp_all [Statement.unplaced]

theorem alike_statement : statement.Alike Statement.unplaced := by
  have name := alike_name
  unfold statement
  apply Alike.orElse
  · exact ((alike_directive "sub").right name).map fun _ _ same => congrArg Statement.openSub same
  apply Alike.orElse
  · exact (alike_directive "end").map fun _ _ _ => rfl
  apply Alike.orElse
  · refine (((alike_directive "local").right name).andThen name).map ?_
    rintro ⟨type, declared⟩ ⟨type', declared'⟩ same
    simp_all [Statement.unplaced]
  apply Alike.orElse
  · exact ((alike_mark .gotoWord (by decide)).right name).map
      fun _ _ same => congrArg Statement.jump same
  apply Alike.orElse
  · exact alike_conditional
  apply Alike.orElse
  · exact ((alike_keyword "call").right name).map fun _ _ same => congrArg Statement.call same
  apply Alike.orElse
  · refine ((alike_operand.left (alike_mark .equals (by decide))).andThen alike_value).map ?_
    rintro ⟨target, source⟩ ⟨target', source'⟩ same
    simp_all [Statement.unplaced]
  · exact alike_instruction

theorem alike_labelled :
    labelled.Alike (List.map (Located.unplaced Statement.unplaced)) := by
  have statement := alike_statement.located
  apply Alike.orElse
  · have label : ((name.left (mark .colon)).map Statement.label).Alike Statement.unplaced :=
      (alike_name.left (alike_mark .colon (by decide))).map
        fun _ _ same => congrArg Statement.label same
    refine (label.located.followedBy statement.optional).map ?_
    rintro ⟨label, rest⟩ ⟨label', rest'⟩ same
    obtain ⟨labels, rests⟩ := Prod.ext_iff.mp same
    cases rest <;> cases rest' <;> simp_all
  · exact statement.map fun _ _ same => congrArg (fun s => [s]) same

/-- A line that is read is read also with other groups. -/
theorem lineStatements_regrouped {segment other : List Token} {part : List (Located Statement)}
    (same : Regrouped (segment.map Token.kind) (other.map Token.kind))
    (plain : ∀ t ∈ segment, t.kind ≠ .newline) (read : lineStatements? segment = some part) :
    ∃ part', lineStatements? other = some part' ∧
      part'.map (Located.unplaced Statement.unplaced) =
        part.map (Located.unplaced Statement.unplaced) := by
  obtain ⟨⟨_, d⟩, line, rfl⟩ := Option.map_eq_some_iff.mp read
  have ended : d.rest = [] := rest_of_line plain line
  rw [line_result] at line
  obtain ⟨labelled, _⟩ := Option.filter_eq_some_iff.mp line
  have same : Regrouped (Cursor.kinds ⟨0, segment⟩) (Cursor.kinds ⟨0, other⟩) := same
  obtain ⟨part', d', labelled', parts, rests⟩ := alike_labelled.found same labelled
  rw [Cursor.kinds, ended] at rests
  have ended' : d'.rest = [] := List.map_eq_nil_iff.mp rests.eq_nil
  refine ⟨part', ?_, parts.symm⟩
  rw [lineStatements?, line_result, labelled']
  simp [Option.filter, lineEnd, ended']

end Grammar

section Splitting

/-- However its semicolons are split, the phrase is regrouped. -/
def Splits (kinds : List TokenKind) : Prop :=
  ∀ others, KeySplit kinds others → Regrouped kinds others

variable {kinds others first second : List TokenKind}

theorem KeySplit.of_append (h : KeySplit (first ++ second) others) :
    ∃ first' second', others = first' ++ second' ∧ KeySplit first first' ∧
      KeySplit second second' := by
  induction first generalizing others with
  | nil => exact ⟨[], others, rfl, .nil, h⟩
  | cons kind first ih =>
      cases h with
      | keep _ h =>
          obtain ⟨first', second', rfl, split, split'⟩ := ih h
          exact ⟨kind :: first', second', rfl, .keep kind split, split'⟩
      | split h =>
          obtain ⟨first', second', rfl, split, split'⟩ := ih h
          exact ⟨_ :: _ :: first', second', rfl, .split split, split'⟩

/-- Where there is no semicolon, nothing is split. -/
theorem KeySplit.eq_of_plain (h : KeySplit kinds others) (plain : ∀ kind ∈ kinds, kind.IsPlain) :
    others = kinds := by
  induction h with
  | nil => rfl
  | keep kind _ ih =>
      rw [ih (List.forall_mem_cons.mp plain).2]
  | split =>
      have outside := (List.forall_mem_cons.mp plain).1
      exact absurd rfl outside.2.1

namespace Splits

theorem append (h : Splits first) (k : Splits second) : Splits (first ++ second) := by
  intro others split
  obtain ⟨first', second', rfl, split, split'⟩ := split.of_append
  exact (h _ split).append (k _ split')

theorem of_plain (plain : ∀ kind ∈ kinds, kind.IsPlain) : Splits kinds := by
  intro others split
  rw [split.eq_of_plain plain]
  clear split
  induction kinds with
  | nil => exact .nil
  | cons kind kinds ih =>
      obtain ⟨outside, later⟩ := List.forall_mem_cons.mp plain
      exact .plain outside (ih later)

theorem cons {kind : TokenKind} (outside : kind.IsPlain) (h : Splits kinds) :
    Splits (kind :: kinds) :=
  append (of_plain (List.forall_mem_singleton.mpr outside)) h

end Splits

theorem Atom.Written.plain {a : Atom} (h : a.Written kinds) : ∀ kind ∈ kinds, kind.IsPlain := by
  cases h <;> simp

theorem keysWritten_singleton {key : Located Atom} (h : key.node.Written kinds) :
    KeysWritten [key] kinds :=
  ⟨kinds, [], (List.append_nil _).symm, h, .nil⟩

theorem KeysWritten.snoc {keys : List (Located Atom)} {key : Located Atom}
    (h : KeysWritten keys first) (written : key.node.Written second) :
    KeysWritten (keys ++ [key]) (first ++ .mark .semicolon :: second) := by
  cases keys with
  | nil => exact h.elim
  | cons a keys =>
      obtain ⟨start, rest, rfl, head, tail⟩ := h
      refine ⟨start, rest ++ .mark .semicolon :: second, List.append_assoc _ _ _, head, ?_⟩
      exact tail.append (.singleton ⟨second, rfl, written⟩)

/-- A group that is open, and what is left of it: each semicolon that is split ends a group. -/
theorem grouped_of_split {keys later : List (Located Atom)} {inside rest rest' : List TokenKind}
    (opened : KeysWritten keys inside)
    (left : Each (fun (key : Located Atom) kinds =>
      ∃ more, kinds = .mark .semicolon :: more ∧ key.node.Written more) later rest)
    (split : KeySplit rest rest') :
    Grouped ((keys ++ later).map Located.node)
      (.mark .openBracket :: (inside ++ (rest' ++ [.mark .closeBracket]))) := by
  induction left generalizing keys inside rest' with
  | nil =>
      cases split
      rw [List.append_nil]
      exact grouped_of_keyGroup ⟨inside, rfl, opened⟩
  | @cons key later _ rest head tail ih =>
      obtain ⟨more, rfl, written⟩ := head
      obtain ⟨part, rest', rfl, splitPart, splitRest⟩ := split.of_append
      cases splitPart with
      | keep _ kept =>
          rw [kept.eq_of_plain written.plain]
          have grouped := ih (opened.snoc written) splitRest
          simpa using grouped
      | split kept =>
          rw [kept.eq_of_plain written.plain]
          have closed := grouped_of_keyGroup ⟨inside, rfl, opened⟩
          have grouped := closed.append (ih (keysWritten_singleton written) splitRest)
          simpa using grouped

theorem splits_keyGroup {keys : List (Located Atom)} (h : KeyGroup keys kinds) : Splits kinds := by
  intro others split
  have whole := grouped_of_keyGroup h
  obtain ⟨inside, rfl, separated⟩ := h
  cases keys with
  | nil => exact separated.elim
  | cons key keys =>
      obtain ⟨first, rest, rfl, head, tail⟩ := separated
      cases split with
      | keep _ split =>
          obtain ⟨front, last, rfl, splitInside, splitLast⟩ := split.of_append
          obtain ⟨first', rest', rfl, splitFirst, splitRest⟩ := splitInside.of_append
          have grouped := grouped_of_split (keysWritten_singleton head) tail splitRest
          rw [splitFirst.eq_of_plain head.plain]
          cases splitLast with
          | keep _ none =>
              cases none
              have regrouped := Regrouped.keys whole grouped .nil
              simpa using regrouped

theorem splits_each {α : Type} {R : α → List TokenKind → Prop} {as : List α} (h : Each R as kinds)
    (each : ∀ a part, R a part → Splits part) : Splits kinds := by
  induction h with
  | nil => exact .of_plain (by simp)
  | cons head _ ih => exact (each _ _ head).append ih

theorem Operand.Written.splits {o : Operand} (h : o.Written kinds) : Splits kinds := by
  cases h with
  | intro atom keys =>
      exact (Splits.of_plain atom.plain).append (splits_each keys fun _ _ => splits_keyGroup)

theorem Value.Written.splits {v : Value} (h : v.Written kinds) : Splits kinds := by
  cases h with
  | operand h => exact h.splits
  | @binary op _ _ _ _ first second _ =>
      exact first.splits.append (second.splits.cons (by cases op <;> simp [BinaryOp.mark]))
  | @unary op _ _ h _ =>
      exact h.splits.cons (by cases op <;> simp [UnaryOp.mark])
  | new h => exact (Splits.of_plain h.plain).cons (by simp)
  | addr label => exact .of_plain (by simp)
  | defined h => exact h.splits.cons (by simp)
  | clone h => exact h.splits.cons (by simp)

theorem Condition.Written.splits {c : Condition} (h : c.Written kinds) : Splits kinds := by
  cases h with
  | truth h => exact h.splits
  | @compare relation _ _ _ _ first second =>
      exact first.splits.append
        (second.splits.cons (by cases relation <;> simp [Relation.mark]))

theorem MnemonicWritten.plain {mnemonic : String} {kind : TokenKind}
    (h : MnemonicWritten mnemonic kind) : kind.IsPlain := by
  cases h <;> simp

theorem Statement.Written.splits {s : Statement} (h : s.Written kinds) : Splits kinds := by
  cases h with
  | openSub | closeSub | declare | label | jump | call =>
      exact .of_plain (by simp)
  | bare h => exact .of_plain (by simpa using h.plain)
  | @instruction _ _ operands _ h all =>
      refine Splits.cons h.plain ?_
      cases operands with
      | nil => exact all.elim
      | cons o operands =>
          obtain ⟨first, rest, rfl, head, tail⟩ := all
          refine head.splits.append (splits_each tail ?_)
          rintro o _ ⟨more, rfl, written⟩
          exact written.splits.cons (by simp)
  | assign first second =>
      exact first.splits.append (second.splits.cons (by simp))
  | @branch negated _ _ h label =>
      refine Splits.cons ?_ (h.splits.append (.of_plain (by simp)))
      cases negated <;> simp [branchMark]

theorem Grammar.LineWritten.splits {statements : List (Located Statement)}
    (h : LineWritten statements kinds) : Splits kinds := by
  cases h with
  | statement h => exact h.splits
  | labelled _ h =>
      exact (h.splits.cons (by simp)).cons (by simp)

/-- So is a line that is read. -/
theorem splits_line {segment : List Token} {part : List (Located Statement)}
    (plain : ∀ t ∈ segment, t.kind ≠ .newline) (read : lineStatements? segment = some part) :
    Splits (segment.map Token.kind) := by
  obtain ⟨⟨_, d⟩, line, rfl⟩ := Option.map_eq_some_iff.mp read
  obtain ⟨taken, whole, written, _⟩ := line_read line
  have ended : d.kinds = [] := List.map_eq_nil_iff.mpr (rest_of_line plain line)
  rw [ended, List.append_nil] at whole
  change Splits (Cursor.kinds ⟨0, segment⟩)
  rw [whole]
  exact written.splits

end Splitting

section Files

/-- Tokens whose kinds are split. -/
def SplitTokens (tokens others : List Token) : Prop :=
  KeySplit (tokens.map Token.kind) (others.map Token.kind)

variable {tokens others : List Token}

theorem SplitTokens.eq_nil_iff (h : SplitTokens tokens others) : tokens = [] ↔ others = [] := by
  rw [← List.map_eq_nil_iff (f := Token.kind), ← List.map_eq_nil_iff (f := Token.kind)]
  unfold SplitTokens at h
  generalize tokens.map Token.kind = kinds, others.map Token.kind = kinds' at h
  cases h <;> simp

/-- No newline is split, so the lines are split one by one. -/
theorem SplitTokens.lines (h : SplitTokens tokens others) :
    List.Forall₂ SplitTokens (lineTokens tokens) (lineTokens others) := by
  have pieces : List.Forall₂ SplitTokens (tokens.splitOnP fun t => t.kind = .newline)
      (others.splitOnP fun t => t.kind = .newline) := by
    induction tokens generalizing others with
    | nil =>
        rw [h.eq_nil_iff.mp rfl]
        exact .cons .nil .nil
    | cons t tokens ih =>
        unfold SplitTokens at h
        rw [List.map_cons] at h
        generalize kinds : others.map Token.kind = kinds', isKind : t.kind = kind at h
        rw [List.splitOnP_cons_eq_if_modifyHead]
        cases h with
        | keep kind h =>
            obtain ⟨t', others, rfl, sameKind, rfl⟩ := List.map_eq_cons_iff.mp kinds
            rw [List.splitOnP_cons_eq_if_modifyHead, isKind, sameKind]
            have later := ih h
            by_cases newline : kind = .newline
            · rw [if_pos (by simpa using newline), if_pos (by simpa using newline)]
              exact .cons .nil later
            · rw [if_neg (by simpa using newline), if_neg (by simpa using newline)]
              refine forall₂_modifyHead later fun a b split => ?_
              unfold SplitTokens
              rw [List.map_cons, List.map_cons, isKind, sameKind]
              exact .keep kind split
        | split h =>
            obtain ⟨close, others, rfl, isClose, kinds⟩ := List.map_eq_cons_iff.mp kinds
            obtain ⟨open_, others, rfl, isOpen, rfl⟩ := List.map_eq_cons_iff.mp kinds
            rw [List.splitOnP_cons_eq_if_modifyHead, List.splitOnP_cons_eq_if_modifyHead, isKind,
              isClose, isOpen]
            simp only [reduceCtorEq, decide_false, Bool.false_eq_true, if_false,
              List.modifyHead_modifyHead]
            refine forall₂_modifyHead (ih h) fun a b split => ?_
            unfold SplitTokens
            rw [Function.comp_apply, List.map_cons, List.map_cons, List.map_cons, isKind, isClose,
              isOpen]
            exact .split split
  refine List.rel_filter ?_ pieces
  intro a b split
  simpa using not_congr split.eq_nil_iff

/-- The statements of a file do not depend on how the keys in it are grouped, by induction on its
lines. -/
theorem parseTokens_splitTokens (h : SplitTokens tokens others)
    {statements : List (Located Statement)} (parsed : parseTokens tokens = .ok statements) :
    ∃ statements', parseTokens others = .ok statements' ∧
      statements'.map (Located.unplaced Statement.unplaced) =
        statements.map (Located.unplaced Statement.unplaced) := by
  obtain ⟨parts, reads, rfl⟩ := parseTokens_eq_ok_lines.mp parsed
  have lines : ∃ parts', List.Forall₂ (fun segment part => lineStatements? segment = some part)
      (lineTokens others) parts' ∧
      parts'.flatten.map (Located.unplaced Statement.unplaced) =
        parts.flatten.map (Located.unplaced Statement.unplaced) := by
    have plain : ∀ segment ∈ lineTokens tokens, ∀ t ∈ segment, t.kind ≠ .newline :=
      fun _ mem => (mem_lineTokens mem).2
    have split := h.lines
    clear parsed
    generalize lineTokens tokens = segments, lineTokens others = segments' at split reads plain
    induction split generalizing parts with
    | nil =>
        cases reads
        exact ⟨[], .nil, rfl⟩
    | @cons segment segment' segments segments' head _ ih =>
        obtain ⟨here, later⟩ := List.forall_mem_cons.mp plain
        cases reads with
        | @cons _ part _ parts read reads =>
            have regrouped := splits_line here read _ head
            obtain ⟨part', read', same⟩ := lineStatements_regrouped regrouped here read
            obtain ⟨parts', reads', sames⟩ := ih parts reads later
            refine ⟨part' :: parts', .cons read' reads', ?_⟩
            rw [List.flatten_cons, List.flatten_cons, List.map_append, List.map_append, same, sames]
  obtain ⟨parts', reads', same⟩ := lines
  exact ⟨parts'.flatten, parseTokens_eq_ok_lines.mpr ⟨parts', reads', rfl⟩, same⟩

end Files

/-- A text whose keys are split is read as the same statements. -/
theorem parse_splitKeys {source : String} {statements : List (Located Statement)}
    (parsed : parse source = .ok statements) (chosen : Nat → Bool) :
    ∃ statements', parse (splitKeys chosen source) = .ok statements' ∧
      statements'.map (Located.unplaced Statement.unplaced) =
        statements.map (Located.unplaced Statement.unplaced) := by
  unfold parse at parsed ⊢
  cases tokenized : tokenize source with
  | error diagnostics =>
      rw [tokenized] at parsed
      cases parsed
  | ok tokens =>
      rw [tokenized] at parsed
      obtain ⟨others, tokenized', split⟩ := tokenize_splitKeys tokenized chosen
      rw [tokenized']
      exact parseTokens_splitTokens split parsed

end OpSelect
