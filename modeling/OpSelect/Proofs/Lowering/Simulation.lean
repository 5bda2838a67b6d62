import Mathlib.Data.Option.Basic
import OpSelect.Proofs.Lowering.Statement
import OpSelect.Proofs.Program.Placement

/-!
Two runs of lowering side by side. A `Simulation` says how their states, the places that they point
to, the contexts that they fill and the ways in which they stop correspond. Under a few conditions
on these, which are about single steps, the runs of statements that differ in their places only
correspond as well. The programs of lowering are walked through here and nowhere else for this: that
diagnostics point to places of the text, that nothing is decided by places, and that a larger
catalog changes nothing are simulations with these conditions.
-/

namespace OpSelect

section Moved

variable {α : Type} (place : Span → Span → Prop)

/-- Two nodes that correspond, at places that do. -/
structure Located.Moved (same : α → α → Prop) (x y : Located α) : Prop where
  node : same x.node y.node
  span : place x.span y.span

/-- The same operand, with its keys at other places. -/
structure Operand.Moved (o p : Operand) : Prop where
  base : p.base = o.base
  keys : List.Forall₂ (Located.Moved place Eq) o.keys p.keys

abbrev Operand.AllMoved : List (Located Operand) → List (Located Operand) → Prop :=
  List.Forall₂ (Located.Moved place (Operand.Moved place))

structure Form.Moved (f g : Form) : Prop where
  mnemonic : g.mnemonic = f.mnemonic
  operands : Operand.AllMoved place f.operands g.operands
  targets : g.targets = f.targets

/-- The same statement, with its operands and their keys at other places. -/
inductive Statement.Moved : Statement → Statement → Prop where
  | form {s t : Statement} {f g : Form} (isForm : s.form = some f) (isForm' : t.form = some g)
      (apart : ∀ target source, s ≠ .assign target (.operand source))
      (apart' : ∀ target source, t ≠ .assign target (.operand source))
      (moved : f.Moved place g) : Moved s t
  | copy {target source target' source' : Located Operand}
      (moved : Operand.AllMoved place [target, source] [target', source']) :
      Moved (.assign target (.operand source)) (.assign target' (.operand source'))
  | create {target target' : Located Operand} {type type' : Located Atom}
      (moved : target.Moved place (Operand.Moved place) target')
      (named : type.Moved place Eq type') :
      Moved (.assign target (.new type)) (.assign target' (.new type'))
  | bare {s : Statement} (formless : s.form = none)
      (apart : ∀ target type, s ≠ .assign target (.new type)) : Moved s s

abbrev Statement.AllMoved : List (Located Statement) → List (Located Statement) → Prop :=
  List.Forall₂ (Located.Moved place (Statement.Moved place))

structure Remark.Moved (r q : Remark) : Prop where
  span : place r.span q.span
  message : q.message = r.message

/-- The same diagnostic about other places. -/
structure Diagnostic.Moved (d e : Diagnostic) : Prop where
  span : place d.span e.span
  remarks : List.Forall₂ (Remark.Moved place) d.remarks e.remarks
  rest : e = { d with span := e.span, remarks := e.remarks }

variable {place}

/-- All places that a statement, its operands and their keys have. -/
def Statement.spans (s : Located Statement) : List Span :=
  s.span :: s.node.operands.flatMap fun o => o.span :: o.node.keys.map Located.span

theorem Operand.moved_self {o : Located Operand}
    (h : ∀ span ∈ o.span :: o.node.keys.map Located.span, place span span) :
    o.Moved place (Operand.Moved place) o := by
  obtain ⟨here, keys⟩ := List.forall_mem_cons.mp h
  refine ⟨⟨rfl, List.forall₂_same.mpr fun key mem => ?_⟩, here⟩
  exact ⟨rfl, keys key.span (List.mem_map_of_mem mem)⟩

theorem Statement.form_operands {s : Statement} {f : Form} (isForm : s.form = some f) :
    f.operands = s.operands := by
  cases s with
  | openSub | closeSub | declare | label => cases isForm
  | instruction | jump | call =>
      cases isForm
      rfl
  | branch negated condition =>
      cases condition <;> cases isForm <;> rfl
  | assign target value => cases value <;> cases isForm <;> rfl

/-- A statement corresponds to itself if its places do. -/
theorem Statement.moved_self {s : Located Statement}
    (h : ∀ span ∈ Statement.spans s, place span span) :
    s.Moved place (Statement.Moved place) s := by
  obtain ⟨here, inside⟩ := List.forall_mem_cons.mp h
  have operands : Operand.AllMoved place s.node.operands s.node.operands := by
    refine List.forall₂_same.mpr fun o mem => Operand.moved_self fun span isSpan => ?_
    exact inside span (List.mem_flatMap.mpr ⟨o, mem, isSpan⟩)
  refine ⟨?_, here⟩
  have form {f : Form} (isForm : s.node.form = some f)
      (apart : ∀ target source, s.node ≠ .assign target (.operand source)) :
      Statement.Moved place s.node s.node :=
    .form isForm isForm apart apart ⟨rfl, form_operands isForm ▸ operands, rfl⟩
  obtain ⟨node, span⟩ := s
  cases node with
  | openSub | closeSub | declare | label => exact .bare rfl (by simp)
  | instruction | jump | call | branch => exact form rfl (by simp)
  | assign target value =>
      cases value with
      | operand source => exact .copy operands
      | binary | unary | addr | defined | clone => exact form rfl (by simp)
      | new type =>
          cases operands with
          | cons isTarget rest =>
              cases rest with
              | cons isType _ => exact .create isTarget ⟨rfl, isType.span⟩

theorem Diagnostic.moved_error {p q : Span} (here : place p q) (message : String) :
    (error p message).Moved place (error q message) :=
  ⟨here, .nil, rfl⟩

theorem Diagnostic.Moved.withHelp {d e : Diagnostic} (h : d.Moved place e) (help : String) :
    (d.withHelp help).Moved place (e.withHelp help) := by
  refine ⟨h.span, h.remarks, ?_⟩
  rw [h.rest]
  rfl

/-- The advice on a refusal does not depend on its place. -/
theorem SelectError.diagnostic_moved {p q : Span} (here : place p q) (error : SelectError) :
    (error.diagnostic p).Moved place (error.diagnostic q) := by
  cases error with
  | symbol error => cases error <;> exact ⟨here, .nil, rfl⟩
  | unresolvedOpcode | unsupportedIndexedAssignment | illegalKeyedOperand | arityExceeded
  | unknownAggregateType => exact ⟨here, .nil, rfl⟩

end Moved

/-- Two requests for the same, with contexts that correspond. -/
inductive Request.Matches (context : Context → Context → Prop) : Request → Request → Prop where
  | operation (mnemonic : String) {c d : Context} (filled : context c d) :
      Matches context (.operation mnemonic c) (.operation mnemonic d)
  | fetch (dest container key : SymbolId) :
      Matches context (.fetch dest container key) (.fetch dest container key)
  | store (container key value : SymbolId) :
      Matches context (.store container key value) (.store container key value)
  | label (name : String) : Matches context (.label name) (.label name)

theorem Request.Matches.eq {r q : Request} (h : r.Matches Eq q) : q = r := by
  cases h with
  | operation mnemonic filled => rw [filled]
  | fetch | store | label => rfl

/-- How two runs correspond. A lenient simulation asks nothing where the first run stops. -/
structure Simulation where
  state : Lowering → Lowering → Prop
  place : Span → Span → Prop
  context : Context → Context → Prop
  stop : Stop → Stop → Prop
  lenient : Prop := False

namespace Simulation

open Lowering

variable {S : Simulation} {α β γ δ : Type} {R : α → β → Prop} {σ τ : Lowering} {p q : Span}

/-- Where the first run finishes, the second finishes with a result that corresponds. -/
def Outcome (S : Simulation) (R : α → β → Prop) (x : Except Stop (α × Lowering))
    (y : Except Stop (β × Lowering)) : Prop :=
  match x with
  | .ok (a, σ) => ∃ b τ, y = .ok (b, τ) ∧ R a b ∧ S.state σ τ
  | .error stop => S.lenient ∨ ∃ other, y = .error other ∧ S.stop stop other

def Relates (S : Simulation) (R : α → β → Prop) (m : Lower α) (n : Lower β) : Prop :=
  ∀ σ τ, S.state σ τ → S.Outcome R (m.run σ) (n.run τ)

/-- Two results of the selector. What is refused is refused for the same reason. -/
def Agrees (S : Simulation) (R : α → β → Prop) (x : Except Fault α) (y : Except Fault β) : Prop :=
  match x with
  | .ok a => ∃ b, y = .ok b ∧ R a b
  | .error (.rejected error) => S.lenient ∨ y = .error (.rejected error)
  | .error (.misuse misuse) =>
      S.lenient ∨ y = .error (.misuse misuse) ∧ S.stop (.misuse misuse) (.misuse misuse)

/-- Two steps of the selector. -/
structure Steps (S : Simulation) (R : α → β → Prop) (σ τ : Lowering)
    (x : Selector × Except Fault α) (y : Selector × Except Fault β) : Prop where
  agrees : S.Agrees R x.2 y.2
  state : ∀ a, x.2 = .ok a → S.state { σ with selector := x.1 } { τ with selector := y.1 }

/-- A subroutine that is open in both runs, and where each was opened. -/
def Opened (S : Simulation) : Option (String × Span) → Option (String × Span) → Prop :=
  Option.Rel fun opened other => other.1 = opened.1 ∧ S.place opened.2 other.2

/-- The conditions on places: those that are remembered, and those that are reported. -/
structure Points (S : Simulation) : Prop where
  note : ∀ {σ τ p q}, S.state σ τ → S.place p q → ∀ id, S.state (σ.note id p) (τ.note id q)
  opened : ∀ {σ τ}, S.state σ τ → S.Opened σ.openSub τ.openSub
  withOpened : ∀ {σ τ}, S.state σ τ → ∀ {opened other}, S.Opened opened other →
    S.state { σ with openSub := opened } { τ with openSub := other }
  report : ∀ {d e}, d.Moved S.place e → S.stop (.reported [d]) (.reported [e])

/-- The conditions for what turns operands into symbols. -/
structure Sound (S : Simulation) : Prop extends Points S where
  symbols : ∀ {σ τ}, S.state σ τ → τ.selector.symbols = σ.selector.symbols
  withSymbols : ∀ {σ τ}, S.state σ τ → ∀ table,
    S.state (σ.withSymbols table) (τ.withSymbols table)
  known : ∀ {σ τ name number}, S.state σ τ → σ.selector.catalog.typeId name = some number →
    τ.selector.catalog.typeId name = some number
  unknown : ∀ {σ τ name}, S.state σ τ → σ.selector.catalog.typeId name = none →
    S.lenient ∨ τ.selector.catalog.typeId name = none

/-- The conditions for what makes a request. -/
structure Lowers (S : Simulation) : Prop extends Sound S where
  start : ∀ {σ τ}, S.state σ τ → S.context σ.selector.context τ.selector.context
  fill : ∀ {c d}, S.context c d → ∀ slots, S.Agrees S.context (c.fill slots) (d.fill slots)

/-- The conditions for what is done on a request. -/
structure Executes (S : Simulation) : Prop extends Lowers S where
  answer : ∀ {σ τ} {r q : Request}, S.state σ τ → r.Matches S.context q →
    S.Steps Eq σ τ (r.answer σ.selector) (q.answer τ.selector)

section Rules

theorem relates_pure {a : α} {b : β} (related : R a b) :
    S.Relates R (pure a : Lower α) (pure b) :=
  fun _ τ h => ⟨b, τ, rfl, related, h⟩

theorem Relates.bind {Q : γ → δ → Prop} {m : Lower α} {n : Lower β} {f : α → Lower γ}
    {g : β → Lower δ} (first : S.Relates R m n) (rest : ∀ a b, R a b → S.Relates Q (f a) (g b)) :
    S.Relates Q (m >>= f) (n >>= g) := by
  intro σ τ h
  have begun := first σ τ h
  rw [StateT.run_bind, StateT.run_bind]
  cases ran : m.run σ with
  | error stop =>
      rw [ran] at begun
      refine begun.imp id ?_
      rintro ⟨other, failed, stops⟩
      exact ⟨other, by rw [failed]; rfl, stops⟩
  | ok out =>
      rw [ran] at begun
      obtain ⟨b, τ', finished, related, h'⟩ := begun
      rw [finished]
      exact rest out.1 b related out.2 τ' h'

/-- The usual case of `bind`, where the first result is the same. -/
theorem Relates.andThen {Q : γ → δ → Prop} {m n : Lower α} {f : α → Lower γ} {g : α → Lower δ}
    (first : S.Relates Eq m n) (rest : ∀ a, S.Relates Q (f a) (g a)) :
    S.Relates Q (m >>= f) (n >>= g) := by
  refine first.bind ?_
  rintro a _ rfl
  exact rest a

theorem relates_get : S.Relates S.state (get : Lower Lowering) get :=
  fun _ τ h => ⟨τ, τ, rfl, h, h⟩

theorem relates_modify {f g : Lowering → Lowering}
    (keeps : ∀ σ τ, S.state σ τ → S.state (f σ) (g τ)) :
    S.Relates Eq (modify f : Lower PUnit) (modify g) :=
  fun σ τ h => ⟨_, g τ, rfl, rfl, keeps σ τ h⟩

theorem relates_mapM {P : γ → δ → Prop} {f : γ → Lower α} {g : δ → Lower α} {cs : List γ}
    {ds : List δ} (each : ∀ c d, P c d → S.Relates Eq (f c) (g d))
    (related : List.Forall₂ P cs ds) :
    S.Relates Eq (cs.mapM f) (ds.mapM g) := by
  induction related with
  | nil => exact relates_pure rfl
  | cons head _ ih =>
      rw [List.mapM_cons, List.mapM_cons]
      exact (each _ _ head).andThen fun _ => ih.andThen fun _ => relates_pure rfl

theorem relates_foldlM {P : γ → δ → Prop} {f : α → γ → Lower α} {g : β → δ → Lower β}
    {cs : List γ} {ds : List δ} {a : α} {b : β}
    (each : ∀ a b c d, R a b → P c d → S.Relates R (f a c) (g b d))
    (related : List.Forall₂ P cs ds) (begins : R a b) :
    S.Relates R (cs.foldlM f a) (ds.foldlM g b) := by
  induction related generalizing a b with
  | nil => exact relates_pure begins
  | cons head _ ih =>
      rw [List.foldlM_cons, List.foldlM_cons]
      exact (each a b _ _ begins head).bind fun _ _ related => ih related

theorem relates_forM {P : γ → δ → Prop} {f : γ → Lower PUnit} {g : δ → Lower PUnit} {cs : List γ}
    {ds : List δ} (each : ∀ c d, P c d → S.Relates Eq (f c) (g d))
    (related : List.Forall₂ P cs ds) :
    S.Relates Eq (cs.forM f) (ds.forM g) := by
  induction related with
  | nil => exact relates_pure rfl
  | cons head _ ih => exact (each _ _ head).andThen fun _ => ih

end Rules

/-- A result of the selector corresponds to the other as the result that it is. -/
theorem Agrees.remember {x : Except Fault α} {y : Except Fault β} (h : S.Agrees R x y) :
    S.Agrees (fun a b => x = .ok a ∧ R a b) x y := by
  cases x with
  | ok a =>
      obtain ⟨b, isOk, related⟩ := h
      exact ⟨b, isOk, rfl, related⟩
  | error fault => cases fault <;> exact h

namespace Sound

variable (h : S.Sound) (here : S.place p q)

include h

theorem relates_report {d e : Diagnostic} (moved : d.Moved S.place e) :
    S.Relates R (Lowering.report d : Lower α) (Lowering.report e) :=
  fun _ _ _ => .inr ⟨_, rfl, h.report moved⟩

include here

theorem relates_expect {x : Except Fault α} {y : Except Fault β} (agrees : S.Agrees R x y) :
    S.Relates R (expect p x) (expect q y) := by
  cases x with
  | ok a =>
      obtain ⟨b, rfl, related⟩ := agrees
      exact relates_pure related
  | error fault =>
      cases fault with
      | rejected error =>
          rcases agrees with lenient | rfl
          · exact fun _ _ _ => .inl lenient
          · exact h.relates_report (error.diagnostic_moved here)
      | misuse misuse =>
          rcases agrees with lenient | ⟨rfl, stops⟩
          · exact fun _ _ _ => .inl lenient
          · exact fun _ _ _ => .inr ⟨_, rfl, stops⟩

theorem relates_select {step : Selector → Selector × Except Fault α}
    {other : Selector → Selector × Except Fault β}
    (steps : ∀ σ τ, S.state σ τ → S.Steps R σ τ (step σ.selector) (other τ.selector)) :
    S.Relates R (select p step) (select q other) := by
  intro σ τ start
  obtain ⟨agrees, state⟩ := steps σ τ start
  have rest : S.Relates R (do
        let a ← expect p (step σ.selector).2
        set { σ with selector := (step σ.selector).1 }
        return a)
      (do
        let b ← expect q (other τ.selector).2
        set { τ with selector := (other τ.selector).1 }
        return b) := by
    refine (h.relates_expect here agrees.remember).bind fun a b result => ?_
    exact fun _ _ _ => ⟨b, _, rfl, result.2, state a result.1⟩
  exact rest σ τ start

theorem relates_symbols (step : SymbolTable → Except SymbolError (SymbolTable × SymbolId)) :
    S.Relates Eq (Lowering.symbols p step) (Lowering.symbols q step) := by
  refine h.relates_select here fun σ τ start => ?_
  rw [h.symbols start]
  cases stepped : step σ.selector.symbols with
  | error error => exact ⟨.inr rfl, nofun⟩
  | ok out => exact ⟨⟨out.2, rfl, rfl⟩, fun _ _ => h.withSymbols start out.1⟩

theorem relates_labelRef (name : String) : S.Relates Eq (labelRef name p) (labelRef name q) := by
  refine (h.relates_symbols here _).andThen fun id => ?_
  refine Relates.andThen ?_ fun _ => relates_pure rfl
  exact relates_modify fun σ τ start => h.note start here id

theorem relates_word (name : String) : S.Relates Eq (word name p) (word name q) := by
  have undeclared : S.Relates Eq (word.undeclared name p) (word.undeclared name q) := by
    unfold word.undeclared
    split
    · exact h.relates_symbols here _
    · exact h.relates_labelRef here name
  refine relates_get.bind fun σ τ start => ?_
  rw [h.symbols start]
  dsimp only
  split
  · split
    · exact undeclared
    · exact relates_pure rfl
  · exact undeclared

theorem relates_aggregateType (name : String) :
    S.Relates Eq (select p (·.aggregateType name)) (select q (·.aggregateType name)) := by
  refine h.relates_select here fun σ τ start => ?_
  unfold Selector.aggregateType
  cases known : σ.selector.catalog.typeId name with
  | none =>
      refine ⟨(h.unknown start known).imp id fun unknown => ?_, nofun⟩
      rw [unknown]
  | some number =>
      rw [h.known start known, h.symbols start]
      exact ⟨⟨_, rfl, rfl⟩, fun _ _ => h.withSymbols start _⟩

omit here in
theorem relates_typeNumber {type other : Located Atom} (moved : type.Moved S.place Eq other) :
    S.Relates Eq (typeNumber type) (typeNumber other) := by
  obtain ⟨a, p⟩ := type
  obtain ⟨_, q⟩ := other
  obtain ⟨rfl, here⟩ := moved
  cases a with
  | typeName name | word name => exact h.relates_aggregateType here name
  | integer | float | string | register =>
      exact h.relates_report (Diagnostic.moved_error here _)

omit here in
theorem relates_intern (step : SymbolTable → SymbolTable × SymbolId) :
    S.Relates Eq (intern step) (intern step) := by
  refine relates_get.bind fun σ τ start => ?_
  rw [h.symbols start]
  exact fun _ _ _ => ⟨_, _, rfl, rfl, h.withSymbols start _⟩

theorem relates_atom (a : Atom) : S.Relates Eq (atom a p) (atom a q) := by
  unfold atom
  cases a with
  | integer | float | string => exact h.relates_intern _
  | typeName name => exact h.relates_aggregateType here name
  | word name => exact h.relates_word here name
  | register name =>
      dsimp only
      split
      · exact h.relates_symbols here _
      · exact h.relates_report (Diagnostic.moved_error here _)

theorem relates_openSubroutine (name : String) :
    S.Relates (Request.Matches S.context) (openSubroutine p name) (openSubroutine q name) := by
  refine relates_get.bind fun σ τ start => ?_
  have opened := h.opened start
  generalize σ.openSub = sub, τ.openSub = other at opened ⊢
  cases opened with
  | none =>
      refine Relates.andThen ?_ fun _ => relates_pure (.label name)
      exact relates_modify fun σ τ start => h.withOpened start (.some ⟨rfl, here⟩)
  | some opened =>
      obtain ⟨same, there⟩ := opened
      dsimp only
      rw [same]
      refine h.relates_report (Diagnostic.Moved.withHelp ?_ _)
      exact ⟨here, .cons ⟨there, rfl⟩ .nil, rfl⟩

theorem relates_closeSubroutine : S.Relates Eq (closeSubroutine p) (closeSubroutine q) := by
  refine relates_get.bind fun σ τ start => ?_
  have opened := h.opened start
  generalize σ.openSub = sub, τ.openSub = other at opened ⊢
  cases opened with
  | none => exact h.relates_report (Diagnostic.moved_error here _)
  | some => exact relates_modify fun σ τ start => h.withOpened start .none

theorem relates_declare (typeName name : String) :
    S.Relates Eq (declare p typeName name) (declare q typeName name) := by
  unfold declare
  split
  · exact (h.relates_symbols here _).andThen fun _ => relates_pure rfl
  · exact h.relates_report ((Diagnostic.moved_error here _).withHelp _)

omit here

theorem relates_key {first other : Located Atom} {rest others : List (Located Atom)}
    (head : first.Moved S.place Eq other)
    (tail : List.Forall₂ (Located.Moved S.place Eq) rest others) :
    S.Relates Eq (key first rest) (key other others) := by
  have atoms : ∀ a b : Located Atom, a.Moved S.place Eq b →
      S.Relates Eq (atom a.node a.span) (atom b.node b.span) := by
    intro a b moved
    rw [← moved.node]
    exact h.relates_atom moved.span a.node
  refine (atoms _ _ head).andThen fun _ => ?_
  exact (relates_mapM atoms tail).andThen fun _ => h.relates_intern _

theorem relates_slot {o other : Located Operand}
    (moved : o.Moved S.place (Operand.Moved S.place) other) :
    S.Relates Eq (slot o) (slot other) := by
  unfold slot
  rw [moved.node.base]
  refine (h.relates_atom moved.span _).andThen fun base => ?_
  have keys := moved.node.keys
  generalize o.node.keys = own, other.node.keys = others at keys ⊢
  cases keys with
  | nil => exact relates_pure rfl
  | cons head tail => exact (h.relates_key head tail).andThen fun _ => relates_pure rfl

end Sound

namespace Lowers

variable (h : S.Lowers)

include h

theorem relates_context : S.Relates S.context Lowering.context Lowering.context :=
  relates_get.bind fun _ _ start => relates_pure (h.start start)

theorem relates_append {c d : Context} {o other : Located Operand} (filled : S.context c d)
    (moved : o.Moved S.place (Operand.Moved S.place) other) :
    S.Relates S.context (append c o) (append d other) :=
  (h.relates_slot moved).andThen fun s => h.relates_expect moved.span (h.fill filled [s])

theorem relates_appendSymbol {c d : Context} (here : S.place p q) (filled : S.context c d)
    (id : SymbolId) : S.Relates S.context (appendSymbol c p id) (appendSymbol d q id) :=
  h.relates_expect here (h.fill filled [.plain id])

theorem relates_perform {f g : Form} (here : S.place p q) (moved : f.Moved S.place g) :
    S.Relates (Request.Matches S.context) (perform p f) (perform q g) := by
  unfold perform
  rw [moved.mnemonic, moved.targets]
  refine h.relates_context.bind fun c d start => ?_
  refine Relates.bind (relates_foldlM (fun _ _ _ _ => h.relates_append) moved.operands start) ?_
  intro c d filled
  have targets : List.Forall₂ Eq f.targets f.targets := by
    rw [List.forall₂_eq_eq_eq]
  refine Relates.bind (relates_foldlM ?_ targets filled) fun c d complete => ?_
  · rintro c d label _ filled rfl
    exact (h.relates_labelRef here label).andThen fun id => h.relates_appendSymbol here filled id
  · exact relates_pure (.operation f.mnemonic complete)

theorem relates_copy {target source target' source' : Located Operand}
    (moved : Operand.AllMoved S.place [target, source] [target', source']) :
    S.Relates (Request.Matches S.context) (copy target source) (copy target' source') := by
  obtain ⟨isTarget, isSource⟩ : target.Moved S.place (Operand.Moved S.place) target' ∧
      source.Moved S.place (Operand.Moved S.place) source' := by
    cases moved with
    | cons isTarget rest => cases rest with | cons isSource _ => exact ⟨isTarget, isSource⟩
  have set : S.Relates (Request.Matches S.context) (operation "set" [target, source])
      (operation "set" [target', source']) := by
    rw [operation_eq_perform target.span, operation_eq_perform target'.span]
    exact h.relates_perform isTarget.span ⟨rfl, moved, rfl⟩
  have isTargetBase := h.relates_atom isTarget.span target.node.base
  have isSourceBase := h.relates_atom isSource.span source.node.base
  have left := isTarget.node.keys
  have right := isSource.node.keys
  unfold copy
  rw [isTarget.node.base, isSource.node.base]
  generalize target.node.keys = a, target'.node.keys = a' at left ⊢
  generalize source.node.keys = b, source'.node.keys = b' at right ⊢
  cases left with
  | nil =>
      cases right with
      | nil => exact set
      | cons head tail =>
          refine isTargetBase.andThen fun dest => isSourceBase.andThen fun container => ?_
          refine (h.relates_key head tail).andThen fun key => ?_
          exact relates_pure (.fetch dest container key)
  | cons head tail =>
      cases right with
      | nil =>
          refine isTargetBase.andThen fun container => ?_
          refine (h.relates_key head tail).andThen fun key => ?_
          exact isSourceBase.andThen fun value => relates_pure (.store container key value)
      | cons => exact set

theorem relates_create {target target' : Located Operand} {type type' : Located Atom}
    (here : S.place p q) (moved : target.Moved S.place (Operand.Moved S.place) target')
    (named : type.Moved S.place Eq type') :
    S.Relates (Request.Matches S.context) (create p target type) (create q target' type') := by
  refine (h.relates_typeNumber named).andThen fun id => ?_
  refine h.relates_context.bind fun c d start => ?_
  refine (h.relates_append start moved).bind fun c d filled => ?_
  refine (h.relates_appendSymbol here filled id).bind fun c d complete => ?_
  exact relates_pure (.operation "new" complete)

theorem relates_request {s t : Located Statement}
    (moved : s.Moved S.place (Statement.Moved S.place) t) :
    S.Relates (Option.Rel (Request.Matches S.context)) (request s) (request t) := by
  have asked {m n : Lower Request} (related : S.Relates (Request.Matches S.context) m n) :
      S.Relates (Option.Rel (Request.Matches S.context)) (do return some (← m))
        (do return some (← n)) :=
    related.bind fun _ _ matching => relates_pure (.some matching)
  obtain ⟨s, p⟩ := s
  obtain ⟨t, q⟩ := t
  obtain ⟨node, here⟩ := moved
  cases node with
  | form isForm isForm' apart apart' moved =>
      rw [request_eq_perform isForm apart, request_eq_perform isForm' apart']
      exact asked (h.relates_perform here moved)
  | copy moved => exact asked (h.relates_copy moved)
  | create moved named => exact asked (h.relates_create here moved named)
  | bare formless apart =>
      cases s with
      | openSub name => exact asked (h.relates_openSubroutine here name)
      | closeSub =>
          exact (h.relates_closeSubroutine here).andThen fun _ => relates_pure .none
      | declare typeName name =>
          exact (h.relates_declare here typeName name).andThen fun _ => relates_pure .none
      | label name => exact relates_pure (.some (.label name))
      | instruction | jump | call | branch => cases formless
      | assign target value =>
          cases value with
          | new type => exact absurd rfl (apart target type)
          | operand | binary | unary | addr | defined | clone => cases formless

end Lowers

section Instances

theorem opened_self {opened : Option (String × Span)}
    (h : ∀ sub ∈ opened, S.place sub.2 sub.2) : S.Opened opened opened := by
  cases opened with
  | none => exact .none
  | some sub => exact .some ⟨rfl, h sub rfl⟩

theorem Opened.map_eq {opened other : Option (String × Span)} {f : Span → Span}
    (h : S.Opened opened other) (moves : ∀ p q, S.place p q → q = f p) :
    other = opened.map (Prod.map id f) := by
  cases h with
  | none => rfl
  | some related => exact congrArg some (Prod.ext related.1 (moves _ _ related.2))

theorem Opened.eq {opened other : Option (String × Span)} (h : S.Opened opened other)
    (fixed : ∀ p q, S.place p q → q = p) : other = opened := by
  simpa using h.map_eq (f := id) fixed

theorem agrees_self {x : Except Fault α}
    (stops : ∀ misuse, x = .error (.misuse misuse) → S.stop (.misuse misuse) (.misuse misuse)) :
    S.Agrees Eq x x := by
  cases x with
  | ok a => exact ⟨a, rfl, rfl⟩
  | error fault =>
      cases fault with
      | rejected error => exact .inr rfl
      | misuse misuse => exact .inr ⟨rfl, stops misuse rfl⟩

/-- The conditions where both runs have the same selector. -/
structure SameSelector (S : Simulation) : Prop extends Points S where
  selector : ∀ {σ τ}, S.state σ τ → τ.selector = σ.selector
  withSelector : ∀ {σ τ}, S.state σ τ → ∀ selector,
    S.state { σ with selector } { τ with selector }

theorem SameSelector.sound (h : S.SameSelector) : S.Sound where
  toPoints := h.toPoints
  symbols start := by rw [h.selector start]
  withSymbols start table := by
    unfold withSymbols
    rw [h.selector start]
    exact h.withSelector start _
  known start known := by rwa [h.selector start]
  unknown start unknown := .inr (by rwa [h.selector start])

theorem SameSelector.executes (h : S.SameSelector) (context : S.context = Eq)
    (stops : ∀ misuse, S.stop (.misuse misuse) (.misuse misuse)) : S.Executes where
  toSound := h.sound
  start start := by rw [h.selector start, context]
  fill := by
    rw [context]
    rintro c _ rfl slots
    exact agrees_self fun misuse _ => stops misuse
  answer := by
    rw [context]
    intro σ τ r q start matching
    rw [matching.eq, h.selector start]
    exact ⟨agrees_self fun misuse _ => stops misuse, fun _ _ => h.withSelector start _⟩

end Instances

theorem Executes.relates_statement (h : S.Executes) {s t : Located Statement}
    (moved : s.Moved S.place (Statement.Moved S.place) t) :
    S.Relates Eq (statement s) (statement t) := by
  refine (h.relates_request moved).bind fun asked asked' related => ?_
  cases related with
  | none => exact relates_pure rfl
  | some matching =>
      refine Relates.andThen ?_ fun _ => relates_pure rfl
      exact h.relates_select moved.span fun σ τ start => h.answer start matching

theorem Executes.relates_run (h : S.Executes) {statements others : List (Located Statement)}
    (moved : Statement.AllMoved S.place statements others) :
    S.Relates Eq (statements.forM statement) (others.forM statement) :=
  relates_forM (fun _ _ => h.relates_statement) moved

end Simulation
end OpSelect
