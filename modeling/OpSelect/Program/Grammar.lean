import OpSelect.Program.Basic
import OpSelect.Program.Reader

/-!
The grammar of one line: an optional label and an optional statement, one of which
must be there, up to the newline or the end of the input. Alternatives are tried in
the order written, and the first that fits is taken.
-/

namespace OpSelect.Grammar

open Reader

/-- A contextual keyword: a word that is special in one place only. -/
def keyword (text : String) : Reader Unit := token (.word text)

def directive (name : String) : Reader Unit := token (.directive name)

def name : Reader String :=
  accept .unnamed fun
    | .word text => some text
    | _ => none

def unsignedAtom : Reader Atom :=
  accept .unnamed fun
    | .integer value => some (.integer value)
    | .float text => some (.float text)
    | .string value => some (.string value)
    | .register name => some (.register name)
    | .word name => some (.word name)
    | .directive name => some (.typeName name)
    | _ => none

/-- The number after a minus sign, negated. -/
def negatedNumber : Reader Atom :=
  accept .unnamed fun
    | .integer value => some (.integer (-value))
    | .float text => some (.float ("-" ++ text))
    | _ => none

def atom : Reader Atom := unsignedAtom <|> (mark .minus).right negatedNumber

/-- `[a]`, or several keys at once as `[a;b]`. -/
def keyGroup : Reader (List (Located Atom)) :=
  ((mark .openBracket).right (atom.located.separatedBy (mark .semicolon))).left
    (mark .closeBracket)

def operand : Reader (Located Operand) :=
  ((atom.followedBy keyGroup.many).map fun (base, groups) => ⟨base, groups.flatten⟩).located

def relation : Reader Relation :=
  accept .unnamed fun
    | .mark .equalsEquals => some .eq
    | .mark .notEquals => some .ne
    | .mark .less => some .lt
    | .mark .lessEquals => some .le
    | .mark .greater => some .gt
    | .mark .greaterEquals => some .ge
    | _ => none

def binaryOp : Reader BinaryOp :=
  accept .unnamed fun
    | .mark .plus => some .add
    | .mark .minus => some .sub
    | .mark .star => some .mul
    | .mark .slash => some .div
    | .mark .percent => some .mod
    | .mark .starStar => some .pow
    | .mark .shiftLeft => some .shl
    | .mark .shiftRight => some .shr
    | .mark .shiftRightLogical => some .lsr
    | .mark .andAnd => some .and
    | .mark .orOr => some .or
    | .mark .tildeTilde => some .xor
    | .mark .ampersand => some .bitAnd
    | .mark .pipe => some .bitOr
    | .mark .tilde => some .bitXor
    | .mark .dot => some .concat
    | _ => none

def unaryOp : Reader UnaryOp :=
  accept .unnamed fun
    | .mark .bang => some .not
    | .mark .minus => some .neg
    | .mark .tilde => some .bitNot
    | _ => none

def typeName : Reader Atom :=
  accept .unnamed fun
    | .directive name => some (.typeName name)
    | .word name => some (.word name)
    | _ => none

/-- The unary forms come last, so that `-5` is a literal and `-x` a negation. -/
def value : Reader Value :=
  ((mark .newWord).right typeName.located).map .new
    <|> ((keyword "addr").right name).map .addr
    <|> ((keyword "defined").right operand).map .defined
    <|> ((keyword "clone").right operand).map .clone
    <|> ((operand.andThen binaryOp).andThen operand).map (fun ((lhs, op), rhs) =>
      .binary op lhs rhs)
    <|> operand.map .operand
    <|> (unaryOp.andThen operand).map (fun (op, source) => .unary op source)

def condition : Reader Condition :=
  ((operand.andThen relation).andThen operand).map (fun ((lhs, op), rhs) => .compare op lhs rhs)
    <|> operand.map .truth

def conditional : Reader Statement :=
  ((((mark .ifWord).map (fun _ => false) <|> (mark .unlessWord).map (fun _ => true)).andThen
      condition).left (mark .gotoWord)).andThen name
    |>.map fun ((negated, test), label) => .branch negated test label

def mnemonic : Reader String :=
  name
    <|> (mark .ifWord).map (fun _ => "if")
    <|> (mark .unlessWord).map (fun _ => "unless")
    <|> (mark .newWord).map (fun _ => "new")

def instruction : Reader Statement :=
  (mnemonic.followedBy (operand.separatedBy (mark .comma)).optional).map
    fun (op, operands) => .instruction op (operands.getD [])

def statement : Reader Statement :=
  ((directive "sub").right name).map .openSub
    <|> (directive "end").map (fun _ => .closeSub)
    <|> (((directive "local").right name).andThen name).map (fun (type, declared) =>
      .declare type declared)
    <|> ((mark .gotoWord).right name).map .jump
    <|> conditional
    <|> ((keyword "call").right name).map .call
    <|> ((operand.left (mark .equals)).andThen value).map (fun (target, source) =>
      .assign target source)
    <|> instruction

/-- A label with what follows it, or a statement alone. -/
def labelled : Reader (List (Located Statement)) :=
  (((name.left (mark .colon)).map Statement.label).located.followedBy
      statement.located.optional).map (fun (label, rest) => label :: rest.toList)
    <|> statement.located.map (fun s => [s])

/-- Whether a line may end here, and the misses of looking. -/
def lineEnd (c : Cursor) : Bool × List Miss :=
  match c.rest with
  | [] => (true, [c.miss (.token .newline)])
  | t :: _ =>
      if t.kind = .newline then (true, [])
      else (false, [c.miss (.token .newline), c.miss .endOfInput])

/-- A line up to its end, which is not taken. -/
def line : Reader (List (Located Statement)) where
  run c :=
    let first := labelled.run c
    match first.result with
    | none => ⟨none, first.misses⟩
    | some (statements, d) =>
        let (ends, misses) := lineEnd d
        ⟨if ends then some (statements, d) else none, first.misses ++ misses⟩
  shortens := by
    intro c a d h
    dsimp only at h
    split at h
    · simp at h
    · rename_i s e he
      split at h
      · cases h
        exact labelled.shortens c a d he
      · simp at h

end OpSelect.Grammar
