import OpSelect.Catalog.Basic

/-!
The catalog that every unit starts from. The order of the operations is fixed, since
it numbers them.
-/

namespace OpSelect
namespace BuiltIn

def out (tag : String) : String × Direction := (tag, .output)

def use (tag : String) : String × Direction := (tag, .input)

def update (tag : String) : String × Direction := (tag, .inOut)

def op (mnemonic : String) (args : List (String × Direction)) : OpSpec :=
  { mnemonic, args }

def jump (mnemonic : String) (args : List (String × Direction)) : OpSpec :=
  { mnemonic, args, jump := true }

/-- The tags of a key: a register or constant, not an integer or an integer. -/
def keyTags : List String := ["k", "kc", "ki", "kic"]

/-- Copies between registers, and constants into registers. -/
def copies : List OpSpec :=
  [("i", ["i", "ic", "n", "p"]), ("n", ["n", "nc", "i", "p"]), ("s", ["s", "sc", "i", "p"]),
    ("p", ["p", "i", "ic", "n", "nc", "s", "sc"])].flatMap fun (target, sources) =>
      sources.map fun source => op "set" [out target, use source]

/-- `set x, container[key]` -/
def keyedFetches : List OpSpec :=
  ["i", "n", "s", "p"].flatMap fun target =>
    keyTags.map fun key => op "set" [out target, use "p", use key]

/-- `set container[key], x` -/
def keyedStores : List OpSpec :=
  keyTags.flatMap fun key =>
    ["i", "ic", "n", "nc", "s", "sc", "p"].map fun source =>
      op "set" [update "p", use key, use source]

def objects : List OpSpec :=
  [op "set_addr" [out "i", use "ic"],
    op "new" [out "p", use "ic"],
    op "clone" [out "p", use "p"],
    op "clone" [out "s", use "s"],
    op "defined" [out "i", use "p"]] ++
  keyTags.map fun key => op "defined" [out "i", use "p", use key]

def unaries : List OpSpec :=
  [op "not" [out "i", use "i"],
    op "not" [out "p", use "p"],
    op "neg" [update "i"],
    op "neg" [out "i", use "i"],
    op "neg" [update "n"],
    op "neg" [out "n", use "n"],
    op "neg" [out "p", use "p"],
    op "bnot" [out "i", use "i"],
    op "bnot" [out "p", use "p"]]

def strings : List OpSpec :=
  [op "concat" [update "s", use "s"],
    op "concat" [update "s", use "sc"],
    op "concat" [out "s", use "s", use "s"],
    op "concat" [out "s", use "s", use "sc"],
    op "concat" [update "p", use "p"],
    op "concat" [out "p", use "p", use "p"],
    op "substr" [out "s", use "s", use "i", use "i"],
    op "substr" [out "s", use "s", use "i", use "ic"],
    op "substr" [out "s", use "s", use "ic", use "ic"],
    op "substr" [update "s", use "i", use "ic", use "s"],
    op "substr" [update "s", use "i", use "ic", use "sc"],
    op "substr" [update "s", use "ic", use "ic", use "s"],
    op "substr" [update "s", use "ic", use "ic", use "sc"],
    op "length" [out "i", use "s"]]

def counters : List OpSpec :=
  ["inc", "dec"].flatMap fun mnemonic =>
    ["i", "n", "p"].map fun tag => op mnemonic [update tag]

def prints : List OpSpec :=
  ["i", "ic", "n", "nc", "s", "sc", "p"].map fun tag => op "print" [use tag]

def jumps : List OpSpec :=
  [jump "branch" [use "ic"]] ++
  (["if", "unless"].flatMap fun mnemonic =>
    ["i", "n", "s", "p"].map fun tag => jump mnemonic [use tag, use "ic"]) ++
  [jump "bsr" [use "ic"], jump "ret" []]

/-- The operand forms of an arithmetic operation. -/
def arithmeticForms : List (List (String × Direction)) :=
  [[update "i", use "i"],
    [update "i", use "ic"],
    [update "n", use "n"],
    [update "n", use "nc"],
    [out "i", use "i", use "i"],
    [out "i", use "i", use "ic"],
    [out "i", use "ic", use "i"],
    [out "n", use "n", use "n"],
    [out "n", use "n", use "nc"],
    [out "n", use "nc", use "n"],
    [update "p", use "p"],
    [update "p", use "i"],
    [update "p", use "ic"],
    [out "p", use "p", use "p"],
    [out "p", use "p", use "i"],
    [out "p", use "p", use "ic"]]

/-- Shifts, logical and bitwise operations take integers or aggregates only. -/
def integerForms : List (List (String × Direction)) :=
  [[update "i", use "i"],
    [update "i", use "ic"],
    [out "i", use "i", use "i"],
    [out "i", use "i", use "ic"],
    [out "p", use "p", use "p"],
    [out "p", use "p", use "i"]]

def powerForms : List (List (String × Direction)) :=
  ["n", "nc", "i", "ic"].map fun exponent => [out "n", use "n", use exponent]

/-- Two values to compare and where to jump. -/
def comparisonForms : List (List (String × Direction)) :=
  [("i", "i"), ("i", "ic"), ("n", "n"), ("n", "nc"), ("s", "s"), ("s", "sc"), ("p", "p")].map
    fun (lhs, rhs) => [use lhs, use rhs, use "ic"]

def ops : List OpSpec :=
  ["end", "noop", "saveall", "restoreall"].map (op · []) ++
  copies ++ keyedFetches ++ keyedStores ++ objects ++ unaries ++ strings ++ counters ++
  prints ++ jumps ++
  (["add", "sub", "mul", "div", "mod"].flatMap fun mnemonic => arithmeticForms.map (op mnemonic)) ++
  (["shl", "shr", "lsr", "and", "or", "xor", "band", "bor", "bxor"].flatMap fun mnemonic =>
    integerForms.map (op mnemonic)) ++
  powerForms.map (op "pow") ++
  (["eq", "ne", "lt", "le", "gt", "ge"].flatMap fun mnemonic =>
    comparisonForms.map (jump mnemonic))

/-- The aggregate types, each numbered by its place. -/
def types : List String :=
  ["Undef", "Integer", "Float", "String", "Array", "Hash", "Key", "Sub",
    "PerlUndef", "PerlInt", "PerlNum", "PerlString", "PerlArray", "PerlHash"]

end BuiltIn

def Catalog.builtIn : Catalog :=
  BuiltIn.ops.foldl insert
    { types := BuiltIn.types.zipIdx.map fun (name, id) => (name, (id : Int)) }

end OpSelect
