import OpSelect.Span

/-!
Tokens of intermediate code. A token is either one of the fixed marks, a newline,
or a word or literal that carries what it stands for.
-/

namespace OpSelect

/-- Keywords, punctuation and operators: the tokens with one fixed spelling. -/
inductive Mark where
  | gotoWord | ifWord | unlessWord | newWord
  | comma | colon | semicolon | openBracket | closeBracket | equals
  | plus | minus | star | slash | dot | percent | starStar
  | shiftLeft | shiftRight | shiftRightLogical
  | andAnd | orOr | tildeTilde | ampersand | pipe | tilde | bang
  | equalsEquals | notEquals | less | lessEquals | greater | greaterEquals
deriving DecidableEq, Repr

namespace Mark

def text : Mark → String
  | gotoWord => "goto"
  | ifWord => "if"
  | unlessWord => "unless"
  | newWord => "new"
  | comma => ","
  | colon => ":"
  | semicolon => ";"
  | openBracket => "["
  | closeBracket => "]"
  | equals => "="
  | plus => "+"
  | minus => "-"
  | star => "*"
  | slash => "/"
  | dot => "."
  | percent => "%"
  | starStar => "**"
  | shiftLeft => "<<"
  | shiftRight => ">>"
  | shiftRightLogical => ">>>"
  | andAnd => "&&"
  | orOr => "||"
  | tildeTilde => "~~"
  | ampersand => "&"
  | pipe => "|"
  | tilde => "~"
  | bang => "!"
  | equalsEquals => "=="
  | notEquals => "!="
  | less => "<"
  | lessEquals => "<="
  | greater => ">"
  | greaterEquals => ">="

def all : List Mark :=
  [gotoWord, ifWord, unlessWord, newWord, comma, colon, semicolon, openBracket, closeBracket,
    equals, plus, minus, star, slash, dot, percent, starStar, shiftLeft, shiftRight,
    shiftRightLogical, andAnd, orOr, tildeTilde, ampersand, pipe, tilde, bang, equalsEquals,
    notEquals, less, lessEquals, greater, greaterEquals]

end Mark

/-- A directive's name is kept without its dot, a string with its escapes resolved,
a float as it was written, and an integer as its value. -/
inductive TokenKind where
  | mark (m : Mark)
  | newline
  | directive (name : String)
  | string (value : String)
  | float (text : String)
  | integer (value : Nat)
  | register (name : String)
  | word (name : String)
deriving DecidableEq, Repr

namespace TokenKind

/-- How a message names the token. -/
def describe : TokenKind → String
  | mark m => s!"'{m.text}'"
  | newline => "newline"
  | directive name => s!"'.{name}'"
  | string _ => "string literal"
  | float _ => "float literal"
  | integer _ => "integer literal"
  | register name => s!"register '{name}'"
  | word name => s!"identifier '{name}'"

end TokenKind

structure Token where
  kind : TokenKind
  span : Span
deriving DecidableEq, Repr

end OpSelect
