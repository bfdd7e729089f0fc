/-!
# Kinds of tokens

* `Token.Kind`, `Kind.all`, `Kind.index`: the kinds and their order;
* `Kind.name`: the name of a kind in listings;
* `Kind.punctuation`, `Kind.keywords`: the kinds whose text is fixed, with that text;
* `Kind.ofWord`: the kind of a word, `identifier` unless it is a keyword.
-/

namespace Lox.Token

/-- The lexical category of a token. -/
inductive Kind where
  | leftParen | rightParen | leftBrace | rightBrace
  | comma | dot | minus | plus | semicolon | slash | star
  | bang | bangEqual | equal | equalEqual | greater | greaterEqual | less | lessEqual
  | identifier | string | number
  | andKw | classKw | elseKw | falseKw | funKw | forKw | ifKw | nilKw | orKw | printKw
  | returnKw | superKw | thisKw | trueKw | varKw | whileKw
  | eof
  deriving DecidableEq, Repr, Inhabited

namespace Kind

/-- Every kind once, in the order of the declaration. -/
def all : List Kind :=
  [leftParen, rightParen, leftBrace, rightBrace, comma, dot, minus, plus, semicolon, slash, star,
    bang, bangEqual, equal, equalEqual, greater, greaterEqual, less, lessEqual,
    identifier, string, number,
    andKw, classKw, elseKw, falseKw, funKw, forKw, ifKw, nilKw, orKw, printKw,
    returnKw, superKw, thisKw, trueKw, varKw, whileKw, eof]

theorem mem_all (k : Kind) : k ∈ all := by cases k <;> decide

/-- The place of a kind in `all`. -/
def index (k : Kind) : Nat := all.idxOf k

theorem all_index (k : Kind) : all[k.index]? = some k := by cases k <;> rfl

/-- The name of a kind in listings of tokens. -/
def name : Kind → String
  | leftParen => "LEFT_PAREN"
  | rightParen => "RIGHT_PAREN"
  | leftBrace => "LEFT_BRACE"
  | rightBrace => "RIGHT_BRACE"
  | comma => "COMMA"
  | dot => "DOT"
  | minus => "MINUS"
  | plus => "PLUS"
  | semicolon => "SEMICOLON"
  | slash => "SLASH"
  | star => "STAR"
  | bang => "BANG"
  | bangEqual => "BANG_EQUAL"
  | equal => "EQUAL"
  | equalEqual => "EQUAL_EQUAL"
  | greater => "GREATER"
  | greaterEqual => "GREATER_EQUAL"
  | less => "LESS"
  | lessEqual => "LESS_EQUAL"
  | identifier => "IDENTIFIER"
  | string => "STRING"
  | number => "NUMBER"
  | andKw => "AND"
  | classKw => "CLASS"
  | elseKw => "ELSE"
  | falseKw => "FALSE"
  | funKw => "FUN"
  | forKw => "FOR"
  | ifKw => "IF"
  | nilKw => "NIL"
  | orKw => "OR"
  | printKw => "PRINT"
  | returnKw => "RETURN"
  | superKw => "SUPER"
  | thisKw => "THIS"
  | trueKw => "TRUE"
  | varKw => "VAR"
  | whileKw => "WHILE"
  | eof => "EOF"

/-- The kind of a given name. -/
def ofName? (s : String) : Option Kind := all.find? (·.name == s)

/-- Tokens of the kind have a literal value when they come from a source text. -/
def hasLiteral (k : Kind) : Bool := k == string || k == number

/-- Operators and punctuation. A text stands before those that begin it, so that the first entry
that fits is the longest. -/
def punctuation : List (List Char × Kind) :=
  [("!=", bangEqual), ("==", equalEqual), (">=", greaterEqual), ("<=", lessEqual),
    ("(", leftParen), (")", rightParen), ("\x7b", leftBrace), ("\x7d", rightBrace), (",", comma),
    (".", dot), ("-", minus), ("+", plus), (";", semicolon), ("/", slash), ("*", star),
    ("!", bang), ("=", equal), (">", greater), ("<", less)].map fun (s, k) => (s.toList, k)

/-- The reserved words. -/
def keywords : List (List Char × Kind) :=
  [("and", andKw), ("class", classKw), ("else", elseKw), ("false", falseKw), ("fun", funKw),
    ("for", forKw), ("if", ifKw), ("nil", nilKw), ("or", orKw), ("print", printKw),
    ("return", returnKw), ("super", superKw), ("this", thisKw), ("true", trueKw),
    ("var", varKw), ("while", whileKw)].map fun (s, k) => (s.toList, k)

/-- The kind of a word: a keyword's own, `identifier` for any other. -/
def ofWord (word : List Char) : Kind := (keywords.lookup word).getD identifier

end Kind

end Lox.Token
