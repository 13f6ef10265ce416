import Mathlib.Algebra.Order.Ring.Int

/-!
# Token — what the lexer produces

The source text is a list of bytes; a character literal stands for its byte.
-/

namespace Lexing

instance coeByte : Coe Char UInt8 := ⟨Char.toUInt8⟩

abbrev Bytes := List UInt8

abbrev lf : UInt8 := '\n'

abbrev cr : UInt8 := '\r'

abbrev backslash : UInt8 := '\\'

def bytes (text : String) : Bytes := text.toList.map Char.toUInt8

inductive TokenType where
  -- literals
  | identifier | integer | float | string | stringName | nodePath
  -- keywords
  | funcKw | varKw | constKw | returnKw | ifKw | elseKw | elifKw | forKw | inKw | whileKw | breakKw
  | breakpointKw | continueKw | passKw | extendsKw | structKw | traitKw | traitNameKw | usesKw
  | trueKw | falseKw | nullKw | matchKw | switchKw | isKw | asKw | staticKw | enumKw | classKw
  | classNameKw | signalKw | awaitKw
  -- operators
  | plus | minus | multiply | power | divide | modulo
  | assign | plusAssign | minusAssign | multiplyAssign | divideAssign | moduloAssign | powerAssign
  | bitAnd | bitOr | bitXor | bitNot | shiftLeft | shiftRight
  | bitAndAssign | bitOrAssign | bitXorAssign | shiftLeftAssign | shiftRightAssign
  | equal | notEqual | less | lessEqual | greater | greaterEqual
  | and | or | not
  -- delimiters
  | lparen | rparen | lbracket | rbracket | lbrace | rbrace | colon | comma | semicolon | dot
  | dotDot | at | dollar | question | questionQuestion | questionDot
  | newline | indent | dedent
  | eof
  deriving DecidableEq, Repr

def keywords : List (String × TokenType) :=
  [("func", .funcKw), ("var", .varKw), ("const", .constKw), ("return", .returnKw), ("if", .ifKw),
  ("else", .elseKw),
    ("elif", .elifKw), ("for", .forKw), ("in", .inKw), ("while", .whileKw), ("break", .breakKw),
    ("breakpoint", .breakpointKw), ("continue", .continueKw), ("pass", .passKw), ("extends", .extendsKw),
    ("struct", .structKw), ("trait", .traitKw), ("trait_name", .traitNameKw), ("true", .trueKw),
    ("false", .falseKw),
    ("null", .nullKw), ("and", .and), ("or", .or), ("not", .not), ("match", .matchKw),
    ("switch", .switchKw),
    ("is", .isKw), ("static", .staticKw), ("enum", .enumKw), ("class", .classKw),
    ("class_name", .classNameKw), ("signal", .signalKw), ("await", .awaitKw), ("as", .asKw)]

def findKeyword (text : Bytes) : Option TokenType :=
  (keywords.find? fun entry => bytes entry.1 = text).map Prod.snd

-- a double is kept as its bit pattern
inductive TokenValue where
  | int (v : Int64)
  | float (bits : UInt64)
  | text (s : Bytes)
  deriving DecidableEq, Repr

structure Token where
  type : TokenType
  lexeme : Bytes
  value : TokenValue := .int 0
  line : Nat
  column : Nat
  deriving DecidableEq, Repr

/-- The tokens the parser reads as layout. -/
def TokenType.isLayout : TokenType → Bool
  | newline | indent | dedent => true
  | _ => false

def TokenType.isString : TokenType → Bool
  | string | stringName | nodePath => true
  | _ => false

/-! ## Character classes -/

def isDigit (c : UInt8) : Bool := '0' ≤ c ∧ c ≤ '9'

def isHexDigit (c : UInt8) : Bool := isDigit c || ('a' ≤ c ∧ c ≤ 'f') || ('A' ≤ c ∧ c ≤ 'F')

def isAlpha (c : UInt8) : Bool := ('a' ≤ c ∧ c ≤ 'z') || ('A' ≤ c ∧ c ≤ 'Z') || c = '_' || 0x80 ≤ c

def isAlphanumeric (c : UInt8) : Bool := isAlpha c || isDigit c

def isIndent (c : UInt8) : Bool := c = ' ' || c = '\t'

/-- Spaces and tabs at the front of a line; a tab counts four. -/
def indentWidth (line : Bytes) : Nat :=
  ((line.takeWhile isIndent).map fun (c : UInt8) => if c = '\t' then 4 else 1).sum

end Lexing
