import GdscriptCompiler.Lexing.Token

/-!
# Lexer — the strict lexer

`Lexer` with no diagnostics sink: every error is thrown. Documentation comments and the indentation
of the line a bracket stands on serve only the editor and are left out, and so is the code of an
error.
-/

namespace Lexing

structure LexError where
  message : String
  line : Nat
  column : Int
  deriving DecidableEq, Repr

-- `set_extensions`, and the C library's conversion of decimal text to a double
structure Settings where
  extensions : Bool := true
  stod : Bytes → Option UInt64

instance : Inhabited Settings := ⟨{ stod := fun _ => none }⟩

structure OpenBracket where
  closer : UInt8
  line : Nat
  column : Nat

structure LambdaLayout where
  baseIndent : Nat
  bracketDepth : Nat

structure Lexer where
  -- newest byte first
  before : Bytes := []
  lexeme : Bytes := []
  rest : Bytes
  tokens : List Token := []
  line : Nat := 1
  column : Nat := 1
  -- innermost level, bracket and suite first
  indentStack : List Nat := [0]
  openBrackets : List OpenBracket := []
  lambdaLayouts : List LambdaLayout := []
  atLineStart : Bool := true
  statementStart : Bool := true
  typeHeader : Bool := false
  lambdaSignature : Bool := false
  lambdaParametersClosed : Bool := false
  lambdaSuiteMayStart : Bool := false
  lambdaParameterDepth : Nat := 0
  lambdaBaseIndent : Nat := 0

namespace Lexer

variable (l : Lexer)

/-! ## 1. The cursor -/

def peekAt (ahead : Nat) : UInt8 := l.rest.getD ahead 0

def peek : UInt8 := l.peekAt 0

def peekNext : UInt8 := l.peekAt 1

def advanceBy (n : Nat) : Lexer :=
  { l with lexeme := (l.rest.take n).reverse ++ l.lexeme, rest := l.rest.drop n, column := l.column + n }

def advance : Lexer := l.advanceBy 1

def advanceWhile (p : UInt8 → Bool) : Lexer := l.advanceBy (l.rest.takeWhile p).length

def isAtEnd : Bool := l.rest.isEmpty

-- `m_start = m_current`
def start : Lexer := { l with before := l.lexeme ++ l.before, lexeme := [] }

def text : Bytes := l.lexeme.reverse

def errorAt {α : Type} (message : String) (line : Nat) (column : Int) : Except LexError α :=
  .error ⟨message, line, column⟩

def error {α : Type} (message : String) : Except LexError α :=
  errorAt message l.line (l.column - l.lexeme.length)

def token (type : TokenType) : Token :=
  { type, lexeme := l.text, line := l.line, column := l.column }

def addToken (type : TokenType) : Lexer :=
  { l with
    tokens := l.tokens ++ [l.token type]
    statementStart := l.statementStart || type = .newline
    typeHeader := l.typeHeader && !(type = .newline || type = .colon) }

def addValue (type : TokenType) (value : TokenValue) : Lexer :=
  { l with tokens := l.tokens ++ [{ l.token type with value }] }

/-! ## 2. Layout -/

def pushBracket (closer : UInt8) : Lexer :=
  { l with openBrackets := ⟨closer, l.line, l.column - 1⟩ :: l.openBrackets }

-- a stray closer leaves the brackets alone; the parser reports it
def popBracket (closer : UInt8) : Lexer :=
  { l with
    openBrackets :=
      match l.openBrackets with
      | [] => []
      | b :: brackets => if b.closer = closer then brackets else b :: brackets }

def lambdaLayoutActive : Bool :=
  match l.lambdaLayouts with
  | [] => false
  | y :: _ => l.openBrackets.length ≤ y.bracketDepth

-- pops levels, with a DEDENT each
def dedentBy (n : Nat) : Lexer :=
  { l with indentStack := l.indentStack.drop n, tokens := l.tokens ++
  List.replicate n (l.token .dedent) }

-- pops the levels above `level`; the bottom level stays
def dedentTo (level : Nat) : Lexer :=
  l.dedentBy (l.indentStack.dropLast.takeWhile fun top => level < top).length

def closeLambdaLayout : Lexer :=
  let closing := l.lambdaLayouts.takeWhile fun y => y.bracketDepth = l.openBrackets.length
  { closing.foldl (fun l y => l.dedentTo y.baseIndent) l with
    lambdaLayouts := l.lambdaLayouts.dropWhile fun y => y.bracketDepth = l.openBrackets.length }

def closesSuite (c : UInt8) : Bool := c = ')' || c = ']' || c = '}' || c = ','

def currentIndent : Nat := l.indentStack.headD 0

-- the INDENT or the DEDENTs that take the lexer to `level`
def indentTo (level : Nat) : Lexer :=
  if l.currentIndent < level then { l with indentStack := level :: l.indentStack }.addToken .indent
  else l.dedentTo level

-- a closer or a comma left of the body of a lambda ends its suite, whatever its indentation
def leavesLambda (level : Nat) : Bool :=
  l.lambdaLayoutActive && level < l.currentIndent && closesSuite l.peek

/-- `handle_indent` behind the spaces of a line that is neither blank nor a comment. -/
def startLine (level : Nat) : Except LexError Lexer :=
  if (l.indentTo level).currentIndent ≠ level && !l.leavesLambda level then
    (l.indentTo level).error "Inconsistent indentation"
  else .ok { l.indentTo level with
    atLineStart := false
    lambdaLayouts := l.lambdaLayouts.dropWhile fun y => level ≤ y.baseIndent || l.leavesLambda level }

def handleIndent : Except LexError Lexer :=
  let level := indentWidth l.rest
  let l := l.advanceWhile isIndent
  if l.isAtEnd || l.peek = lf || l.peek = '#' then .ok { l with atLineStart := false } else
    l.startLine level

def newline : Lexer :=
  let l :=
    if l.lambdaSuiteMayStart then
      { l with
        lambdaSuiteMayStart := false
        lambdaLayouts := ⟨l.lambdaBaseIndent, l.openBrackets.length⟩ :: l.lambdaLayouts }
    else l
  let l :=
    if l.openBrackets.isEmpty || l.lambdaLayoutActive then
      { l.addToken .newline with atLineStart := true } else l
  { l with line := l.line + 1, column := 1 }

def continuation : Except LexError Lexer :=
  let l := l.advanceWhile fun (c : UInt8) => c = ' ' || c = cr || c = '\t'
  if l.peek ≠ lf then l.error "Expected end of line after '\\' line continuation"
  else .ok { l.advance with line := l.line + 1, column := 1 }

def comment : Lexer := l.advanceWhile fun (c : UInt8) => c ≠ lf

def openBracket (closer : UInt8) (type : TokenType) : Lexer := (l.pushBracket closer).addToken type

def openParenthesis : Lexer :=
  let l := l.openBracket ')' .lparen
  { l with
    lambdaParameterDepth :=
      if l.lambdaSignature && l.lambdaParameterDepth = 0 then l.openBrackets.length else
        l.lambdaParameterDepth }

def closeBracket (closer : UInt8) (type : TokenType) : Lexer :=
  (l.closeLambdaLayout.popBracket closer).addToken type

def closeParenthesis : Lexer :=
  let closingDepth := l.openBrackets.length
  let l := l.closeBracket ')' .rparen
  { l with
    lambdaParametersClosed :=
      l.lambdaParametersClosed || (l.lambdaSignature && closingDepth = l.lambdaParameterDepth) }

def colon : Lexer :=
  let l := l.addToken .colon
  if l.lambdaSignature && l.lambdaParametersClosed then
    { l with
      lambdaSignature := false
      lambdaParametersClosed := false
      lambdaParameterDepth := 0
      lambdaSuiteMayStart := true }
  else l

def comma : Lexer := l.closeLambdaLayout.addToken .comma

/-! ## 3. Strings -/

/-- `append_utf8`: the bytes it appends. -/
def utf8 (cp : Nat) : Bytes :=
  if cp < 0x80 then [.ofNat cp]
  else if cp < 0x800 then [.ofNat (0xC0 ||| cp >>> 6), .ofNat (0x80 ||| cp &&& 0x3F)]
  else if cp < 0x10000 then
    [.ofNat (0xE0 ||| cp >>> 12), .ofNat (0x80 ||| cp >>> 6 &&& 0x3F), .ofNat (0x80 ||| cp &&& 0x3F)]
  else
    [.ofNat (0xF0 ||| cp >>> 18), .ofNat (0x80 ||| cp >>> 12 &&& 0x3F),
    .ofNat (0x80 ||| cp >>> 6 &&& 0x3F),
      .ofNat (0x80 ||| cp &&& 0x3F)]

def hexDigit (c : UInt8) : Nat :=
  if '0' ≤ c ∧ c ≤ '9' then (c - '0').toNat
  else if 'a' ≤ c ∧ c ≤ 'f' then (c - 'a').toNat + 10
  else (c - 'A').toNat + 10

-- at most six digits are read, so the value fits the source's 32 bits
def scanHexEscape : Nat → Nat → Lexer → Except LexError (Nat × Lexer)
  | 0, value, l => .ok (value, l)
  | n + 1, value, l =>
    if l.isAtEnd then l.error "Unterminated string"
    else if !isHexDigit l.peek then l.error "Invalid hexadecimal digit in unicode escape sequence"
    else scanHexEscape n (value * 16 + hexDigit l.peek) l.advance

def isLead (cp : Nat) : Bool := 0xD800 ≤ cp ∧ cp ≤ 0xDBFF

def isTrail (cp : Nat) : Bool := 0xDC00 ≤ cp ∧ cp ≤ 0xDFFF

def hexLength (letter : UInt8) : Nat := if letter = 'u' then 4 else 6

-- the second half of a surrogate pair
def trailSurrogate (lead : Nat) : Except LexError (Nat × Lexer) :=
  if l.peek ≠ backslash || (l.peekNext ≠ 'u' && l.peekNext ≠ 'U') then
    l.error "Invalid UTF-16 sequence in string, unpaired lead surrogate"
  else do
    let (trail, l) ← scanHexEscape (hexLength l.peekNext) 0 (l.advanceBy 2)
    if !isTrail trail then l.error "Invalid UTF-16 sequence in string, unpaired lead surrogate"
    else .ok (0x10000 + (lead - 0xD800) * 2 ^ 10 + (trail - 0xDC00), l)

def pairSurrogates (cp : Nat) : Except LexError (Nat × Lexer) :=
  if isLead cp then l.trailSurrogate cp
  else if isTrail cp then l.error "Invalid UTF-16 sequence in string, unpaired trail surrogate"
  else .ok (cp, l)

/-- `append_unicode_escape`: the code point and what follows it. -/
def unicodeEscape (letter : UInt8) : Except LexError (Nat × Lexer) := do
  let (cp, l) ← scanHexEscape (hexLength letter) 0 l
  let (cp, l) ← l.pairSurrogates cp
  if 0x10FFFF < cp then l.error "Invalid unicode codepoint in escape sequence" else .ok (cp, l)

def simpleEscape (c : UInt8) : Option UInt8 :=
  match Char.ofUInt8 c with
  | 'a' => some 0x07
  | 'b' => some 0x08
  | 'f' => some 0x0C
  | 'n' => some lf
  | 'r' => some cr
  | 't' => some '\t'
  | 'v' => some 0x0B
  | '\\' => some backslash
  | '"' => some '"'
  | '\'' => some '\''
  | _ => none

/-- The escape behind a backslash: what it adds to the value. -/
def escape : Except LexError (Bytes × Lexer) :=
  let escaped := l.peek
  let l := l.advance
  match simpleEscape escaped with
  | some c => .ok ([c], l)
  | none =>
    if escaped = 'u' || escaped = 'U' then do
      let (cp, l) ← l.unicodeEscape escaped
      .ok (utf8 cp, l)
    else if escaped = cr then
      -- a lone CR does not continue the line
      if l.peek ≠ lf then l.error "Invalid escape in string"
      else .ok ([], { l.advance with line := l.line + 1, column := 0 })
    else if escaped = lf then .ok ([], { l with line := l.line + 1, column := 0 })
    else l.error "Invalid escape in string"

/-- One round of the loop of `scan_string`: what it adds to the value, or none behind a backslash
that ends the source. -/
def stringItem (raw : Bool) : Except LexError (Option (Bytes × Lexer)) :=
  if l.peek = lf then .ok (some ([l.peek], { l with line := l.line + 1, column := 0 }.advance))
  else if l.peek = backslash then
    let l := l.advance
    if l.isAtEnd then .ok none
    else if raw then .ok (some ([backslash, l.peek], l.advance))
    else l.escape.map some
  else .ok (some ([l.peek], l.advance))

def atClosing (quote : UInt8) (triple : Bool) : Bool :=
  l.peek = quote && (!triple || (l.peekNext = quote && l.peekAt 2 = quote))

-- every round reads a byte, so as many rounds as there are bytes reach the end of the source
def scanStringBody (quote : UInt8) (triple raw : Bool) :
    Nat → Bytes → Lexer → Except LexError (Option (Bytes × Lexer))
  | 0, _, _ => .ok none
  | fuel + 1, value, l =>
    if l.isAtEnd then .ok none
    else if l.atClosing quote triple then .ok (some (value, l))
    else do
      match ← l.stringItem raw with
      | none => .ok none
      | some (item, l) => scanStringBody quote triple raw fuel (value ++ item) l

def scanString (type : TokenType) (raw : Bool) : Except LexError Lexer := do
  let quote := l.lexeme.headD 0
  let triple := l.peek = quote && l.peekNext = quote
  let body := if triple then l.advanceBy 2 else l
  match ← scanStringBody quote triple raw body.rest.length [] body with
  | none => errorAt "Unterminated string" l.line (l.column - 1)
  | some (value, l) => .ok ((l.advanceBy (if triple then 3 else 1)).addValue type (.text value))

/-! ## 4. Numbers and words -/

def number (base : Nat) (digits : Bytes) : Nat := digits.foldl (fun v c => v * base + hexDigit c) 0

/-- `std::stoull` on digits of the base. -/
def stoull (base : Nat) (digits : Bytes) : Option Nat :=
  if number base digits < 2 ^ 64 then some (number base digits) else none

-- digits with underscores between them
def digitRun (p : UInt8 → Bool) (rest : Bytes) : Bytes :=
  rest.takeWhile fun (c : UInt8) => c = '_' || p c

def withoutUnderscores (text : Bytes) : Bytes := text.filter fun (c : UInt8) => c ≠ '_'

def isBinaryDigit (c : UInt8) : Bool := c = '0' || c = '1'

-- behind `0x` and `0b`; the letter is still to be read
def scanPrefixed (hex : Bool) : Except LexError Lexer :=
  let run := digitRun (if hex then isHexDigit else isBinaryDigit) (l.rest.drop 1)
  let digits := withoutUnderscores run
  let l := l.advanceBy (1 + run.length)
  if digits.isEmpty then
    l.error (if hex then "Expected hexadecimal digits after '0x'" else
      "Expected binary digits after '0b'")
  else
    match stoull (if hex then 16 else 2) digits with
    | none => l.error "Integer literal out of range"
    | some v => .ok (l.addValue .integer (.int (.ofNat v)))

-- a dot counts only before a digit, so `1.method()` stays a call
def fractionLength (rest : Bytes) : Nat :=
  if rest.getD 0 0 = '.' && isDigit (rest.getD 1 0) then 1 +
    (digitRun isDigit (rest.drop 1)).length else 0

def isSign (c : UInt8) : Bool := c = '+' || c = '-'

def exponentLength (rest : Bytes) : Nat :=
  if rest.getD 0 0 = 'e' || rest.getD 0 0 = 'E' then
    if isDigit (rest.getD 1 0) then 1 + (digitRun isDigit (rest.drop 1)).length
    else if isSign (rest.getD 1 0) && isDigit (rest.getD 2 0) then 2 +
      (digitRun isDigit (rest.drop 2)).length
    else 0
  else 0

def scanNumber (S : Settings) (first : UInt8) : Except LexError Lexer :=
  if first = '0' && (l.peek = 'x' || l.peek = 'X') then l.scanPrefixed true
  else if first = '0' && (l.peek = 'b' || l.peek = 'B') then l.scanPrefixed false
  else
    let whole := (digitRun isDigit l.rest).length
    let fraction := fractionLength (l.rest.drop whole)
    let exponent := exponentLength (l.rest.drop (whole + fraction))
    let isFloat := first = '.' || 0 < fraction || 0 < exponent
    -- what was read, underscores left out
    let numStr := withoutUnderscores (first :: l.rest.take (whole + fraction + exponent))
    let l := l.advanceBy (whole + fraction + exponent)
    let value :=
      if isFloat then (S.stod numStr).map fun d => (TokenType.float, TokenValue.float d)
      else (stoull 10 numStr).map fun v => (TokenType.integer, TokenValue.int (.ofNat v))
    match value with
    | none => l.error "Numeric literal out of range"
    | some (type, value) => .ok (l.addValue type value)

def identifierType (S : Settings) : TokenType :=
  let type := (findKeyword l.text).getD .identifier
  if !S.extensions && (type = .structKw || type = .traitKw || type = .traitNameKw ||
    type = .switchKw) then .identifier
  else if S.extensions && l.text = bytes "uses" && (l.statementStart || l.typeHeader) &&
      isAlpha ((l.rest.dropWhile isIndent).headD 0) then .usesKw
  else type

def scanIdentifier (S : Settings) : Lexer :=
  let l := l.advanceWhile isAlphanumeric
  let type := l.identifierType S
  let l := l.addToken type
  let l := if type = .classKw || type = .structKw || type = .traitKw then
    { l with typeHeader := true } else l
  let l := { l with statementStart := false }
  if type = .funcKw && !l.openBrackets.isEmpty then
    { l with
      lambdaSignature := true
      lambdaParametersClosed := false
      lambdaParameterDepth := 0
      lambdaBaseIndent := indentWidth (l.before.takeWhile fun (c : UInt8) => c ≠ lf).reverse }
  else l

/-! ## 5. Tokens -/

/-- The operators: the type and how many bytes after the first belong to it. -/
def operator (c next after : UInt8) : Option (TokenType × Nat) :=
  -- `match('=')`
  let orAssign := fun (longer plain : TokenType) => if next = '=' then (longer, 1) else (plain, 0)
  -- the same behind a doubled character
  let twice := fun (longer plain : TokenType) => if after = '=' then (longer, 2) else (plain, 1)
  match Char.ofUInt8 c with
  | ';' => some (.semicolon, 0)
  | '.' => some (if next = '.' then (.dotDot, 1) else (.dot, 0))
  | '@' => some (.at, 0)
  | '$' => some (.dollar, 0)
  | '+' => some (orAssign .plusAssign .plus)
  | '-' => some (orAssign .minusAssign .minus)
  | '*' => some (if next = '*' then twice .powerAssign .power else orAssign .multiplyAssign .multiply)
  | '/' => some (orAssign .divideAssign .divide)
  | '%' => some (orAssign .moduloAssign .modulo)
  | '=' => some (orAssign .equal .assign)
  | '!' => some (orAssign .notEqual .not)
  | '<' => some (if next = '<' then twice .shiftLeftAssign .shiftLeft else orAssign .lessEqual .less)
  | '>' => some (if next = '>' then twice .shiftRightAssign .shiftRight
      else orAssign .greaterEqual .greater)
  | '&' => some (if next = '&' then (.and, 1) else orAssign .bitAndAssign .bitAnd)
  | '|' => some (if next = '|' then (.or, 1) else orAssign .bitOrAssign .bitOr)
  | '^' => some (orAssign .bitXorAssign .bitXor)
  | '~' => some (.bitNot, 0)
  | _ => none

def question (S : Settings) : Except LexError Lexer :=
  if !S.extensions then
    l.error "'?' is a SafeGDScript extension, not GDScript; enable it with --extensions"
  else if l.peek = '?' then .ok (l.advance.addToken .questionQuestion)
  else if l.peek = '.' then .ok (l.advance.addToken .questionDot)
  else .ok (l.addToken .question)

def isQuote (c : UInt8) : Bool := c = '"' || c = '\''

/-- The cases of `scan_token` behind those for blanks, line breaks, comments and brackets. -/
def scanLexeme (S : Settings) (c : UInt8) : Except LexError Lexer :=
  if c = '.' && isDigit l.peek then l.scanNumber S c
  else if c = '?' then l.question S
  else if c = '&' && isQuote l.peek then l.advance.scanString .stringName false
  else if c = '^' && isQuote l.peek then l.advance.scanString .nodePath false
  else
    match operator c l.peek l.peekNext with
    | some (type, n) => .ok ((l.advanceBy n).addToken type)
    | none =>
      if isQuote c then l.scanString .string false
      else if isDigit c then l.scanNumber S c
      else if c = 'r' && isQuote l.peek then l.advance.scanString .string true
      else if isAlpha c then .ok (l.scanIdentifier S)
      else l.error "Unexpected character"

-- a byte that is not layout makes `func(...):` the head of an inline lambda
def endSuiteHead (c : UInt8) : Lexer :=
  { l with
    lambdaSuiteMayStart :=
      l.lambdaSuiteMayStart && !(c ≠ ' ' && c ≠ cr && c ≠ '\t' && c ≠ lf && c ≠ '#') }

-- the switch of `scan_token`, behind the byte it is on
def scanByte (S : Settings) (c : UInt8) : Except LexError Lexer :=
  match Char.ofUInt8 c with
  | ' ' | '\r' | '\t' => .ok l
  | '\n' => .ok l.newline
  | '\\' => l.continuation
  | '#' => .ok l.comment
  | '(' => .ok l.openParenthesis
  | '[' => .ok (l.openBracket ']' .lbracket)
  | '{' => .ok (l.openBracket '}' .lbrace)
  | ')' => .ok l.closeParenthesis
  | ']' => .ok (l.closeBracket ']' .rbracket)
  | '}' => .ok (l.closeBracket '}' .rbrace)
  | ':' => .ok l.colon
  | ',' => .ok l.comma
  | _ => l.scanLexeme S c

def scanToken (S : Settings) : Except LexError Lexer :=
  if l.atLineStart then l.handleIndent else (l.advance.endSuiteHead l.peek).scanByte S l.peek

/-! ## 6. The loop -/

-- a step reads a byte or takes the lexer off a line start
def scanAll (S : Settings) : Nat → Lexer → Except LexError Lexer
  | 0, l => .ok l
  | fuel + 1, l => if l.isAtEnd then .ok l else do scanAll S fuel (← l.start.scanToken S)

def work : Nat := 2 * l.rest.length + l.atLineStart.toNat

def openerFor (closer : UInt8) : Char :=
  match Char.ofUInt8 closer with
  | ')' => '('
  | ']' => '['
  | _ => '{'

def finish : Except LexError Lexer :=
  match l.openBrackets with
  | [] => .ok ((l.dedentBy (l.indentStack.length - 1)).addToken .eof)
  | b :: _ =>
    errorAt ("Unclosed '" ++ (openerFor b.closer).toString ++ "', expected '" ++
      (Char.ofUInt8 b.closer).toString ++
      "' before the end of the file") b.line b.column

end Lexer

def tokenize (S : Settings) (source : Bytes) : Except LexError (List Token) := do
  let l ← Lexer.scanAll S (Lexer.work { rest := source }) { rest := source }
  return (← l.finish).tokens

end Lexing
