import GdscriptCompiler.Lexing.Literal
import Mathlib.Data.List.TakeWhile
import Mathlib.Logic.Relation

/-!
# Steps — what one call of `scan_token` can do

`Scans` lists the cases of `scan_token` with the bytes that select each.
-/

namespace Lexing

open Lexer Lib

namespace Lexer

variable (l : Lexer)

/-- Behind the first byte of a token. -/
def first : Lexer := l.advance.endSuiteHead l.peek

theorem peek_first : l.first.peek = l.peekNext := by
  simp [first, endSuiteHead, advance, advanceBy, peek, peekNext, peekAt, List.getD_eq_getElem?_getD]

theorem peekNext_first : l.first.peekNext = l.peekAt 2 := by
  simp [first, endSuiteHead, advance, advanceBy, peekNext, peekAt, List.getD_eq_getElem?_getD]

/-- How a string literal starts: the bytes between its first byte and its quote, its type, and
whether it is raw. -/
def opensString (c next : UInt8) : Option (Nat × TokenType × Bool) :=
  if isQuote c then some (0, .string, false)
  else if !isQuote next then none
  else
    match Char.ofUInt8 c with
    | '&' => some (1, .stringName, false)
    | '^' => some (1, .nodePath, false)
    | 'r' => some (1, .string, true)
    | _ => none

def startsNumber (c next : UInt8) : Bool := isDigit c || (c = '.' && isDigit next)

-- the bytes `scan_token` has cases of their own for
def layoutBytes : List UInt8 :=
  [' ', '\r', '\t', '\n', '\\', '#', '(', '[', '{', ')', ']', '}', ':', ',']

inductive Scans (S : Settings) : Lexer → Prop
  | indent {l' : Lexer} (start : l.atLineStart = true) (result : l.handleIndent = .ok l') : Scans S l'
  | blank (inside : l.atLineStart = false) (next : l.peek = ' ' ∨ l.peek = cr ∨
    l.peek = '\t') : Scans S l.first
  | newline (inside : l.atLineStart = false) (next : l.peek = lf) : Scans S l.first.newline
  | continuation {l' : Lexer} (inside : l.atLineStart = false) (next : l.peek = backslash)
      (result : l.first.continuation = .ok l') : Scans S l'
  | comment (inside : l.atLineStart = false) (next : l.peek = '#') : Scans S l.first.comment
  | openParenthesis (inside : l.atLineStart = false) (next : l.peek = '(') : Scans S
    l.first.openParenthesis
  | openBracket (closer : UInt8) (type : TokenType) (inside : l.atLineStart = false)
      (next : l.peek = '[' ∧ closer = ']' ∧ type = .lbracket ∨ l.peek = '{' ∧ closer = '}' ∧
      type = .lbrace) :
      Scans S (l.first.openBracket closer type)
  | closeParenthesis (inside : l.atLineStart = false) (next : l.peek = ')') : Scans S
    l.first.closeParenthesis
  | closeBracket (closer : UInt8) (type : TokenType) (inside : l.atLineStart = false)
    (next : l.peek = closer)
      (kind : closer = ']' ∧ type = .rbracket ∨ closer = '}' ∧ type = .rbrace) :
      Scans S (l.first.closeBracket closer type)
  | colon (inside : l.atLineStart = false) (next : l.peek = ':') : Scans S l.first.colon
  | comma (inside : l.atLineStart = false) (next : l.peek = ',') : Scans S l.first.comma
  | number {l' : Lexer} (inside : l.atLineStart = false) (starts : startsNumber l.peek l.peekNext = true)
      (result : l.first.scanNumber S l.peek = .ok l') : Scans S l'
  | question {l' : Lexer} (inside : l.atLineStart = false) (next : l.peek = '?')
      (result : l.first.question S = .ok l') : Scans S l'
  | string {l' : Lexer} {k : Nat} {type : TokenType} {raw : Bool} (inside : l.atLineStart = false)
      (opens : opensString l.peek l.peekNext = some (k, type, raw))
      (result : (l.first.advanceBy k).scanString type raw = .ok l') : Scans S l'
  | operator {type : TokenType} {n : Nat} (inside : l.atLineStart = false)
      (starts : startsNumber l.peek l.peekNext = false) (opens : opensString l.peek l.peekNext = none)
      (found : Lexer.operator l.peek l.peekNext (l.peekAt 2) = some (type, n)) :
      Scans S ((l.first.advanceBy n).addToken type)
  | word (inside : l.atLineStart = false) (opens : opensString l.peek l.peekNext = none)
      (letter : isAlpha l.peek = true) : Scans S (l.first.scanIdentifier S)

end Lexer

theorem toUInt8_ofUInt8 (c : UInt8) : (Char.ofUInt8 c).toUInt8 = c := by
  show c.toUInt32.toUInt8 = c
  simp

variable {c : UInt8}

theorem eq_of_ofUInt8 {ch : Char} (h : Char.ofUInt8 c = ch) : c = ch := by
  rw [← h, toUInt8_ofUInt8]

variable {S : Settings} {l l' : Lexer} {next : UInt8}

theorem opensString_of_name (hc : c = '&') (h : isQuote next = true) :
    opensString c next = some (1, .stringName, false) := by
  subst hc
  rw [opensString, if_neg (by decide), h]
  rfl

theorem opensString_of_path (hc : c = '^') (h : isQuote next = true) :
    opensString c next = some (1, .nodePath, false) := by
  subst hc
  rw [opensString, if_neg (by decide), h]
  rfl

theorem opensString_of_raw (hc : c = 'r') (h : isQuote next = true) :
    opensString c next = some (1, .string, true) := by
  subst hc
  rw [opensString, if_neg (by decide), h]
  rfl

theorem opensString_of_quote (hc : isQuote c = true) :
    opensString c next = some (0, .string, false) := if_pos hc

theorem opensString_eq_none (hc : isQuote c = false)
    (h : isQuote next = true → c ≠ '&' ∧ c ≠ '^' ∧ c ≠ 'r') :
    opensString c next = none := by
  rw [opensString, if_neg (by rw [hc]; decide)]
  split
  · rfl
  rename_i hnext
  obtain ⟨h1, h2, h3⟩ := h (by simpa using hnext)
  split
  · exact absurd (eq_of_ofUInt8 ‹_›) h1
  · exact absurd (eq_of_ofUInt8 ‹_›) h2
  · exact absurd (eq_of_ofUInt8 ‹_›) h3
  · rfl

def operatorBytes : List UInt8 :=
  [';', '.', '@', '$', '+', '-', '*', '/', '%', '=', '!', '<', '>', '&', '|', '^', '~']

theorem mem_operatorBytes {after : UInt8} {r : TokenType × Nat}
    (h : operator c next after = some r) :
    c ∈ operatorBytes := by
  rw [operator] at h
  dsimp only at h
  split at h
  case h_18 => cases h
  all_goals
    rw [eq_of_ofUInt8 ‹Char.ofUInt8 c = _›]
    decide

theorem scans_of_scanLexeme (inside : l.atLineStart = false)
    (h : l.first.scanLexeme S l.peek = .ok l') :
    Scans l S l' := by
  rw [scanLexeme, peek_first, peekNext_first] at h
  split at h
  · rename_i hc
    exact .number inside (by rw [startsNumber, hc, Bool.or_true]) h
  rename_i hdot
  split at h
  · rename_i hc
    exact .question inside (by simpa using hc) h
  split at h
  · rename_i hc
    have hc : l.peek = '&' ∧ isQuote l.peekNext = true := by simpa using hc
    exact .string inside (opensString_of_name hc.1 hc.2) h
  rename_i hname
  split at h
  · rename_i hc
    have hc : l.peek = '^' ∧ isQuote l.peekNext = true := by simpa using hc
    exact .string inside (opensString_of_path hc.1 hc.2) h
  rename_i hpath
  split at h
  · rename_i type n found
    cases h
    have hc : ∀ c ∈ operatorBytes, isDigit c = false ∧ isQuote c = false ∧ c ≠ 'r' := by decide +kernel
    obtain ⟨hdigit, hquote, hr⟩ := hc _ (mem_operatorBytes found)
    refine .operator inside ?_ (opensString_eq_none hquote fun hnext => ⟨?_, ?_, hr⟩) found
    · rw [startsNumber, hdigit, Bool.false_or]
      simpa using hdot
    · rintro hamp
      exact hname (by simp [hamp, hnext])
    · rintro hcaret
      exact hpath (by simp [hcaret, hnext])
  split at h
  · rename_i hc
    exact .string inside (opensString_of_quote hc) h
  rename_i hquote
  split at h
  · rename_i hc
    exact .number inside (by rw [startsNumber, hc, Bool.true_or]) h
  split at h
  · rename_i hc
    have hc : l.peek = 'r' ∧ isQuote l.peekNext = true := by simpa using hc
    exact .string inside (opensString_of_raw hc.1 hc.2) h
  rename_i hraw
  split at h
  · rename_i hc
    cases h
    refine .word inside (opensString_eq_none (by simpa using hquote) fun hnext => ⟨?_, ?_, ?_⟩) hc
    · rintro hamp
      exact hname (by simp [hamp, hnext])
    · rintro hcaret
      exact hpath (by simp [hcaret, hnext])
    · rintro hr
      exact hraw (by simp [hr, hnext])
  · exact absurd h error_ne_ok

theorem scans_of_scanToken (h : l.scanToken S = .ok l') : Scans l S l' := by
  rw [scanToken] at h
  split at h
  · rename_i hstart
    exact .indent hstart h
  rename_i hstart
  have inside : l.atLineStart = false := by simpa using hstart
  rw [scanByte] at h
  split at h
  case h_15 => exact scans_of_scanLexeme inside h
  all_goals
    rename_i hc
    have hc := eq_of_ofUInt8 hc
  all_goals try cases h
  · exact .blank inside (.inl hc)
  · exact .blank inside (.inr (.inl hc))
  · exact .blank inside (.inr (.inr hc))
  · exact .newline inside hc
  · exact .continuation inside hc h
  · exact .comment inside hc
  · exact .openParenthesis inside hc
  · exact .openBracket _ _ inside (.inl ⟨hc, rfl, rfl⟩)
  · exact .openBracket _ _ inside (.inr ⟨hc, rfl, rfl⟩)
  · exact .closeParenthesis inside hc
  · exact .closeBracket _ _ inside hc (.inl ⟨rfl, rfl⟩)
  · exact .closeBracket _ _ inside hc (.inr ⟨rfl, rfl⟩)
  · exact .colon inside hc
  · exact .comma inside hc

theorem scanToken_of_inside (inside : l.atLineStart = false) :
    l.scanToken S = l.first.scanByte S l.peek := by
  rw [scanToken, inside]
  rfl

theorem scanByte_of_lexeme (h : c ∉ layoutBytes) : l.scanByte S c = l.scanLexeme S c := by
  rw [scanByte]
  split
  case h_15 => rfl
  all_goals
    refine absurd ?_ h
    rw [eq_of_ofUInt8 ‹Char.ofUInt8 c = _›]
    decide

variable {p : UInt8 → Bool}

theorem not_mem_of_class {bytes : List UInt8} (hp : ∀ b ∈ bytes, p b = false) (hc : p c = true) :
    c ∉ bytes :=
  fun hmem => Bool.false_ne_true ((hp c hmem).symm.trans hc)

theorem operator_eq_none {after : UInt8} (hc : c ∉ operatorBytes) :
    operator c next after = none := by
  cases h : operator c next after with
  | none => rfl
  | some r => exact absurd (mem_operatorBytes h) hc

-- a byte that starts no operator, and is no question mark
theorem scanLexeme_of_plain (hc : c ∉ operatorBytes) (hq : c ≠ '?') :
    l.scanLexeme S c =
      if isQuote c then l.scanString .string false else if isDigit c then l.scanNumber S c
      else if c = 'r' && isQuote l.peek then l.advance.scanString .string true
      else if isAlpha c then .ok (l.scanIdentifier S) else l.error "Unexpected character" := by
  have hdot : c ≠ '.' := fun h => hc (h ▸ by decide)
  have hamp : c ≠ '&' := fun h => hc (h ▸ by decide)
  have hcaret : c ≠ '^' := fun h => hc (h ▸ by decide)
  rw [scanLexeme, if_neg (by simp [hdot]), if_neg (by simpa using hq), if_neg (by simp [hamp]),
    if_neg (by simp [hcaret]), operator_eq_none hc]

theorem scanLexeme_of_number (hnext : l.peek = next) (starts : startsNumber c next = true) :
    l.scanLexeme S c = l.scanNumber S c := by
  rw [startsNumber, Bool.or_eq_true] at starts
  rcases starts with hdigit | hdot
  · have hop : c ∉ operatorBytes := not_mem_of_class (p := isDigit) (by decide +kernel) hdigit
    have hq : c ∉ ['?', '"', '\''].map Char.toUInt8 :=
      not_mem_of_class (p := isDigit) (by decide +kernel) hdigit
    simp only [List.map_cons, List.map_nil, List.mem_cons, List.not_mem_nil, or_false, not_or] at hq
    rw [scanLexeme_of_plain hop hq.1, if_neg (by simp [isQuote, hq.2]), if_pos hdigit]
  · rw [scanLexeme, hnext, if_pos hdot]

theorem not_and_of_ne {d : UInt8} {b : Bool} (h : c ≠ d) : ¬ (decide (c = d) && b) = true := by
  simp [h]

variable {type : TokenType} {k : Nat} {raw : Bool}

theorem scanLexeme_of_string (hnext : l.peek = next)
    (opens : opensString c next = some (k, type, raw)) :
    l.scanLexeme S c = (l.advanceBy k).scanString type raw := by
  rw [opensString] at opens
  split at opens
  · rename_i hc
    cases opens
    have hop : c ∉ operatorBytes := not_mem_of_class (p := isQuote) (by decide +kernel) hc
    have hq : c ∉ ['?'].map Char.toUInt8 := not_mem_of_class (p := isQuote) (by decide +kernel) hc
    rw [scanLexeme_of_plain hop (by simpa using hq), if_pos hc]
    rfl
  split at opens
  · cases opens
  rename_i hquote
  have hquote : isQuote l.peek = true := by simpa [hnext] using hquote
  split at opens
  · rw [eq_of_ofUInt8 ‹Char.ofUInt8 c = _›]
    cases opens
    rw [scanLexeme, if_neg (not_and_of_ne (by decide)), if_neg (by decide), if_pos (by simp [hquote])]
    rfl
  · rw [eq_of_ofUInt8 ‹Char.ofUInt8 c = _›]
    cases opens
    rw [scanLexeme, if_neg (not_and_of_ne (by decide)), if_neg (by decide),
      if_neg (not_and_of_ne (by decide)), if_pos (by simp [hquote])]
    rfl
  · rw [eq_of_ofUInt8 ‹Char.ofUInt8 c = _›]
    cases opens
    rw [scanLexeme_of_plain (by decide) (by decide), if_neg (by decide), if_neg (by decide),
      if_pos (by simp [hquote])]
    rfl
  · cases opens

theorem scanLexeme_of_operator {n : Nat} (hnext : l.peek = next)
    (starts : startsNumber c next = false) (opens : opensString c next = none)
    (found : operator c next l.peekNext = some (type, n)) :
    l.scanLexeme S c = .ok ((l.advanceBy n).addToken type) := by
  have hq : c ≠ '?' := by
    rintro rfl
    exact absurd (mem_operatorBytes found) (by decide)
  have hdot : ¬ (c = '.' && isDigit next) = true := by
    rw [startsNumber, Bool.or_eq_false_iff] at starts
    simpa using starts.2
  have hname : ¬ (c = '&' && isQuote next) = true := by
    intro h
    simp only [Bool.and_eq_true, decide_eq_true_eq] at h
    rw [opensString_of_name h.1 h.2] at opens
    cases opens
  have hpath : ¬ (c = '^' && isQuote next) = true := by
    intro h
    simp only [Bool.and_eq_true, decide_eq_true_eq] at h
    rw [opensString_of_path h.1 h.2] at opens
    cases opens
  rw [scanLexeme, hnext, if_neg hdot, if_neg (by simpa using hq), if_neg hname, if_neg hpath, found]

theorem isDigit_of_isAlpha (h : isAlpha c = true) : isDigit c = false := by
  simp [isAlpha, isDigit, Char.toUInt8, UInt8.le_iff_toNat_le, ← UInt8.toNat_inj] at *
  omega

theorem scanLexeme_of_word (hnext : l.peek = next) (opens : opensString c next = none)
    (letter : isAlpha c = true) :
    l.scanLexeme S c = .ok (l.scanIdentifier S) := by
  have hop : c ∉ operatorBytes := not_mem_of_class (p := isAlpha) (by decide +kernel) letter
  have hq : c ∉ ['?', '"', '\''].map Char.toUInt8 :=
    not_mem_of_class (p := isAlpha) (by decide +kernel) letter
  simp only [List.map_cons, List.map_nil, List.mem_cons, List.not_mem_nil, or_false, not_or] at hq
  have hdigit : ¬ isDigit c = true := by simp [isDigit_of_isAlpha letter]
  have hraw : ¬ (c = 'r' && isQuote next) = true := by
    intro h
    simp only [Bool.and_eq_true, decide_eq_true_eq] at h
    rw [opensString_of_raw h.1 h.2] at opens
    cases opens
  rw [scanLexeme_of_plain hop hq.1, if_neg (by simp [isQuote, hq.2]), if_neg hdigit, hnext,
    if_neg hraw, if_pos letter]

theorem scanToken_of_string (inside : l.atLineStart = false)
    (opens : opensString l.peek l.peekNext = some (k, type, raw)) :
    l.scanToken S = (l.first.advanceBy k).scanString type raw := by
  have hlayout : ∀ b ∈ layoutBytes, isQuote b = false ∧ b ≠ '&' ∧ b ≠ '^' ∧ b ≠ 'r' := by decide +kernel
  have hc : l.peek ∉ layoutBytes := fun hmem => by
    obtain ⟨hquote, hne⟩ := hlayout _ hmem
    rw [opensString_eq_none hquote fun _ => hne] at opens
    cases opens
  rw [scanToken_of_inside inside, scanByte_of_lexeme hc, scanLexeme_of_string (peek_first l) opens]

theorem scanToken_of_scans (h : Scans l S l') : l.scanToken S = .ok l' := by
  cases h with
  | indent start result => rw [scanToken, if_pos start, result]
  | blank inside next =>
    rw [scanToken_of_inside inside]
    rcases next with next | next | next <;> rw [next] <;> rfl
  | newline inside next | comment inside next | openParenthesis inside next
  | closeParenthesis inside next | colon inside next | comma inside next =>
    rw [scanToken_of_inside inside, next]
    rfl
  | continuation inside next result => rw [scanToken_of_inside inside, next]; exact result
  | openBracket closer type inside next =>
    rw [scanToken_of_inside inside]
    rcases next with ⟨next, rfl, rfl⟩ | ⟨next, rfl, rfl⟩ <;> rw [next] <;> rfl
  | closeBracket closer type inside next kind =>
    rw [scanToken_of_inside inside, next]
    rcases kind with ⟨rfl, rfl⟩ | ⟨rfl, rfl⟩ <;> rfl
  | number inside starts result =>
    have hlayout : ∀ b ∈ layoutBytes, isDigit b = false ∧ b ≠ '.' := by decide +kernel
    have hc : l.peek ∉ layoutBytes := not_mem_of_class (p := fun b => startsNumber b l.peekNext)
      (fun b hb => by simp [startsNumber, hlayout b hb]) starts
    rw [scanToken_of_inside inside, scanByte_of_lexeme hc,
      scanLexeme_of_number (peek_first l) starts, result]
  | question inside next result =>
    rw [scanToken_of_inside inside, next]
    exact result
  | string inside opens result => rw [scanToken_of_string inside opens, result]
  | operator inside starts opens found =>
    have hlayout : ∀ b ∈ operatorBytes, b ∉ layoutBytes := by decide +kernel
    rw [scanToken_of_inside inside, scanByte_of_lexeme (hlayout _ (mem_operatorBytes found)),
      scanLexeme_of_operator (peek_first l) starts opens (by rw [peekNext_first, found])]
  | word inside opens letter =>
    have hc : l.peek ∉ layoutBytes := not_mem_of_class (p := isAlpha) (by decide +kernel) letter
    rw [scanToken_of_inside inside, scanByte_of_lexeme hc,
      scanLexeme_of_word (peek_first l) opens letter]

/-! ## 3. What the lexemes read -/

theorem take_takeWhile (p : UInt8 → Bool) (bs : Bytes) :
    bs.take (bs.takeWhile p).length = bs.takeWhile p :=
  (List.prefix_iff_eq_take.1 (List.takeWhile_prefix p)).symm

theorem not_mem_takeWhile (hp : p c = false) (bs : Bytes) : c ∉ bs.takeWhile p :=
  fun h => Bool.false_ne_true (hp.symm.trans (List.mem_takeWhile_imp h))

section NoBreaks

variable {rest : Bytes} {p : UInt8 → Bool}

theorem lf_not_mem_digitRun (hp : p lf = false) (rest : Bytes) : lf ∉ digitRun p rest :=
  not_mem_takeWhile (by simp [hp]; decide) rest

theorem lf_not_mem_take_digitRun (hp : p lf = false) (rest : Bytes) :
    lf ∉ rest.take (digitRun p rest).length := by
  rw [digitRun, take_takeWhile]
  exact lf_not_mem_digitRun hp rest

theorem lf_not_mem_take_add {n : Nat} (h : lf ∉ rest.take n) (h' : lf ∉ (rest.drop n).take k) :
    lf ∉ rest.take (n + k) := by
  rw [List.take_add, List.mem_append]
  exact not_or.2 ⟨h, h'⟩

theorem lf_not_mem_take_one {q : UInt8 → Bool} (h : q (rest.getD 0 0) = true) (hq : q lf = false) :
    lf ∉ rest.take 1 := by
  cases rest with
  | nil => exact List.not_mem_nil
  | cons d rest =>
    rw [List.take_succ_cons, List.take_zero, List.mem_singleton]
    rintro rfl
    exact Bool.false_ne_true (hq.symm.trans h)

theorem getD_drop (rest : Bytes) (n k : Nat) : (rest.drop n).getD k 0 = rest.getD (n + k) 0 := by
  simp only [List.getD_eq_getElem?_getD, List.getElem?_drop]

theorem lf_not_mem_fraction (rest : Bytes) : lf ∉ rest.take (fractionLength rest) := by
  rw [fractionLength]
  split
  · rename_i h
    exact lf_not_mem_take_add
      (lf_not_mem_take_one (q := fun c => c = '.') (Bool.and_eq_true_iff.1 h).1 (by decide))
      (lf_not_mem_take_digitRun (by decide) _)
  · simp

theorem lf_not_mem_exponent (rest : Bytes) : lf ∉ rest.take (exponentLength rest) := by
  rw [exponentLength]
  split
  · rename_i h
    have h1 : lf ∉ rest.take 1 := lf_not_mem_take_one (q := fun c => c = 'e' || c = 'E') h (by decide)
    split
    · exact lf_not_mem_take_add h1 (lf_not_mem_take_digitRun (by decide) _)
    split
    · rename_i hsign
      have hnext : isSign ((rest.drop 1).getD 0 0) = true := by
        rw [getD_drop]
        exact (Bool.and_eq_true_iff.1 hsign).1
      have h2 : lf ∉ rest.take 2 := lf_not_mem_take_add h1 (lf_not_mem_take_one hnext (by decide))
      exact lf_not_mem_take_add h2 (lf_not_mem_take_digitRun (by decide) _)
    · simp
  · simp

end NoBreaks

theorem scanPrefixed_eq_ok {hex : Bool} (hx : l.peek ≠ lf) (h : l.scanPrefixed hex = .ok l') :
    ∃ n value, lf ∉ l.rest.take n ∧ l' = (l.advanceBy n).addValue .integer value := by
  have h1 : lf ∉ l.rest.take 1 :=
    lf_not_mem_take_one (q := fun c => c ≠ lf) (decide_eq_true hx) (by decide)
  have hp : (if hex then isHexDigit else isBinaryDigit) lf = false := by cases hex <;> decide
  rw [scanPrefixed] at h
  generalize (if hex = true then isHexDigit else isBinaryDigit) = p at h hp
  generalize (if hex = true then _ else _) = message at h
  generalize (if hex = true then 16 else 2) = base at h
  split at h
  · exact absurd h error_ne_ok
  split at h
  · exact absurd h error_ne_ok
  · cases h
    exact ⟨_, _, lf_not_mem_take_add h1 (lf_not_mem_take_digitRun hp _), rfl⟩

theorem scanNumber_eq_ok (h : l.scanNumber S c = .ok l') :
    ∃ n type value, (type = .integer ∨ type = .float) ∧ lf ∉ l.rest.take n ∧
      l' = (l.advanceBy n).addValue type value := by
  rw [scanNumber] at h
  -- `0x` and `0b`
  iterate 2
    split at h
    · rename_i hx
      have hlf : l.peek ≠ lf := by
        rintro hlf
        rw [hlf, Bool.and_eq_true] at hx
        exact absurd hx.2 (by decide)
      obtain ⟨n, value, hn, rfl⟩ := scanPrefixed_eq_ok hlf h
      exact ⟨n, .integer, value, .inl rfl, hn, rfl⟩
  dsimp only at h
  split at h
  · exact absurd h error_ne_ok
  · rename_i type value hvalue
    cases h
    refine ⟨_, type, value, ?_,
      lf_not_mem_take_add (lf_not_mem_take_add (lf_not_mem_take_digitRun (by decide) _)
      (lf_not_mem_fraction _)) (lf_not_mem_exponent _), rfl⟩
    split at hvalue
    · obtain ⟨d, -, hd⟩ := Option.map_eq_some_iff.1 hvalue
      exact .inr (congrArg Prod.fst hd).symm
    · obtain ⟨v, -, hv⟩ := Option.map_eq_some_iff.1 hvalue
      exact .inl (congrArg Prod.fst hv).symm

theorem question_eq_ok (h : l.question S = .ok l') :
    ∃ n type, (type = .question ∨ type = .questionQuestion ∨ type = .questionDot) ∧
      lf ∉ l.rest.take n ∧
      l' = (l.advanceBy n).addToken type := by
  rw [question] at h
  split at h
  · exact absurd h error_ne_ok
  split at h
  · rename_i hnext
    cases h
    exact ⟨1, _, .inr (.inl rfl), lf_not_mem_take_one (q := fun c => c = '?') (decide_eq_true hnext)
      (by decide), rfl⟩
  split at h
  · rename_i hnext
    cases h
    exact ⟨1, _, .inr (.inr rfl), lf_not_mem_take_one (q := fun c => c = '.') (decide_eq_true hnext)
      (by decide), rfl⟩
  · cases h
    exact ⟨0, _, .inl rfl, by simp, rfl⟩

/-- Neither a string nor a token that plays a part in layout. -/
def TokenType.isPlain (type : TokenType) : Bool :=
  type ∉ [newline, indent, dedent, eof, lparen, rparen, lbracket, rbracket, lbrace, rbrace, colon,
    comma, funcKw, string, stringName, nodePath]

theorem operator_eq_some {n : Nat} (h : operator c l.peek l.peekNext = some (type, n)) :
    type.isPlain = true ∧ lf ∉ l.rest.take n := by
  have h1 : ∀ d : UInt8, d ≠ lf → l.peek = d → lf ∉ l.rest.take 1 := fun d hd hnext =>
    lf_not_mem_take_one (q := fun c => c = d) (decide_eq_true hnext) (by simpa using hd.symm)
  have h2 : ∀ d e : UInt8, d ≠ lf → e ≠ lf → l.peek = d → l.peekNext = e → lf ∉ l.rest.take 2 :=
    fun d e hd he hnext hafter => lf_not_mem_take_add (h1 d hd hnext)
      (lf_not_mem_take_one (q := fun c => c = e)
      (decide_eq_true ((getD_drop _ _ _).trans hafter)) (by simpa using he.symm))
  rw [operator] at h
  dsimp only at h
  split at h
  case h_18 => cases h
  all_goals
    simp only [Option.some.injEq] at h
    repeat' split at h
  all_goals
    cases h
    refine ⟨rfl, ?_⟩
  all_goals first
    | exact List.not_mem_nil
    | (refine h2 _ _ ?_ ?_ (by assumption) (by assumption) <;> decide)
    | (refine h1 _ ?_ (by assumption); decide)

theorem identifierType_induction {P : TokenType → Prop} (l : Lexer)
    (hkeywords : ∀ entry ∈ keywords, P entry.2) (hidentifier : P .identifier) (huses : P .usesKw) :
    P (l.identifierType S) := by
  have hfind : P ((findKeyword l.text).getD .identifier) := by
    cases h : findKeyword l.text with
    | none => exact hidentifier
    | some type =>
      obtain ⟨entry, hentry, rfl⟩ := Option.map_eq_some_iff.1 h
      exact hkeywords _ (List.mem_of_find?_eq_some hentry)
  rw [identifierType]
  split
  · exact hidentifier
  split
  · exact huses
  · exact hfind

theorem isQuote_ne (h : isQuote c = true) : c ≠ 0 ∧ c ≠ lf := by
  constructor <;>
  · rintro rfl
    exact absurd h (by decide)

/-- The kinds of string literal: the token, what stands before the quotes, and whether it is raw. -/
def literalFronts : List (TokenType × Bytes × Bool) :=
  [(.string, [], false), (.stringName, ['&'], false), (.nodePath, ['^'], false),
    (.string, ['r'], true)]

/-- A string literal starts at `l`, with its quote `k` bytes on. -/
structure Opens (l : Lexer) (k : Nat) (type : TokenType) (raw : Bool) : Prop where
  quote : isQuote (l.peekAt k) = true
  lexeme : (l.first.advanceBy k).lexeme.headD 0 = l.peekAt k
  noBreak : lf ∉ l.rest.take (k + 1)
  front : (type, l.rest.take k, raw) ∈ literalFronts
  type : type.isString = true
  raw_iff : raw = true ↔ l.peek = 'r'
  raw_length : raw = true → k = 1

theorem opens_of_opensString (h : opensString l.peek l.peekNext = some (k, type, raw)) :
    Opens l k type raw := by
  by_cases hc : isQuote l.peek = true
  · rw [opensString_of_quote hc] at h
    cases h
    have hl := rest_of_peek (l := l) rfl (isQuote_ne hc).1
    refine ⟨hc, ?_, lf_not_mem_take_one (q := fun c => c ≠ lf) (decide_eq_true (isQuote_ne hc).2)
      (by decide), List.mem_cons_self, rfl, ?_, nofun⟩
    · show (((l.rest.drop 1).take 0).reverse ++ ((l.rest.take 1).reverse ++ l.lexeme)).headD 0 = l.peek
      rw [hl]
      rfl
    · exact iff_of_false Bool.false_ne_true fun hr => absurd (hr ▸ hc) (by decide)
  · have hnext : isQuote l.peekNext = true := by
      by_contra hnext
      rw [opensString_eq_none (by simpa using hc) fun h => absurd h hnext] at h
      cases h
    have hopen : ∀ {c : UInt8}, l.peek = c → c ≠ 0 → c ≠ lf →
      (l.first.advanceBy 1).lexeme.headD 0 = l.peekAt 1 ∧
        lf ∉ l.rest.take 2 ∧ l.rest.take 1 = [c] := fun hpeek hc0 hclf => by
      have hl := rest_of_peekNext hpeek hc0 rfl (isQuote_ne hnext).1
      refine ⟨?_, ?_, by rw [hl]; rfl⟩
      · show (((l.rest.drop 1).take 1).reverse ++ ((l.rest.take 1).reverse ++ l.lexeme)).headD
          0 = l.peekNext
        rw [hl]
        rfl
      · rw [hl]
        simp [(isQuote_ne hnext).2.symm, hclf.symm]
    rw [opensString, if_neg hc, if_neg (by simp [hnext])] at h
    split at h
    -- `&` and `^`
    iterate 2
      · have hpeek := eq_of_ofUInt8 ‹Char.ofUInt8 l.peek = _›
        obtain ⟨h1, h2, h3⟩ := hopen hpeek (by decide) (by decide)
        cases h
        exact ⟨hnext, h1, h2, by rw [h3]; decide, rfl,
          iff_of_false Bool.false_ne_true fun hr => absurd (hpeek.symm.trans hr) (by decide), nofun⟩
    · have hpeek := eq_of_ofUInt8 ‹Char.ofUInt8 l.peek = _›
      obtain ⟨h1, h2, h3⟩ := hopen hpeek (by decide) (by decide)
      cases h
      exact ⟨hnext, h1, h2, by rw [h3]; decide, rfl, iff_of_true rfl hpeek, fun _ => rfl⟩
    · cases h

/-! ## 4. Levels that are closed -/

section Dedents

variable {level n k : Nat}

theorem dedentBy_dedentBy (l : Lexer) (n k : Nat) :
    (l.dedentBy n).dedentBy k = l.dedentBy (n + k) := by
  simp only [dedentBy, List.drop_drop, List.append_assoc, ← List.replicate_append_replicate, token, text]

theorem dedentTo_eq (l : Lexer) (level : Nat) :
    ∃ k, k ≤ l.indentStack.length - 1 ∧ l.dedentTo level = l.dedentBy k := by
  refine ⟨_, ?_, rfl⟩
  rw [← List.length_dropLast]
  exact (List.takeWhile_prefix _).length_le

theorem foldl_dedentTo (closing : List LambdaLayout) (l : Lexer) :
    ∃ k, k ≤ l.indentStack.length - 1 ∧ closing.foldl (fun l y => l.dedentTo y.baseIndent) l =
      l.dedentBy k := by
  induction closing generalizing l with
  | nil => exact ⟨0, Nat.zero_le _, by simp [dedentBy]⟩
  | cons y closing ih =>
    obtain ⟨j, hj, hl⟩ := dedentTo_eq l y.baseIndent
    obtain ⟨k, hk, hfold⟩ := ih (l.dedentBy j)
    refine ⟨j + k, ?_, by rw [List.foldl_cons, hl, hfold, dedentBy_dedentBy]⟩
    simp only [dedentBy, List.length_drop] at hk
    omega

/-- Closing the suites of a bracket pops levels, never the bottom one, and forgets the suites. -/
theorem closeLambdaLayout_eq (l : Lexer) :
    ∃ k, k ≤ l.indentStack.length - 1 ∧ l.closeLambdaLayout = { l.dedentBy k with
      lambdaLayouts :=
        l.lambdaLayouts.dropWhile fun y => y.bracketDepth = l.openBrackets.length } := by
  obtain ⟨k, hk, hfold⟩ := foldl_dedentTo
    (l.lambdaLayouts.takeWhile fun y => y.bracketDepth = l.openBrackets.length) l
  exact ⟨k, hk, by rw [closeLambdaLayout, hfold]⟩

end Dedents

/-! ## 5. What a step reads -/

/-- `l'` has read `n` bytes more than `l`. -/
structure Consumes (l l' : Lexer) (n : Nat) : Prop where
  before : l'.before = l.before
  lexeme : l'.lexeme = (l.rest.take n).reverse ++ l.lexeme
  rest : l'.rest = l.rest.drop n

section Consuming

variable {m : Lexer} {n k : Nat} {type : TokenType} {value : TokenValue} {raw : Bool}

theorem consumes_refl (l : Lexer) : Consumes l l 0 := ⟨rfl, rfl, rfl⟩

theorem consumes_advanceBy (l : Lexer) (n : Nat) : Consumes l (l.advanceBy n) n := ⟨rfl, rfl, rfl⟩

theorem Consumes.trans (h : Consumes l l' n) (h' : Consumes l' m k) : Consumes l m (n + k) where
  before := h'.before.trans h.before
  lexeme := by rw [h'.lexeme, h.lexeme, h.rest, List.take_add, List.reverse_append, List.append_assoc]
  rest := by rw [h'.rest, h.rest, List.drop_drop]

theorem consumes_newline (l : Lexer) : Consumes l l.newline 0 := by
  unfold newline
  constructor <;> dsimp only <;> split <;> split <;> rfl

theorem consumes_colon (l : Lexer) : Consumes l l.colon 0 := by
  unfold colon
  constructor <;> dsimp only <;> split <;> rfl

theorem consumes_closeLambdaLayout (l : Lexer) : Consumes l l.closeLambdaLayout 0 := by
  obtain ⟨k, -, hl⟩ := closeLambdaLayout_eq l
  rw [hl]
  exact ⟨rfl, rfl, rfl⟩

theorem consumes_scanIdentifier (l : Lexer) :
    Consumes l (l.scanIdentifier S) (l.rest.takeWhile isAlphanumeric).length := by
  unfold scanIdentifier
  constructor <;> dsimp only <;> split <;> split <;> rfl

theorem consumes_handleIndent (h : l.handleIndent = .ok l') :
    Consumes l l' (l.rest.takeWhile isIndent).length := by
  rw [handleIndent] at h
  split at h
  · cases h
    exact ⟨rfl, rfl, rfl⟩
  rw [startLine] at h
  split at h
  · exact absurd h error_ne_ok
  · cases h
    unfold indentTo
    constructor <;> dsimp only <;> split <;> rfl

theorem consumes_continuation (h : l.continuation = .ok l') :
    ∃ n, Consumes l l' (n + 1) ∧ lf ∉ l.rest.take n ∧ (l.rest.drop n).getD 0 0 = lf ∧
      l'.line = l.line + 1 := by
  rw [continuation] at h
  split at h
  · exact absurd h error_ne_ok
  · rename_i hnext
    cases h
    refine ⟨_, (consumes_advanceBy l _).trans ⟨rfl, rfl, rfl⟩, ?_, Decidable.not_not.1 hnext, rfl⟩
    rw [take_takeWhile]
    exact not_mem_takeWhile (by decide) _

theorem Lexer.Scans.consumes (h : Scans l S l') :
    ∃ n, Consumes l l' n ∧ (l.atLineStart = false → 0 < n) := by
  have hfirst : Consumes l l.first 1 := ⟨rfl, rfl, rfl⟩
  -- behind the first byte, a case reads `n` more
  have behind : ∀ {n : Nat} {l' : Lexer}, Consumes l.first l' n → ∃ n, Consumes l l' n ∧
    (l.atLineStart = false → 0 < n) :=
    fun h => ⟨_, hfirst.trans h, fun _ => Nat.lt_of_lt_of_le Nat.zero_lt_one (Nat.le_add_right 1 _)⟩
  cases h with
  | indent start result =>
    exact ⟨_, consumes_handleIndent result, fun inside => by rw [start] at inside; cases inside⟩
  | blank => exact behind (consumes_refl _)
  | newline => exact behind (consumes_newline _)
  | continuation _ _ result =>
    obtain ⟨n, hn, -⟩ := consumes_continuation result
    exact behind hn
  | comment => exact behind (consumes_advanceBy _ _)
  | openParenthesis => exact behind (n := 0) ⟨rfl, rfl, rfl⟩
  | openBracket => exact behind (n := 0) ⟨rfl, rfl, rfl⟩
  | colon => exact behind (consumes_colon _)
  | closeParenthesis | closeBracket | comma =>
    have hclose := consumes_closeLambdaLayout l.first
    exact behind ⟨hclose.before, hclose.lexeme, hclose.rest⟩
  | number _ _ result =>
    obtain ⟨n, type, value, -, -, rfl⟩ := scanNumber_eq_ok result
    exact behind ⟨rfl, rfl, rfl⟩
  | question _ _ result =>
    obtain ⟨n, type, -, -, rfl⟩ := question_eq_ok result
    exact behind ⟨rfl, rfl, rfl⟩
  | string _ _ result =>
    obtain ⟨ps, out, column, -, rfl⟩ := scanString_eq_ok rfl result
    exact behind ((consumes_advanceBy _ _).trans ⟨rfl, rfl, rfl⟩)
  | operator => exact behind ⟨rfl, rfl, rfl⟩
  | word => exact behind (consumes_scanIdentifier _)

end Consuming

/-! ## 6. Runs -/

/-- One round of the loop of `tokenize`. -/
def Step (S : Settings) (l l' : Lexer) : Prop := l.rest ≠ [] ∧ l.start.scanToken S = .ok l'

/-- The lexer comes through this state when it reads the source. -/
def Visits (S : Settings) (source : Bytes) (l : Lexer) : Prop :=
  Relation.ReflTransGen (Step S) { rest := source } l

theorem isAtEnd_iff : l.isAtEnd = true ↔ l.rest = [] := List.isEmpty_iff

theorem Step.scans (h : Step S l l') : Scans l.start S l' := scans_of_scanToken h.2

theorem Lexer.Scans.leavesLineStart (h : Scans l S l') (start : l.atLineStart = true) :
    l'.atLineStart = false := by
  cases h with
  | indent _ result =>
    rw [handleIndent] at result
    split at result
    · cases result
      rfl
    rw [startLine] at result
    split at result
    · exact absurd result error_ne_ok
    · cases result
      rfl
  | blank inside | newline inside | continuation inside | comment inside | openParenthesis inside
  | openBracket _ _ inside | closeParenthesis inside | closeBracket _ _ inside | colon inside
  | comma inside | number inside | question inside | string inside | operator inside | word inside =>
    rw [start] at inside
    cases inside

theorem Step.work_lt (h : Step S l l') : l'.work < l.work := by
  obtain ⟨n, hn, hpos⟩ := h.scans.consumes
  have hrest : l'.rest.length = l.rest.length - n := by rw [hn.rest, List.length_drop]; rfl
  have hlen := List.length_pos_iff.2 h.1
  unfold work
  cases hstart : l.atLineStart with
  | true =>
    rw [h.scans.leavesLineStart hstart, hrest]
    simp only [Bool.toNat_false, Bool.toNat_true]
    omega
  | false =>
    have hn := hpos hstart
    have := Bool.toNat_le l'.atLineStart
    rw [hrest, Bool.toNat_false]
    omega

theorem scanAll_eq_ok :
    ∀ {fuel : Nat} {l : Lexer}, l.work ≤ fuel → scanAll S fuel l = .ok l' →
      Relation.ReflTransGen (Step S) l l' ∧ l'.rest = []
  | 0, l, hfuel, h => by
      cases h
      refine ⟨.refl, List.eq_nil_of_length_eq_zero ?_⟩
      unfold work at hfuel
      omega
  | fuel + 1, l, hfuel, h => by
      rw [scanAll] at h
      split at h
      · rename_i hend
        cases h
        exact ⟨.refl, isAtEnd_iff.1 hend⟩
      · rename_i hend
        obtain ⟨m, hscan, h⟩ := bind_eq_ok.1 h
        have hstep : Step S l m := ⟨fun hnil => hend (isAtEnd_iff.2 hnil), hscan⟩
        obtain ⟨hrun, hrest⟩ := scanAll_eq_ok
          (Nat.le_of_lt_succ (Nat.lt_of_lt_of_le hstep.work_lt hfuel)) h
        exact ⟨.head hstep hrun, hrest⟩

theorem scanAll_of_run (h : Relation.ReflTransGen (Step S) l l') (hend : l'.rest = []) :
    ∀ {fuel : Nat}, l.work ≤ fuel → scanAll S fuel l = .ok l' := by
  induction h using Relation.ReflTransGen.head_induction_on with
  | refl =>
    intro fuel _
    cases fuel with
    | zero => rfl
    | succ fuel => rw [scanAll, if_pos (isAtEnd_iff.2 hend)]
  | head hstep _ ih =>
    intro fuel hfuel
    have hlt := hstep.work_lt
    obtain ⟨fuel, rfl⟩ := Nat.exists_eq_succ_of_ne_zero (show fuel ≠ 0 by omega)
    rw [scanAll, if_neg (fun hnil => hstep.1 (isAtEnd_iff.1 hnil)), hstep.2]
    exact ih (by omega)

variable {tokens : List Token}

theorem tokenize_eq_ok_iff {source : Bytes} :
    tokenize S source = .ok tokens ↔ ∃ l, Visits S source l ∧ l.rest = [] ∧ l.openBrackets = [] ∧
      tokens = l.tokens ++ List.replicate (l.indentStack.length - 1) (l.token .dedent) ++
        [l.token .eof] := by
  constructor
  · intro h
    obtain ⟨l, hscan, h⟩ := bind_eq_ok.1 h
    obtain ⟨hrun, hrest⟩ := scanAll_eq_ok (Nat.le_refl _) hscan
    obtain ⟨l', hfinish, h⟩ := bind_eq_ok.1 h
    cases h
    rw [finish] at hfinish
    split at hfinish
    · rename_i hbrackets
      cases hfinish
      exact ⟨l, hrun, hrest, hbrackets, rfl⟩
    · cases hfinish
  · rintro ⟨l, hrun, hrest, hbrackets, rfl⟩
    rw [tokenize, scanAll_of_run hrun hrest (Nat.le_refl _)]
    show (do let l ← l.finish; return l.tokens) = _
    rw [finish, hbrackets]
    rfl

theorem step_rightUnique (S : Settings) : Relator.RightUnique (Step S) := fun _ _ _ h h' =>
  Except.ok.inj (h.2.symm.trans h'.2)

theorem Visits.exists_step {source : Bytes} (accepted : tokenize S source = .ok tokens)
    (h : Visits S source l) (hne : l.rest ≠ []) :
    ∃ l', Step S l l' := by
  obtain ⟨last, hlast, hend, -⟩ := tokenize_eq_ok_iff.1 accepted
  rcases Relation.ReflTransGen.total_of_right_unique (step_rightUnique S) h hlast with hrun | hrun
  · rcases Relation.ReflTransGen.cases_head hrun with rfl | ⟨l', hstep, -⟩
    · exact absurd hend hne
    · exact ⟨l', hstep⟩
  · rcases Relation.ReflTransGen.cases_head hrun with rfl | ⟨l', hstep, -⟩
    · exact absurd hend hne
    · exact absurd hend hstep.1

def Lexer.run (S : Settings) : Nat → Lexer → List Lexer
  | 0, l => [l]
  | fuel + 1, l =>
    l :: match l.start.scanToken S with
      | .ok l' => run S fuel l'
      | .error _ => []

theorem mem_run {m : Lexer} (h : Relation.ReflTransGen (Step S) m l) :
    ∀ {fuel : Nat}, m.work ≤ fuel → l ∈ m.run S fuel := by
  induction h using Relation.ReflTransGen.head_induction_on with
  | refl =>
    intro fuel _
    cases fuel <;> exact List.mem_cons_self
  | head hstep _ ih =>
    intro fuel hfuel
    have hlt := hstep.work_lt
    obtain ⟨fuel, rfl⟩ := Nat.exists_eq_succ_of_ne_zero (show fuel ≠ 0 by omega)
    rw [Lexer.run, hstep.2]
    exact List.mem_cons_of_mem _ (ih (by omega))

/-- The states the lexer comes through. -/
def states (S : Settings) (source : Bytes) : List Lexer :=
  Lexer.run S (work { rest := source }) { rest := source }

theorem Visits.mem_states {source : Bytes} (h : Visits S source l) : l ∈ states S source :=
  mem_run h (Nat.le_refl _)

end Lexing
