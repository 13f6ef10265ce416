import GdscriptCompiler.Lexing.Crlf
import Mathlib.Data.List.TakeDrop

/-!
# LineEndings — the lexer on a text with CR LF

The two runs stay alike until a blank line, which is no blank line any more when a CR ends it.
-/

namespace Lexing

open Lexer Lib

variable {S : Settings} {l l' m m' : Lexer}

/-! ## 1. Open suites -/

/-- The second list lacks suites of the first that lie inside another suite of the same bracket. -/
inductive Covers : List LambdaLayout → List LambdaLayout → Prop
  | nil : Covers [] []
  | same {y : LambdaLayout} {ys zs : List LambdaLayout} (rest : Covers ys zs) : Covers (y :: ys)
    (y :: zs)
  | extra {y z : LambdaLayout} {ys zs : List LambdaLayout} (rest : Covers ys (z :: zs))
      (depth : y.bracketDepth = z.bracketDepth) (base : z.baseIndent < y.baseIndent) : Covers
      (y :: ys) (z :: zs)

section Layouts

variable {ys zs : List LambdaLayout} {z : LambdaLayout} {level n : Nat}

theorem Covers.head (h : Covers ys zs) :
    ys.head?.map LambdaLayout.bracketDepth = zs.head?.map LambdaLayout.bracketDepth := by
  cases h with
  | nil => rfl
  | same => rfl
  | extra _ depth => exact congrArg some depth

theorem Covers.eq_nil (h : Covers [] zs) : zs = [] := by
  cases h
  rfl

section

variable (h : Covers ys zs)
include h

/-- Leaving suites from the inside keeps the cover when a suite that ends the run also ends it
further out. -/
theorem Covers.dropWhile {p : LambdaLayout → Bool}
    (houter : ∀ y z : LambdaLayout, y.bracketDepth = z.bracketDepth → z.baseIndent < y.baseIndent →
        p y = false → p z = false) :
    Covers (ys.dropWhile p) (zs.dropWhile p) := by
  induction h with
  | nil => exact .nil
  | @same y ys zs rest ih =>
    cases hy : p y with
    | true => simpa [hy] using ih
    | false => simpa [hy] using rest.same
  | @extra y z ys zs rest depth base ih =>
    cases hy : p y with
    | true => simpa [hy] using ih
    | false => simpa [hy, houter y z depth base hy] using rest.extra depth base

theorem Covers.startLine (level : Nat) (leaves : Bool) :
    Covers (ys.dropWhile fun y => level ≤ y.baseIndent || leaves)
      (zs.dropWhile fun z => level ≤ z.baseIndent || leaves) := by
  refine h.dropWhile fun y z _ hbase hy => ?_
  simp only [Bool.or_eq_false_iff, decide_eq_false_iff_not] at hy ⊢
  exact ⟨by omega, hy.2⟩

theorem Covers.close (n : Nat) :
    Covers (ys.dropWhile fun y => y.bracketDepth = n) (zs.dropWhile fun z => z.bracketDepth = n) :=
  h.dropWhile fun _ _ hdepth _ hy => hdepth ▸ hy

theorem Covers.subset : ∀ z ∈ zs, z ∈ ys := by
  induction h with
  | nil => exact fun z hz => hz
  | same rest ih =>
    exact fun z hz => (List.mem_cons.1 hz).elim (· ▸ List.mem_cons_self) fun hz =>
      List.mem_cons_of_mem _ (ih z hz)
  | extra rest depth base ih => exact fun z hz => List.mem_cons_of_mem _ (ih z hz)

end

variable {rest : List LambdaLayout}

theorem base_lt_of_dropWhile (h : zs.dropWhile (fun z => level ≤ z.baseIndent) = z :: rest) :
    z.baseIndent < level := by
  have hhead := List.head?_dropWhile_not (fun z : LambdaLayout => decide (level ≤ z.baseIndent)) zs
  rw [h] at hhead
  simpa using hhead

/-- A CR behind spaces closes suites; nothing is lost while another suite of the bracket is open. -/
theorem Covers.blankLine (h : Covers ys zs) (hdepth : ∀ y ∈ ys, y.bracketDepth ≤ n)
    (hinner : ys.Pairwise fun y z => z.bracketDepth ≤ y.bracketDepth)
    (hleft : zs.dropWhile (fun z => level ≤ z.baseIndent) = z :: rest) (hz : z.bracketDepth = n) :
    Covers ys (z :: rest) := by
  have hbase := base_lt_of_dropWhile hleft
  -- the suites above one of the innermost bracket belong to it as well
  have hsame : ∀ {y : LambdaLayout} {ys : List LambdaLayout}, (∀ x ∈ y :: ys, x.bracketDepth ≤ n) →
      (y :: ys).Pairwise (fun y z => z.bracketDepth ≤ y.bracketDepth) → z ∈ ys →
      y.bracketDepth = z.bracketDepth := by
    intro y ys hdepth hinner hmem
    have hle := hdepth y List.mem_cons_self
    have hge := (List.pairwise_cons.1 hinner).1 z hmem
    omega
  induction h with
  | nil => cases hleft
  | @same y ys zs rest' ih =>
    by_cases hy : level ≤ y.baseIndent
    · rw [List.dropWhile_cons_of_pos (by simpa using hy)] at hleft
      have hcovers := ih (fun y hy => hdepth y (List.mem_cons_of_mem _ hy))
        (List.pairwise_cons.1 hinner).2 hleft
      exact hcovers.extra (hsame hdepth hinner (hcovers.subset z List.mem_cons_self))
        (Nat.lt_of_lt_of_le hbase hy)
    · rw [List.dropWhile_cons_of_neg (by simpa using hy)] at hleft
      cases hleft
      exact rest'.same
  | @extra y z₀ ys zs rest' depth base ih =>
    have hcovers := ih (fun y hy => hdepth y (List.mem_cons_of_mem _ hy))
      (List.pairwise_cons.1 hinner).2 hleft
    refine hcovers.extra (hsame hdepth hinner (hcovers.subset z List.mem_cons_self)) ?_
    by_cases hz₀ : level ≤ z₀.baseIndent
    · omega
    · rw [List.dropWhile_cons_of_neg (by simpa using hz₀)] at hleft
      cases hleft
      exact base

theorem drop_length_takeWhile {α : Type} (p : α → Bool) (xs : List α) :
    xs.drop (xs.takeWhile p).length = xs.dropWhile p := by
  induction xs with
  | nil => rfl
  | cons x xs ih => cases hx : p x <;> simp [hx, ih]

theorem dedentTo_dedentTo {a b : Nat} (h : b ≤ a) (l : Lexer) :
    (l.dedentTo a).dedentTo b = l.dedentTo b := by
  have hsplit : l.indentStack.dropLast.takeWhile (fun top => b < top) =
      l.indentStack.dropLast.takeWhile (fun top => a < top) ++
        (l.indentStack.dropLast.dropWhile fun top => a < top).takeWhile fun top => b < top := by
    rw [← List.takeWhile_append_of_pos, List.takeWhile_append_dropWhile]
    intro top htop
    have := List.mem_takeWhile_imp htop
    simp only [decide_eq_true_eq] at this ⊢
    omega
  have hdrop : (l.dedentTo a).indentStack.dropLast = l.indentStack.dropLast.dropWhile fun top =>
    a < top := by
    show (l.indentStack.drop _).dropLast = _
    rw [List.dropLast_drop_eq_drop_dropLast, drop_length_takeWhile]
  rw [dedentTo, hdrop, dedentTo, dedentBy_dedentBy, dedentTo, hsplit, List.length_append]

/-- Suites inside another one of their bracket make no difference to the levels that are closed. -/
theorem Covers.dedentTo (h : Covers ys zs) (n : Nat) (l : Lexer) :
    (ys.takeWhile fun y => y.bracketDepth = n).foldl (fun l y => l.dedentTo y.baseIndent) l =
      (zs.takeWhile fun z => z.bracketDepth = n).foldl (fun l z => l.dedentTo z.baseIndent) l := by
  induction h generalizing l with
  | nil => rfl
  | @same y ys zs rest ih =>
    by_cases hy : y.bracketDepth = n
    · simpa [hy] using ih _
    · simp [hy]
  | @extra y z ys zs rest depth base ih =>
    by_cases hy : y.bracketDepth = n
    · have hz : z.bracketDepth = n := depth ▸ hy
      have hrest := ih (l.dedentTo y.baseIndent)
      simp only [hz, decide_true, List.takeWhile_cons_of_pos, List.foldl_cons,
        dedentTo_dedentTo (Nat.le_of_lt base)] at hrest
      simp only [hy, hz, decide_true, List.takeWhile_cons_of_pos, List.foldl_cons]
      exact hrest
    · have hz : ¬ z.bracketDepth = n := depth ▸ hy
      simp [hy, hz]

end Layouts

/-! ## 2. Lexers that are alike -/

/-- What two tokens have in common whatever the line ending: all but the position in the line. -/
def Token.key (t : Token) : TokenType × TokenValue × Nat := (t.type, t.value, t.line)

/-- Alike in everything but the text and the positions in it. -/
structure Twin (l m : Lexer) : Prop where
  tokens : m.tokens.map Token.key = l.tokens.map Token.key
  line : m.line = l.line
  indentStack : m.indentStack = l.indentStack
  closers : m.openBrackets.map OpenBracket.closer = l.openBrackets.map OpenBracket.closer
  layouts : Covers l.lambdaLayouts m.lambdaLayouts
  atLineStart : m.atLineStart = l.atLineStart
  statementStart : m.statementStart = l.statementStart
  typeHeader : m.typeHeader = l.typeHeader
  signature : m.lambdaSignature = l.lambdaSignature
  parametersClosed : m.lambdaParametersClosed = l.lambdaParametersClosed
  suiteMayStart : m.lambdaSuiteMayStart = l.lambdaSuiteMayStart
  parameterDepth : m.lambdaParameterDepth = l.lambdaParameterDepth
  baseIndent : m.lambdaBaseIndent = l.lambdaBaseIndent

/-- The two halves of a line break: the suite it opens, and its token. -/
def Lexer.openSuite (l : Lexer) : Lexer :=
  if l.lambdaSuiteMayStart then
    { l with
      lambdaSuiteMayStart := false
      lambdaLayouts := ⟨l.lambdaBaseIndent, l.openBrackets.length⟩ :: l.lambdaLayouts }
  else l

def Lexer.endLine (l : Lexer) : Lexer :=
  let l := if l.openBrackets.isEmpty || l.lambdaLayoutActive then
    { l.addToken .newline with atLineStart := true } else l
  { l with line := l.line + 1, column := 1 }

theorem newline_eq (l : Lexer) : l.newline = l.openSuite.endLine := rfl

/-- What a word does behind its token: to the flags of the statement, and when it is the `func` of a
lambda. -/
def Lexer.endWord (l : Lexer) (type : TokenType) : Lexer :=
  let l := if type = .classKw || type = .structKw || type = .traitKw then
    { l with typeHeader := true } else l
  { l with statementStart := false }

def Lexer.startLambda (l : Lexer) (type : TokenType) : Lexer :=
  if type = .funcKw && !l.openBrackets.isEmpty then
    { l with
      lambdaSignature := true
      lambdaParametersClosed := false
      lambdaParameterDepth := 0
      lambdaBaseIndent := indentWidth (lineOf l.before).reverse }
  else l

theorem before_endWord (l : Lexer) (type : TokenType) : (l.endWord type).before = l.before := by
  unfold Lexer.endWord
  split <;> rfl

theorem scanIdentifier_eq (l : Lexer) :
    l.scanIdentifier S = let type := (l.advanceWhile isAlphanumeric).identifierType S
    (((l.advanceWhile isAlphanumeric).addToken type).endWord type).startLambda type := rfl

namespace Twin

variable {type : TokenType} {value : TokenValue} {c d closer : UInt8} {n k : Nat}

section

variable (h : Twin l m)
include h

theorem advanceBy (n k : Nat) : Twin (l.advanceBy n) (m.advanceBy k) := { h with }

theorem start : Twin l.start m.start := { h with }

theorem moveTo (hline : n = k) (i j : Nat) : Twin (l.moveTo n i) (m.moveTo k j) :=
  { h with line := hline.symm }

theorem depth : m.openBrackets.length = l.openBrackets.length := by
  have hlength := congrArg List.length h.closers
  rwa [List.length_map, List.length_map] at hlength

theorem active : m.lambdaLayoutActive = l.lambdaLayoutActive := by
  have hhead := h.layouts.head
  unfold lambdaLayoutActive
  rw [h.depth]
  cases hl : l.lambdaLayouts <;> cases hm : m.lambdaLayouts <;> rw [hl, hm] at hhead
  case nil.cons => cases hhead
  case cons.nil => cases hhead
  case cons.cons => simp only [Option.some.inj hhead]

theorem addToken (type : TokenType) : Twin (l.addToken type) (m.addToken type) :=
  { h with
    tokens := by simp [Lexer.addToken, h.tokens, Token.key, token, h.line]
    statementStart := by simp [Lexer.addToken, h.statementStart]
    typeHeader := by simp [Lexer.addToken, h.typeHeader] }

theorem addValue (type : TokenType) (value : TokenValue) :
    Twin (l.addValue type value) (m.addValue type value) :=
  { h with tokens := by simp [Lexer.addValue, h.tokens, Token.key, token, h.line] }

theorem endSuiteHead
    (hc : (c ≠ ' ' && c ≠ cr && c ≠ '\t' && c ≠ lf && c ≠ '#') =
        (d ≠ ' ' && d ≠ cr && d ≠ '\t' && d ≠ lf && d ≠ '#')) :
    Twin (l.endSuiteHead c) (m.endSuiteHead d) :=
  { h with suiteMayStart := by rw [Lexer.endSuiteHead, Lexer.endSuiteHead, h.suiteMayStart, hc] }

theorem pushBracket (closer : UInt8) : Twin (l.pushBracket closer) (m.pushBracket closer) :=
  { h with closers := congrArg (closer :: ·) h.closers }

theorem popBracket (closer : UInt8) : Twin (l.popBracket closer) (m.popBracket closer) := by
  refine { h with closers := ?_ }
  have hclosers := h.closers
  unfold Lexer.popBracket
  cases hl : l.openBrackets <;> cases hm : m.openBrackets <;> rw [hl, hm] at hclosers
  case nil.cons => cases hclosers
  case cons.nil => cases hclosers
  case cons.cons b bs b' bs' =>
    obtain ⟨hb, hbs⟩ := List.cons.inj hclosers
    dsimp only
    rw [hb]
    split
    · exact hbs
    · exact hclosers

theorem dedentBy (n : Nat) : Twin (l.dedentBy n) (m.dedentBy n) :=
  { h with
    tokens := by simp [Lexer.dedentBy, h.tokens, Token.key, token, h.line]
    indentStack := by simp [Lexer.dedentBy, h.indentStack] }

theorem dedentTo (level : Nat) : Twin (l.dedentTo level) (m.dedentTo level) := by
  unfold Lexer.dedentTo
  rw [h.indentStack]
  exact h.dedentBy _

theorem foldl_dedentTo (ys : List LambdaLayout) :
    Twin (ys.foldl (fun l y => l.dedentTo y.baseIndent) l)
      (ys.foldl (fun l y => l.dedentTo y.baseIndent) m) := by
  induction ys generalizing l m with
  | nil => exact h
  | cons y ys ih => exact ih (h.dedentTo y.baseIndent)

theorem closeLambdaLayout : Twin l.closeLambdaLayout m.closeLambdaLayout := by
  unfold Lexer.closeLambdaLayout
  dsimp only
  rw [h.depth, h.layouts.dedentTo]
  exact { h.foldl_dedentTo _ with layouts := h.layouts.close _ }

theorem closeBracket (closer : UInt8) (type : TokenType) :
    Twin (l.closeBracket closer type) (m.closeBracket closer type) :=
  (h.closeLambdaLayout.popBracket closer).addToken type

theorem openParenthesis : Twin l.openParenthesis m.openParenthesis := by
  have hopen := (h.pushBracket ')').addToken .lparen
  refine { hopen with parameterDepth := ?_ }
  have hdepth := hopen.depth
  unfold Lexer.openParenthesis Lexer.openBracket
  dsimp only
  rw [hdepth, hopen.signature, hopen.parameterDepth]

theorem closeParenthesis : Twin l.closeParenthesis m.closeParenthesis := by
  have hclose := h.closeBracket ')' .rparen
  refine { hclose with parametersClosed := ?_ }
  unfold Lexer.closeParenthesis
  dsimp only
  rw [hclose.parametersClosed, hclose.signature, hclose.parameterDepth, h.depth]

theorem colon : Twin l.colon m.colon := by
  have hcolon := h.addToken .colon
  unfold Lexer.colon
  dsimp only
  rw [hcolon.signature, hcolon.parametersClosed]
  split
  · exact { hcolon with
      signature := rfl, parametersClosed := rfl, parameterDepth := rfl, suiteMayStart := rfl }
  · exact hcolon

theorem openSuite : Twin l.openSuite m.openSuite := by
  unfold Lexer.openSuite
  rw [h.suiteMayStart]
  split
  · refine { h with suiteMayStart := rfl, layouts := ?_ }
    rw [h.baseIndent, h.depth]
    exact h.layouts.same
  · exact h

theorem isEmpty : m.openBrackets.isEmpty = l.openBrackets.isEmpty := by
  rw [Bool.eq_iff_iff, List.isEmpty_iff_length_eq_zero, List.isEmpty_iff_length_eq_zero, h.depth]

theorem endLine : Twin l.endLine m.endLine := by
  unfold Lexer.endLine
  rw [h.isEmpty, h.active]
  split
  · exact { h.addToken .newline with atLineStart := rfl, line := congrArg (· + 1) h.line }
  · exact { h with line := congrArg (· + 1) h.line }

theorem newline : Twin l.newline m.newline := by
  rw [newline_eq, newline_eq]
  exact h.openSuite.endLine

theorem endWord (type : TokenType) : Twin (l.endWord type) (m.endWord type) := by
  unfold Lexer.endWord
  split
  · exact { h with statementStart := rfl, typeHeader := rfl }
  · exact { h with statementStart := rfl }

theorem startLambda (type : TokenType) (hbefore : lineOf m.before = lineOf l.before) :
    Twin (l.startLambda type) (m.startLambda type) := by
  unfold Lexer.startLambda
  rw [h.isEmpty]
  split
  · exact { h with
      signature := rfl, parametersClosed := rfl, parameterDepth := rfl
      baseIndent := congrArg (fun line => indentWidth line.reverse) hbefore }
  · exact h

theorem currentIndent : m.currentIndent = l.currentIndent := congrArg (·.headD 0) h.indentStack

theorem indentTo (level : Nat) : Twin (l.indentTo level) (m.indentTo level) := by
  unfold Lexer.indentTo
  rw [h.currentIndent]
  split
  · have hpush : Twin { l with indentStack := level :: l.indentStack }
      { m with indentStack := level :: m.indentStack } :=
      { h with indentStack := congrArg (level :: ·) h.indentStack }
    exact hpush.addToken .indent
  · exact h.dedentTo level

end

end Twin

/-! ## 3. The two runs -/

/-- The second lexer stands at the copy of where the first stands. -/
structure Aligned (l m : Lexer) : Prop where
  rest : m.rest = crlf l.rest
  line : lineOf (m.lexeme ++ m.before) = lineOf (l.lexeme ++ l.before)

/-- Both stand at an LF; the second has read the CR before it. -/
structure AtBreak (l m : Lexer) : Prop where
  inside : l.atLineStart = false
  rest : ∃ r, l.rest = lf :: r ∧ m.rest = lf :: crlf r

section Alignment

variable {n k : Nat}

theorem Aligned.consume (h : Aligned l m) (hl : Consumes l l' n) (hm : Consumes m m' k)
    (hk : m.rest.take k = crlf (l.rest.take n)) :
    Aligned l' m' := by
  constructor
  · have hsplit : m.rest.take k ++ m.rest.drop k = crlf (l.rest.take n) ++ crlf (l.rest.drop n) := by
      rw [List.take_append_drop, ← crlf_append, List.take_append_drop, h.rest]
    rw [hk] at hsplit
    rw [hl.rest, hm.rest]
    exact List.append_cancel_left hsplit
  · rw [hl.lexeme, hl.before, hm.lexeme, hm.before, hk, List.append_assoc, List.append_assoc]
    exact lineOf_crlf h.line _

theorem Aligned.consumeSame (h : Aligned l m) (hl : Consumes l l' n) (hm : Consumes m m' n)
    (hn : lf ∉ l.rest.take n) :
    Aligned l' m' :=
  h.consume hl hm (by rw [h.rest, take_crlf hn, crlf_of_not_mem hn])

theorem consumes_first (l : Lexer) : Consumes l l.first 1 := ⟨rfl, rfl, rfl⟩

section

variable (h : Aligned l m) (hne : l.peek ≠ lf)
include h hne

theorem Aligned.peek_eq : m.peek = l.peek := by
  rw [peek_crlf h.rest]
  exact if_neg hne

theorem Aligned.peekNext_eq : m.peekNext = seen l.peekNext := by
  rw [peekNext, peekAt, h.rest, getD_crlf (lf_not_mem_first rfl hne)]
  rfl

theorem Aligned.peekAt_two (hnext : l.peekNext ≠ lf) : m.peekAt 2 = seen (l.peekAt 2) := by
  have htwo : lf ∉ l.rest.take 2 := lf_not_mem_take_add (lf_not_mem_first rfl hne)
    (lf_not_mem_take_one (q := fun c => c ≠ lf) (decide_eq_true (getD_drop _ _ _ ▸ hnext)) (by decide))
  rw [peekAt, h.rest, getD_crlf htwo]
  rfl

end

theorem Twin.first (h : Twin l m) (hpeek : m.peek = l.peek) : Twin l.first m.first :=
  (h.advanceBy 1 1).endSuiteHead (by rw [hpeek])

theorem opensString_seen (c next : UInt8) : opensString c (seen next) = opensString c next := by
  unfold opensString
  rw [class_seen (f := isQuote) rfl]

theorem startsNumber_seen (c next : UInt8) : startsNumber c (seen next) = startsNumber c next := by
  unfold startsNumber
  rw [class_seen (f := isDigit) rfl]

theorem Aligned.stutter (h : Aligned l m) (htwin : Twin l m) (inside : l.atLineStart = false)
    (next : l.peek = lf) :
    Scans m S m.first ∧ Twin l m.first ∧ AtBreak l m.first := by
  have hpeek : m.peek = cr := by rw [peek_crlf h.rest, next]; rfl
  have hl := rest_of_peek next (by decide)
  refine ⟨.blank (htwin.atLineStart.trans inside) (.inr (.inl hpeek)), ?_, inside, l.rest.drop 1, hl, ?_⟩
  · refine { htwin.advanceBy 0 1 with suiteMayStart := ?_ }
    rw [first, endSuiteHead, hpeek]
    exact (Bool.and_true _).trans htwin.suiteMayStart
  · show m.rest.drop 1 = _
    rw [h.rest, hl]
    rfl

theorem AtBreak.newline (h : AtBreak l m) (htwin : Twin l m) (scans : Scans l S l') :
    ∃ m', Scans m S m' ∧ Twin l' m' ∧ Aligned l' m' := by
  obtain ⟨r, hl, hm⟩ := h.rest
  have hnext := peek_of_rest hl
  have hnext' := peek_of_rest hm
  have hscans : Scans l S l.first.newline := .newline h.inside hnext
  have hl' : l' = l.first.newline :=
    Except.ok.inj ((scanToken_of_scans scans).symm.trans (scanToken_of_scans hscans))
  subst hl'
  refine ⟨_, .newline (htwin.atLineStart.trans h.inside) hnext',
    (htwin.first (hnext'.trans hnext.symm)).newline, ?_⟩
  have hc := (consumes_first l).trans (consumes_newline _)
  have hc' := (consumes_first m).trans (consumes_newline _)
  constructor
  · rw [hc.rest, hc'.rest, hl, hm]
    rfl
  · rw [hc.lexeme, hc'.lexeme, hl, hm]
    rfl

variable {p : UInt8 → Bool}

theorem dropWhile_blank_crlf (hcr : p cr = true) (hlf : p lf = false) {bs r : Bytes}
    (h : bs.dropWhile p = lf :: r) :
    (crlf bs).dropWhile p = lf :: crlf r := by
  induction bs with
  | nil => cases h
  | cons c bs ih =>
    by_cases hc : c = lf
    · subst hc
      rw [List.dropWhile_cons_of_neg (by rw [hlf]; decide)] at h
      cases h
      rw [crlf_lf, List.dropWhile_cons_of_pos hcr, List.dropWhile_cons_of_neg (by rw [hlf]; decide)]
    · cases hp : p c with
      | true =>
        rw [List.dropWhile_cons_of_pos hp] at h
        rw [crlf_cons hc, List.dropWhile_cons_of_pos hp, ih h]
      | false =>
        rw [List.dropWhile_cons_of_neg (by rw [hp]; decide)] at h
        exact absurd (List.cons.inj h).1 hc

theorem Aligned.first (h : Aligned l m) (hne : l.peek ≠ lf) : Aligned l.first m.first :=
  h.consumeSame (consumes_first l) (consumes_first m) (lf_not_mem_first rfl hne)

theorem Aligned.comment (h : Aligned l m) (htwin : Twin l m) (inside : l.atLineStart = false) :
    Twin l.comment m.comment ∧ (Aligned l.comment m.comment ∨ AtBreak l.comment m.comment) := by
  refine ⟨htwin.advanceBy _ _, ?_⟩
  have hrest : ∀ l : Lexer, l.comment.rest = l.rest.dropWhile fun c => c ≠ lf := fun l =>
    drop_length_takeWhile _ _
  cases hl : l.rest.dropWhile (fun c => c ≠ lf) with
  | nil =>
    have hno : lf ∉ l.rest := fun hmem => by
      have := List.dropWhile_eq_nil_iff.1 hl lf hmem
      simp at this
    have hsame : m.rest = l.rest := h.rest.trans (crlf_of_not_mem hno)
    refine .inl (h.consumeSame (consumes_advanceBy l _) (hsame ▸ consumes_advanceBy m _) fun hmem => ?_)
    exact hno (List.mem_of_mem_take hmem)
  | cons c r =>
    have hc : c = lf := by
      have hhead := List.head?_dropWhile_not (fun c : UInt8 => decide (c ≠ lf)) l.rest
      rw [hl] at hhead
      simpa using hhead
    subst hc
    refine .inr ⟨inside, r, (hrest l).trans hl, ?_⟩
    rw [hrest, h.rest]
    exact dropWhile_blank_crlf (by decide) (by decide) hl

theorem Aligned.continuation (h : Aligned l m) (htwin : Twin l m)
    (result : l.continuation = .ok l') :
    ∃ m', m.continuation = .ok m' ∧ Twin l' m' ∧ Aligned l' m' := by
  rw [Lexer.continuation] at result
  split at result
  · exact absurd result error_ne_ok
  rename_i hnext
  cases result
  have hrest : ∀ l : Lexer, (l.advanceWhile fun (c : UInt8) => c = ' ' || c = cr || c = '\t').rest =
      l.rest.dropWhile fun (c : UInt8) => c = ' ' || c = cr || c = '\t' := fun l =>
        drop_length_takeWhile _ _
  obtain ⟨r, hl⟩ : ∃ r, (l.advanceWhile fun (c : UInt8) => c = ' ' || c = cr || c = '\t').rest = lf
    :: r :=
    ⟨_, rest_of_peek (Decidable.not_not.1 hnext) (by decide)⟩
  have hm : (m.advanceWhile fun (c : UInt8) => c = ' ' || c = cr || c = '\t').rest = lf :: crlf r := by
    rw [hrest, h.rest]
    exact dropWhile_blank_crlf (by decide) (by decide) ((hrest l).symm.trans hl)
  refine ⟨_, by rw [Lexer.continuation, if_neg (by rw [peek_of_rest hm]; decide)], ?_, ⟨?_, ?_⟩⟩
  · exact { htwin with line := congrArg (· + 1) htwin.line }
  · show List.drop 1 _ = crlf (List.drop 1 _)
    rw [hm, hl]
    rfl
  · show lineOf ((List.take 1 _).reverse ++ _ ++ _) = lineOf ((List.take 1 _).reverse ++ _ ++ _)
    rw [hm, hl]
    rfl

/-- A string literal with these pieces starts at `l`. -/
structure StringAt (l : Lexer) (raw : Bool) (ps : List Piece) : Prop where
  inside : l.atLineStart = false
  literal : ∃ k type out, opensString l.peek l.peekNext = some (k, type, raw) ∧
    IsLiteral (l.peekAt k) raw (l.rest.drop (k + 1)) ps out

theorem isQuote_ne_cr {c : UInt8} (h : isQuote c = true) : c ≠ cr := by
  rintro rfl
  exact absurd h (by decide)

section Strings

variable {type : TokenType} {raw : Bool} {ps : List Piece} {out : Bytes}

theorem string_of_literal (opens : Opens l k type raw)
    (h : IsLiteral (l.peekAt k) raw (l.rest.drop (k + 1)) ps out) :
    ∃ column, (l.first.advanceBy k).scanString type raw =
      .ok (((l.first.advanceBy (k + literalLength (l.peekAt k) (l.rest.drop (k + 1)) ps)).moveTo
        (l.line + Piece.breaksIn ps) column).addValue type (.text (Piece.values ps))) := by
  have hrest : (l.first.advanceBy k).rest = l.rest.drop (k + 1) := by
    rw [Nat.add_comm]
    exact List.drop_drop
  obtain ⟨column, result⟩ :=
    scanString_of_literal type opens.lexeme (isQuote_ne opens.quote).1 (hrest ▸ h)
  refine ⟨column, ?_⟩
  rw [result, hrest, advanceBy_advanceBy]
  rfl

theorem Aligned.opens (h : Aligned l m) (hne : l.peek ≠ lf)
    (hl : opensString l.peek l.peekNext = some (k, type, raw)) :
    opensString m.peek m.peekNext = some (k, type, raw) ∧ m.peekAt k = l.peekAt k ∧
      m.rest.drop (k + 1) = crlf (l.rest.drop (k + 1)) ∧
        m.rest.take (k + 1) = l.rest.take (k + 1) := by
  have opens := opens_of_opensString hl
  have hk : lf ∉ l.rest.take k := fun hmem => opens.noBreak
    (List.take_subset_take_left _ (Nat.le_succ k) hmem)
  refine ⟨?_, ?_, ?_, ?_⟩
  · rw [h.peek_eq hne, h.peekNext_eq hne, opensString_seen, hl]
  · rw [peekAt, h.rest, getD_crlf hk]
    exact if_neg (isQuote_ne opens.quote).2
  · rw [h.rest, drop_crlf opens.noBreak]
  · rw [h.rest, take_crlf opens.noBreak]

theorem Aligned.string (h : Aligned l m) (htwin : Twin l m) (hne : l.peek ≠ lf)
    (hl : opensString l.peek l.peekNext = some (k, type, raw))
    (result : (l.first.advanceBy k).scanString type raw = .ok l')
    (hpieces : ∀ ps out, IsLiteral (l.peekAt k) raw (l.rest.drop (k + 1)) ps out →
      ∀ p ∈ ps, p.Unbroken ∧ p ≠ .lineBreak true) :
    ∃ m', (m.first.advanceBy k).scanString type raw = .ok m' ∧ Twin l' m' ∧ Aligned l' m' := by
  have opens := opens_of_opensString hl
  obtain ⟨hstarts, hquote, hrest, htake⟩ := h.opens hne hl
  have opens' := opens_of_opensString hstarts
  obtain ⟨ps, out, column, hlit, rfl⟩ := string_eq opens result
  have hps := hpieces ps out hlit
  have hlit' := hlit.crlf (isQuote_ne_cr opens.quote) (isQuote_ne opens.quote).2
    (isQuote_ne opens.quote).1 hps
  rw [← hrest, ← hquote] at hlit'
  obtain ⟨column', result'⟩ := string_of_literal opens' hlit'
  refine ⟨_, result', ?_, ?_⟩
  · have hmove := ((htwin.first (h.peek_eq hne)).advanceBy
      (k + literalLength (l.peekAt k) (l.rest.drop (k + 1)) ps)
      (k + literalLength (m.peekAt k) (m.rest.drop (k + 1)) (ps.map Piece.twin))).moveTo
        (n := l.line + Piece.breaksIn ps) (k := m.line + Piece.breaksIn (ps.map Piece.twin))
        (by rw [breaksIn_twin, htwin.line]) column column'
    rw [values_twin]
    exact hmove.addValue type _
  · have hconsumes : ∀ (l : Lexer) (n line column : Nat) (value : TokenValue),
        Consumes l (((l.first.advanceBy n).moveTo line column).addValue type value) (1 + n) :=
          fun l n line column value =>
      (consumes_first l).trans ⟨rfl, rfl, rfl⟩
    refine h.consume (hconsumes l _ _ _ _) (hconsumes m _ _ _ _) ?_
    rw [← Nat.add_assoc, ← Nat.add_assoc, Nat.add_comm 1 k, take_literal opens' hlit',
      take_literal opens hlit, crlf_append, crlf_of_not_mem opens.noBreak, htake, hrest, hquote,
      quoted_crlf (isQuote_ne_cr opens.quote) (isQuote_ne opens.quote).2 fun p hp =>
        ⟨hlit.allowed p hp, hps p hp⟩]

end Strings

theorem Aligned.advanceWhile (h : Aligned l m) (hcr : p cr = false) (hlf : p lf = false) :
    m.rest.takeWhile p = l.rest.takeWhile p ∧ lf ∉ l.rest.take (l.rest.takeWhile p).length ∧
      Aligned (l.advanceWhile p) (m.advanceWhile p) := by
  have hrun : m.rest.takeWhile p = l.rest.takeWhile p := by rw [h.rest, takeWhile_crlf hcr hlf]
  have hno : lf ∉ l.rest.take (l.rest.takeWhile p).length := by
    rw [take_takeWhile]
    exact not_mem_takeWhile hlf _
  exact ⟨hrun, hno, h.consumeSame (consumes_advanceBy l _) (hrun ▸ consumes_advanceBy m _) hno⟩

theorem dropWhile_crlf (hcr : p cr = false) (hlf : p lf = false) (bs : Bytes) :
    (crlf bs).dropWhile p = crlf (bs.dropWhile p) := by
  have hsame : Aligned { rest := bs } { rest := crlf bs } := ⟨rfl, rfl⟩
  rw [← drop_length_takeWhile, ← drop_length_takeWhile]
  exact (hsame.advanceWhile hcr hlf).2.2.rest

section

variable (h : Aligned l m)
include h

theorem Aligned.identifierType (htwin : Twin l m) (hlexeme : m.lexeme = l.lexeme) :
    m.identifierType S = l.identifierType S := by
  have hnext : isAlpha ((m.rest.dropWhile isIndent).headD 0) = isAlpha
    ((l.rest.dropWhile isIndent).headD 0) := by
    have hhead : ∀ bs : Bytes, bs.headD 0 = bs.getD 0 0 := fun bs => by cases bs <;> rfl
    rw [h.rest, dropWhile_crlf rfl rfl, hhead, head_crlf, class_seen (f := isAlpha) rfl, hhead]
  unfold Lexer.identifierType
  rw [hnext, htwin.statementStart, htwin.typeHeader, text, hlexeme]
  rfl

theorem Aligned.word (htwin : Twin l m) (hlexeme : m.lexeme = l.lexeme)
    (hbefore : lineOf m.before = lineOf l.before) :
    Twin (l.scanIdentifier S) (m.scanIdentifier S) ∧
      Aligned (l.scanIdentifier S) (m.scanIdentifier S) := by
  obtain ⟨hrun, hno, hread⟩ := h.advanceWhile (p := isAlphanumeric) (by decide) (by decide)
  have hconsumes := consumes_scanIdentifier (S := S) m
  rw [hrun] at hconsumes
  refine ⟨?_, h.consumeSame (consumes_scanIdentifier l) hconsumes hno⟩
  have htype : (m.advanceWhile isAlphanumeric).identifierType
    S = (l.advanceWhile isAlphanumeric).identifierType S := by
    refine hread.identifierType (htwin.advanceBy _ _) ?_
    show (m.rest.take _).reverse ++ m.lexeme = (l.rest.take _).reverse ++ l.lexeme
    rw [take_takeWhile, take_takeWhile, hrun, hlexeme]
  have htoken := (htwin.advanceBy (l.rest.takeWhile isAlphanumeric).length
    (m.rest.takeWhile isAlphanumeric).length).addToken
    ((l.advanceWhile isAlphanumeric).identifierType S)
  rw [scanIdentifier_eq, scanIdentifier_eq, htype]
  refine (htoken.endWord _).startLambda _ ?_
  rw [before_endWord, before_endWord]
  exact hbefore

theorem Aligned.closed
    (hl : l'.before = l.closeLambdaLayout.before ∧ l'.lexeme = l.closeLambdaLayout.lexeme ∧
      l'.rest = l.closeLambdaLayout.rest)
    (hm : m'.before = m.closeLambdaLayout.before ∧
      m'.lexeme = m.closeLambdaLayout.lexeme ∧ m'.rest = m.closeLambdaLayout.rest) :
    Aligned l' m' := by
  have hclose := consumes_closeLambdaLayout l
  have hclose' := consumes_closeLambdaLayout m
  exact h.consumeSame ⟨hl.1.trans hclose.before, hl.2.1.trans hclose.lexeme, hl.2.2.trans hclose.rest⟩
    ⟨hm.1.trans hclose'.before, hm.2.1.trans hclose'.lexeme, hm.2.2.trans hclose'.rest⟩ List.not_mem_nil

theorem Aligned.inline (htwin : Twin l m) (hlexeme : l.lexeme = []) (hlexeme' : m.lexeme = [])
    (inside : l.atLineStart = false) (hne : l.peek ≠ lf) (scans : Scans l S l')
    (hpieces : ∀ raw ps, StringAt l raw ps → ∀ p ∈ ps, p.Unbroken ∧ p ≠ .lineBreak true) :
    ∃ m', Scans m S m' ∧ Twin l' m' ∧ (Aligned l' m' ∨ AtBreak l' m') := by
  have inside' : m.atLineStart = false := htwin.atLineStart.trans inside
  have hpeek := h.peek_eq hne
  have hnext := h.peekNext_eq hne
  have hfirst := h.first hne
  have htwin' := htwin.first hpeek
  have hnone : lf ∉ l.first.rest.take 0 := List.not_mem_nil
  cases scans with
  | indent start => exact Bool.noConfusion (inside.symm.trans start)
  | newline _ next => exact absurd next hne
  | blank _ next => exact ⟨_, .blank inside' (hpeek ▸ next), htwin', .inl hfirst⟩
  | continuation _ next result =>
    obtain ⟨m', result', htwin', haligned⟩ := hfirst.continuation htwin' result
    exact ⟨m', .continuation inside' (hpeek.trans next) result', htwin', .inl haligned⟩
  | comment _ next =>
    obtain ⟨htwin', hfollows⟩ := hfirst.comment htwin' inside
    exact ⟨_, .comment inside' (hpeek.trans next), htwin', hfollows⟩
  | openParenthesis _ next =>
    exact ⟨_, .openParenthesis inside' (hpeek.trans next), htwin'.openParenthesis,
      .inl (hfirst.consumeSame ⟨rfl, rfl, rfl⟩ ⟨rfl, rfl, rfl⟩ hnone)⟩
  | openBracket closer type _ next =>
    exact ⟨_, .openBracket closer type inside' (hpeek ▸ next), (htwin'.pushBracket closer).addToken type,
      .inl (hfirst.consumeSame ⟨rfl, rfl, rfl⟩ ⟨rfl, rfl, rfl⟩ hnone)⟩
  | closeParenthesis _ next =>
    exact ⟨_, .closeParenthesis inside' (hpeek.trans next), htwin'.closeParenthesis,
      .inl (hfirst.closed ⟨rfl, rfl, rfl⟩ ⟨rfl, rfl, rfl⟩)⟩
  | closeBracket closer type _ next kind =>
    exact ⟨_, .closeBracket closer type inside' (hpeek.trans next) kind, htwin'.closeBracket closer type,
      .inl (hfirst.closed ⟨rfl, rfl, rfl⟩ ⟨rfl, rfl, rfl⟩)⟩
  | colon _ next =>
    exact ⟨_, .colon inside' (hpeek.trans next), htwin'.colon,
      .inl (hfirst.consumeSame (consumes_colon _) (consumes_colon _) hnone)⟩
  | comma _ next =>
    exact ⟨_, .comma inside' (hpeek.trans next), htwin'.closeLambdaLayout.addToken .comma,
      .inl (hfirst.closed ⟨rfl, rfl, rfl⟩ ⟨rfl, rfl, rfl⟩)⟩
  | number _ starts result =>
    obtain ⟨n, type, value, -, hn, rfl, result'⟩ := scanNumber_crlf hfirst.rest result
    rw [← hpeek] at result'
    refine ⟨_, .number inside' ?_ result', (htwin'.advanceBy n n).addValue type value,
      .inl (hfirst.consumeSame ⟨rfl, rfl, rfl⟩ ⟨rfl, rfl, rfl⟩ hn)⟩
    rw [hpeek, hnext, startsNumber_seen, starts]
  | question _ next result =>
    obtain ⟨n, type, hn, rfl, result'⟩ := question_crlf hfirst.rest result
    exact ⟨_, .question inside' (hpeek.trans next) result', (htwin'.advanceBy n n).addToken type,
      .inl (hfirst.consumeSame ⟨rfl, rfl, rfl⟩ ⟨rfl, rfl, rfl⟩ hn)⟩
  | @string _ k type raw _ opens result =>
    obtain ⟨m', result', htwin', haligned⟩ := h.string htwin hne opens result
      fun ps out hlit => hpieces raw ps ⟨inside, k, type, out, opens, hlit⟩
    exact ⟨m', .string inside' (h.opens hne opens).1 result', htwin', .inl haligned⟩
  | @operator type n _ starts opens found =>
    have hn := (operator_eq_some (l := l.first) (by rw [peek_first, peekNext_first, found])).2
    refine ⟨_, .operator inside' ?_ ?_ ?_, (htwin'.advanceBy n n).addToken type,
      .inl (hfirst.consumeSame ⟨rfl, rfl, rfl⟩ ⟨rfl, rfl, rfl⟩ hn)⟩
    · rw [hpeek, hnext, startsNumber_seen, starts]
    · rw [hpeek, hnext, opensString_seen, opens]
    · rw [hpeek, hnext, operator_crlf fun hnext => h.peekAt_two hne hnext, found]
  | word _ opens letter =>
    obtain ⟨hword, haligned⟩ := hfirst.word (S := S) htwin' (by
      show (m.rest.take 1).reverse ++ m.lexeme = (l.rest.take 1).reverse ++ l.lexeme
      rw [h.rest, take_crlf (lf_not_mem_first rfl hne), hlexeme, hlexeme']) (by
      have hline := h.line
      rw [hlexeme, hlexeme'] at hline
      exact hline)
    refine ⟨_, .word inside' ?_ (hpeek ▸ letter), hword, .inl haligned⟩
    rw [hpeek, hnext, opensString_seen, opens]

theorem Aligned.indent :
    indentWidth m.rest = indentWidth l.rest ∧
      Aligned (l.advanceWhile isIndent) (m.advanceWhile isIndent) := by
  obtain ⟨hrun, -, hindent⟩ := h.advanceWhile (p := isIndent) (by decide) (by decide)
  exact ⟨by rw [indentWidth, indentWidth, hrun], hindent⟩

theorem Aligned.leavesLambda (htwin : Twin l m) (level : Nat) :
    m.leavesLambda level = l.leavesLambda level := by
  rw [Lexer.leavesLambda, Lexer.leavesLambda, htwin.active, htwin.currentIndent, peek_crlf h.rest,
    class_seen (f := closesSuite) rfl]

end

theorem consumes_indentTo (l : Lexer) (level : Nat) : Consumes l (l.indentTo level) 0 := by
  unfold indentTo
  split <;> exact ⟨rfl, rfl, rfl⟩

theorem Aligned.startLine {level : Nat} (h : Aligned l m) (htwin : Twin l m)
    (result : l.startLine level = .ok l') :
    ∃ m', m.startLine level = .ok m' ∧ Twin l' m' ∧ Aligned l' m' := by
  have hindent := htwin.indentTo level
  have hleaves := h.leavesLambda htwin level
  have hl := consumes_indentTo l level
  have hm := consumes_indentTo m level
  rw [Lexer.startLine] at result ⊢
  rw [hindent.currentIndent, hleaves]
  split at result
  · exact absurd result error_ne_ok
  rename_i hok
  cases result
  rw [if_neg hok]
  refine ⟨_, rfl, { hindent with atLineStart := rfl, layouts := htwin.layouts.startLine level _ }, ?_⟩
  exact h.consumeSame (n := 0) ⟨hl.before, hl.lexeme, hl.rest⟩ ⟨hm.before, hm.lexeme, hm.rest⟩
    List.not_mem_nil

/-- The start of a line that no line break ends: an indented line, a comment, or the end of the
source. -/
theorem Aligned.lineStart (h : Aligned l m) (htwin : Twin l m) (start : l.atLineStart = true)
    (hne : (l.advanceWhile isIndent).peek ≠ lf) (result : l.handleIndent = .ok l') :
    ∃ m', Scans m S m' ∧ Twin l' m' ∧ Aligned l' m' := by
  obtain ⟨hwidth, hindent⟩ := h.indent
  have htwin' := htwin.advanceBy (l.rest.takeWhile isIndent).length (m.rest.takeWhile isIndent).length
  have hblank : m.blankLine = l.blankLine := by
    have hend : (m.advanceWhile isIndent).isAtEnd = (l.advanceWhile isIndent).isAtEnd := by
      rw [Bool.eq_iff_iff, isAtEnd_iff, isAtEnd_iff, hindent.rest, crlf_eq_nil]
    rw [blankLine, blankLine, hend, hindent.peek_eq hne]
  have start' : m.atLineStart = true := htwin.atLineStart.trans start
  rcases handleIndent_eq_ok result with ⟨hl, rfl⟩ | ⟨hl, result⟩
  · have result' : m.handleIndent = .ok { m.advanceWhile isIndent with atLineStart := false } := by
      rw [handleIndent_eq, hblank, hl]
      rfl
    exact ⟨_, .indent start' result', { htwin' with atLineStart := rfl }, ⟨hindent.rest, hindent.line⟩⟩
  · obtain ⟨m', result', htwin', haligned⟩ := hindent.startLine htwin' result
    refine ⟨m', .indent start' ?_, htwin', haligned⟩
    rw [handleIndent_eq, hblank, hl, hwidth, if_neg (by decide), result']

/-- The lexer does not notice when a CR ends the blank line it is at. -/
def Lexer.KeepsBlank (l : Lexer) : Prop :=
  indentWidth l.rest = l.currentIndent ∧ (l.lambdaLayoutActive = true →
    { l with
      lambdaLayouts := l.lambdaLayouts.dropWhile fun y => indentWidth l.rest ≤ y.baseIndent
      }.lambdaLayoutActive = true)

theorem dedentTo_currentIndent (l : Lexer) : l.dedentTo l.currentIndent = l.dedentBy 0 := by
  unfold dedentTo currentIndent
  cases hl : l.indentStack with
  | nil => rfl
  | cons top below =>
    cases below with
    | nil => rfl
    | cons => simp

theorem Nested.keepsBlank (h : Nested l) (hcovers : Covers l.lambdaLayouts m.lambdaLayouts)
    (start : l.atLineStart = true) (hkeeps : l.KeepsBlank) :
    Covers l.lambdaLayouts
      (m.lambdaLayouts.dropWhile fun y => decide (indentWidth l.rest ≤ y.baseIndent) || false) := by
  have hdrop := hcovers.startLine (indentWidth l.rest) false
  simp only [Bool.or_false] at hdrop ⊢
  by_cases hnil : l.lambdaLayouts = []
  · rw [hnil] at hcovers ⊢
    rw [hcovers.eq_nil]
    exact .nil
  obtain ⟨y, ys, hleft, hdepth⟩ := lambdaLayoutActive_iff.1 (hkeeps.2 (h.active_of_lineStart start hnil))
  have hhead := hdrop.head
  dsimp only at hleft
  rw [hleft] at hhead
  cases hm : m.lambdaLayouts.dropWhile fun y => decide (indentWidth l.rest ≤ y.baseIndent) with
  | nil =>
    rw [hm] at hhead
    cases hhead
  | cons z zs =>
    rw [hm] at hhead
    have hz : y.bracketDepth = z.bracketDepth := Option.some.inj hhead
    have hmem : z ∈ l.lambdaLayouts :=
      hcovers.subset z ((List.dropWhile_sublist _).subset (hm ▸ List.mem_cons_self))
    exact hcovers.blankLine h.depth h.inner hm (Nat.le_antisymm (h.depth z hmem) (hz ▸ hdepth))

theorem Aligned.blankLine_eq (h : Aligned l m) (next : (l.advanceWhile isIndent).peek = lf) :
    m.handleIndent = (m.advanceWhile isIndent).startLine (indentWidth l.rest) ∧
      (m.advanceWhile isIndent).peek = cr := by
  obtain ⟨hwidth, hindent⟩ := h.indent
  have hpeek : (m.advanceWhile isIndent).peek = cr := by rw [peek_crlf hindent.rest, next]; rfl
  have hend : (m.advanceWhile isIndent).isAtEnd = false := by
    rw [isAtEnd, rest_of_peek hpeek (by decide)]
    rfl
  have hblank : m.blankLine = false := by
    rw [Lexer.blankLine, hend, hpeek]
    decide
  exact ⟨by rw [handleIndent_eq, hblank, if_neg (by decide), hwidth], hpeek⟩

theorem leavesLambda_of_cr {level : Nat} (h : l.peek = cr) : l.leavesLambda level = false := by
  rw [leavesLambda, h]
  exact Bool.and_false _

theorem Aligned.blankLine_result (h : Aligned l m) (next : (l.advanceWhile isIndent).peek = lf)
    (hlevel : m.currentIndent = indentWidth l.rest) :
    m.handleIndent = .ok { (m.advanceWhile isIndent).dedentBy 0 with
      atLineStart := false
      lambdaLayouts :=
        m.lambdaLayouts.dropWhile fun y => indentWidth l.rest ≤ y.baseIndent || false } := by
  obtain ⟨hcopy, hpeek⟩ := h.blankLine_eq next
  have hcurrent : (m.advanceWhile isIndent).currentIndent = indentWidth l.rest := hlevel
  have hto : (m.advanceWhile isIndent).indentTo (indentWidth l.rest) =
    (m.advanceWhile isIndent).dedentBy 0 := by
    rw [indentTo, hcurrent, if_neg (Nat.lt_irrefl _), ← hcurrent, dedentTo_currentIndent]
  rw [hcopy, Lexer.startLine, hto, leavesLambda_of_cr hpeek, if_neg]
  · rfl
  · have hcurrent : ((m.advanceWhile isIndent).dedentBy 0).currentIndent = indentWidth l.rest := hcurrent
    simpa using hcurrent

theorem Aligned.blankLine (h : Aligned l m) (htwin : Twin l m) (hl : Nested l)
    (start : l.atLineStart = true) (next : (l.advanceWhile isIndent).peek = lf)
    (hkeeps : l.KeepsBlank) (result : l.handleIndent = .ok l') :
    ∃ m', Scans m S m' ∧ Twin l' m' ∧ Aligned l' m' := by
  have hl' : l' = { l.advanceWhile isIndent with atLineStart := false } := by
    rw [handleIndent_eq, if_pos (by rw [Lexer.blankLine, next]; simp)] at result
    exact (Except.ok.inj result).symm
  subst hl'
  have result' := h.blankLine_result next (htwin.currentIndent.trans hkeeps.1.symm)
  refine ⟨_, .indent (htwin.atLineStart.trans start) result', ?_, ⟨h.indent.2.rest, h.indent.2.line⟩⟩
  refine { (htwin.advanceBy (l.rest.takeWhile isIndent).length (m.rest.takeWhile isIndent).length) with
    atLineStart := rfl, tokens := ?_, layouts := hl.keepsBlank htwin.layouts start hkeeps }
  exact (congrArg _ (List.append_nil _)).trans htwin.tokens

end Alignment

/-! ## 4. Whole sources -/

/-- No string literal of the source contains a line break that is not escaped. -/
def NoBreakInStrings (S : Settings) (source : Bytes) : Prop :=
  ∀ l raw ps, Visits S source l → StringAt l raw ps → ∀ p ∈ ps, p.Unbroken

/-- The states in which the two line endings come to the same: a blank line is indented like the
block it is in and leaves the suite of a lambda open, and a line break escaped in a string is not CR
LF yet. -/
structure Lexer.Portable (l : Lexer) : Prop where
  blankLine : l.atLineStart = true → (l.advanceWhile isIndent).peek = lf → l.KeepsBlank
  strings : ∀ raw ps, StringAt l raw ps → .lineBreak true ∉ ps

/-- The same types, values and lines with either line ending. -/
def SameTokens (S : Settings) (source : Bytes) : Prop :=
  ∃ tokens tokens', tokenize S source = .ok tokens ∧ tokenize S (crlf source) = .ok tokens' ∧
    tokens'.map Token.key = tokens.map Token.key

structure Together (S : Settings) (source : Bytes) (l m : Lexer) : Prop where
  visits : Visits S source l
  visits' : Visits S (crlf source) m
  twin : Twin l m
  place : Aligned l m ∨ AtBreak l m

section Runs

variable {source : Bytes} {tokens : List Token}

theorem Step.of_scans (hne : l.rest ≠ []) (h : Scans l.start S l') : Step S l l' :=
  ⟨hne, scanToken_of_scans h⟩

theorem Aligned.start (h : Aligned l m) : Aligned l.start m.start := ⟨h.rest, h.line⟩

theorem Aligned.rest_ne_nil (h : Aligned l m) (hne : l.rest ≠ []) : m.rest ≠ [] := by
  rw [h.rest, Ne, crlf_eq_nil]
  exact hne

theorem AtBreak.step (h : AtBreak l m) (htwin : Twin l m) (step : Step S l l') :
    ∃ m', Step S m m' ∧ Twin l' m' ∧ Aligned l' m' := by
  have hstart : AtBreak l.start m.start := ⟨h.inside, h.rest⟩
  obtain ⟨m', scans, htwin', haligned⟩ := hstart.newline htwin.start step.scans
  obtain ⟨r, -, hm⟩ := h.rest
  exact ⟨m', .of_scans (by rw [hm]; exact List.cons_ne_nil _ _) scans, htwin', haligned⟩

theorem Aligned.step (h : Aligned l m) (htwin : Twin l m) (hl : Nested l) (hportable : l.Portable)
    (hstrings : ∀ raw ps, StringAt l raw ps → ∀ p ∈ ps, p.Unbroken) (step : Step S l l') :
    ∃ m', Relation.ReflTransGen (Step S) m m' ∧ Twin l' m' ∧ (Aligned l' m' ∨ AtBreak l' m') := by
  have hne := h.rest_ne_nil step.1
  have hstart := h.start
  have htwin' := htwin.start
  cases hline : l.atLineStart with
  | true =>
    have hindent : l.start.handleIndent = .ok l' := by
      have hscan := step.2
      rw [scanToken, if_pos (show l.start.atLineStart = true from hline)] at hscan
      exact hscan
    by_cases hblank : (l.advanceWhile isIndent).peek = lf
    · obtain ⟨m', scans, htwin', haligned⟩ := hstart.blankLine (S := S) htwin'
        ⟨hl.inner, hl.depth, hl.lineStart⟩ hline hblank
        (hportable.blankLine hline hblank) hindent
      exact ⟨m', .single (.of_scans hne scans), htwin', .inl haligned⟩
    · obtain ⟨m', scans, htwin', haligned⟩ := hstart.lineStart (S := S) htwin' hline hblank hindent
      exact ⟨m', .single (.of_scans hne scans), htwin', .inl haligned⟩
  | false =>
    by_cases hlf : l.peek = lf
    · obtain ⟨scans, htwin', hbreak⟩ := hstart.stutter (S := S) htwin' hline hlf
      have hbreak : AtBreak l m.start.first := ⟨hbreak.inside, hbreak.rest⟩
      obtain ⟨m', step', htwin', haligned⟩ := hbreak.step { htwin' with } step
      exact ⟨m', .tail (.single (.of_scans hne scans)) step', htwin', .inl haligned⟩
    · obtain ⟨m', scans, htwin', hplace⟩ := hstart.inline htwin' rfl rfl hline hlf step.scans
        fun raw ps hat p hp => by
          have hat : StringAt l raw ps := ⟨hat.inside, hat.literal⟩
          exact ⟨hstrings raw ps hat p hp, fun hbreak => hportable.strings raw ps hat (hbreak ▸ hp)⟩
      exact ⟨m', .single (.of_scans hne scans), htwin', hplace⟩

theorem Together.step (h : Together S source l m) (hstrings : NoBreakInStrings S source)
    (hportable : l.Portable) (step : Step S l l') :
    ∃ m', Together S source l' m' := by
  rcases h.place with haligned | hbreak
  · obtain ⟨m', hrun, htwin, hplace⟩ := haligned.step h.twin h.visits.nested hportable
      (fun raw ps => hstrings l raw ps h.visits) step
    exact ⟨m', h.visits.tail step, h.visits'.trans hrun, htwin, hplace⟩
  · obtain ⟨m', step', htwin, haligned⟩ := hbreak.step h.twin step
    exact ⟨m', h.visits.tail step, h.visits'.tail step', htwin, .inl haligned⟩

theorem together_start (S : Settings) (source : Bytes) :
    Together S source { rest := source } { rest := crlf source } where
  visits := .refl
  visits' := .refl
  twin := ⟨rfl, rfl, rfl, rfl, .nil, rfl, rfl, rfl, rfl, rfl, rfl, rfl, rfl⟩
  place := .inl ⟨rfl, rfl⟩

theorem Visits.together (hstrings : NoBreakInStrings S source)
    (hportable : ∀ l, Visits S source l → l.Portable) (h : Visits S source l) :
    ∃ m, Together S source l m := by
  induction h with
  | refl => exact ⟨_, together_start S source⟩
  | tail visits step ih =>
    obtain ⟨m, hm⟩ := ih
    exact hm.step hstrings (hportable _ visits) step

theorem sameTokens_of_portable (accepted : tokenize S source = .ok tokens)
    (hstrings : NoBreakInStrings S source) (hportable : ∀ l, Visits S source l → l.Portable) :
    SameTokens S source := by
  obtain ⟨l, visits, hend, hbrackets, rfl⟩ := tokenize_eq_ok_iff.1 accepted
  obtain ⟨m, hm⟩ := visits.together hstrings hportable
  have hend' : m.rest = [] := by
    rcases hm.place with haligned | ⟨-, r, hl, -⟩
    · rw [haligned.rest, hend]
      rfl
    · rw [hend] at hl
      cases hl
  have hbrackets' : m.openBrackets = [] :=
    List.length_eq_zero_iff.1 (hm.twin.depth.trans (List.length_eq_zero_iff.2 hbrackets))
  refine ⟨_, _, accepted, tokenize_eq_ok_iff.2 ⟨m, hm.visits', hend', hbrackets', rfl⟩, ?_⟩
  have hfinish := (hm.twin.dedentBy (l.indentStack.length - 1)).addToken .eof
  rw [hm.twin.indentStack]
  exact hfinish.tokens

/-! ### What the copy would show -/

theorem line_closeLambdaLayout (l : Lexer) : l.closeLambdaLayout.line = l.line := by
  obtain ⟨k, -, hclose⟩ := closeLambdaLayout_eq l
  rw [hclose]
  rfl

theorem Lexer.Scans.line_le (h : Scans l S l') : l.line ≤ l'.line := by
  cases h with
  | indent _ result => exact (tokens_handleIndent result).1.ge
  | newline => exact (tokens_newline l.first).choose_spec.2.2 ▸ Nat.le_succ _
  | continuation _ _ result =>
    obtain ⟨n, -, -, -, hline⟩ := consumes_continuation result
    exact hline ▸ Nat.le_succ _
  | blank | comment | openParenthesis | openBracket => exact Nat.le_refl _
  | closeParenthesis | closeBracket | comma => exact (line_closeLambdaLayout l.first).ge
  | colon => exact (tokens_colon l.first).2.ge
  | number _ _ result =>
    obtain ⟨n, type, value, -, -, rfl⟩ := scanNumber_eq_ok result
    exact Nat.le_refl _
  | question _ _ result =>
    obtain ⟨n, type, -, -, rfl⟩ := question_eq_ok result
    exact Nat.le_refl _
  | string _ opens result =>
    obtain ⟨ps, out, column, -, rfl⟩ := string_eq (opens_of_opensString opens) result
    exact Nat.le_add_right _ _
  | operator => exact Nat.le_refl _
  | word => exact (tokens_scanIdentifier l.first).2.ge

theorem tokens_endLine (l : Lexer) :
    l.newline.tokens =
      l.tokens ++ if l.openBrackets.isEmpty || l.openSuite.lambdaLayoutActive then
        [l.token .newline] else [] := by
  have hsuite : l.openSuite.tokens = l.tokens ∧ l.openSuite.openBrackets = l.openBrackets ∧
      l.openSuite.token .newline = l.token .newline := by
    unfold openSuite
    split <;> exact ⟨rfl, rfl, rfl⟩
  rw [newline_eq, endLine, hsuite.2.1]
  split
  · show l.openSuite.tokens ++ [l.openSuite.token .newline] = _
    rw [hsuite.1, hsuite.2.2]
  · rw [List.append_nil]
    exact hsuite.1

theorem indentTo_tokens (l : Lexer) (level : Nat) :
    ∃ new, (l.indentTo level).tokens = l.tokens ++ new ∧
      (∀ t ∈ new, t.type = .indent ∨ t.type = .dedent) ∧
      (new = [] → (l.indentTo level).currentIndent = l.currentIndent) := by
  unfold indentTo
  split
  · exact ⟨[l.token .indent], rfl, List.forall_mem_singleton.2 (.inl rfl), nofun⟩
  · obtain ⟨k, -, hdedent⟩ := dedentTo_eq l level
    rw [hdedent]
    refine ⟨List.replicate k (l.token .dedent), rfl,
      fun t ht => .inr (by rw [List.eq_of_mem_replicate ht]; rfl), fun hnil => ?_⟩
    rw [List.replicate_eq_nil_iff] at hnil
    rw [hnil]
    rfl

theorem handleIndent_types (h : l.handleIndent = .ok l') :
    ∃ new, l'.tokens = l.tokens ++ new ∧ ∀ t ∈ new, t.type = .indent ∨ t.type = .dedent := by
  rcases handleIndent_eq_ok h with ⟨-, rfl⟩ | ⟨-, h⟩
  · exact ⟨[], (List.append_nil _).symm, List.forall_mem_nil _⟩
  · obtain ⟨new, htokens, hnew, -⟩ := indentTo_tokens (l.advanceWhile isIndent) (indentWidth l.rest)
    rw [startLine_eq_ok h]
    exact ⟨new, htokens, hnew⟩

theorem Effect.newline_line {new : List Token} {t : Token} (h : Effect l l')
    (hnew : l'.tokens = l.tokens ++ new) (ht : t ∈ new) (htype : t.type = .newline) :
    t.line = l.line := by
  have hinline : ∀ {k : Nat}, Inline l l' k → False := fun inline => by
    obtain ⟨d, plain, hd, hplain, htokens⟩ := inline.tokens
    rw [List.append_cancel_left (hnew.symm.trans htokens), List.mem_append] at ht
    rcases ht with ht | ht
    · rw [List.eq_of_mem_replicate ht, hd] at htype
      cases htype
    · have hlayout := hplain t ht
      rw [htype] at hlayout
      cases hlayout
  cases h with
  | plain inline => exact (hinline inline).elim
  | closing k inline => exact (hinline inline).elim
  | lineBreak _ _ result =>
    rw [result, tokens_endLine] at hnew
    have hsame := List.append_cancel_left hnew
    split at hsame
    · rw [← hsame, List.mem_singleton] at ht
      rw [ht]
      rfl
    · rw [← hsame] at ht
      cases ht
  | lineStart _ result =>
    obtain ⟨new', htokens, hindent⟩ := handleIndent_types result
    rw [List.append_cancel_left (hnew.symm.trans htokens)] at ht
    rcases hindent t ht with h | h <;> rw [htype] at h <;> cases h

theorem newline_line_le (h : Relation.ReflTransGen (Step S) l l') :
    l.line ≤ l'.line ∧
      ∃ new, l'.tokens = l.tokens ++ new ∧ ∀ t ∈ new, t.type = .newline → l.line ≤ t.line := by
  induction h with
  | refl => exact ⟨Nat.le_refl _, [], (List.append_nil _).symm, List.forall_mem_nil _⟩
  | tail _ step ih =>
    obtain ⟨hline, new, htokens, hnew⟩ := ih
    obtain ⟨new', hnew'⟩ := step.tokens_extend
    refine ⟨Nat.le_trans hline step.scans.line_le, new ++ new',
      by rw [← hnew', htokens, List.append_assoc], ?_⟩
    intro t ht htype
    rcases List.mem_append.1 ht with ht | ht
    · exact hnew t ht htype
    · exact (step.scans.effect.newline_line hnew'.symm ht htype) ▸ hline

theorem Visits.tokens_later (accepted : tokenize S source = .ok tokens) (h : Visits S source l) :
    ∃ more, tokens = l.tokens ++ more ∧ ∀ t ∈ more, t.type = .newline → l.line ≤ t.line := by
  obtain ⟨last, hlast, hend, -, rfl⟩ := tokenize_eq_ok_iff.1 accepted
  have hrun : Relation.ReflTransGen (Step S) l last := by
    rcases Relation.ReflTransGen.total_of_right_unique (step_rightUnique S) h hlast with hrun | hrun
    · exact hrun
    · rcases Relation.ReflTransGen.cases_head hrun with rfl | ⟨l', hstep, -⟩
      · exact .refl
      · exact absurd hend hstep.1
  obtain ⟨-, new, htokens, hnew⟩ := newline_line_le hrun
  refine ⟨new ++ (List.replicate (last.indentStack.length - 1) (last.token .dedent) ++
    [last.token .eof]), ?_, ?_⟩
  · rw [htokens]
    simp only [List.append_assoc]
  · intro t ht htype
    rcases List.mem_append.1 ht with ht | ht
    · exact hnew t ht htype
    · rcases List.mem_append.1 ht with ht | ht
      · rw [List.eq_of_mem_replicate ht] at htype
        cases htype
      · rw [List.mem_singleton.1 ht] at htype
        cases htype

theorem mayStart_of_lineStart (h : Visits S source l) (start : l.atLineStart = true) :
    l.lambdaSuiteMayStart = false := by
  cases h with
  | refl => rfl
  | tail _ step =>
    cases step.scans.effect with
    | plain inline => exact Bool.noConfusion (inline.stays.symm.trans start)
    | closing k inline => exact Bool.noConfusion (inline.stays.symm.trans start)
    | lineStart start' result =>
      exact Bool.noConfusion ((step.scans.leavesLineStart start').symm.trans start)
    | lineBreak _ _ result =>
      rw [result, newline]
      dsimp only
      split <;> split
      case isTrue.isTrue | isTrue.isFalse => rfl
      case isFalse.isTrue h _ | isFalse.isFalse h _ => exact Bool.eq_false_iff.2 h

theorem rest_ne_nil_of_blank (next : (l.advanceWhile isIndent).peek = lf) : l.rest ≠ [] :=
  fun hnil => by
  rw [peek, peekAt, advanceWhile, advanceBy, hnil] at next
  cases next

theorem openSuite_eq_self (h : l.lambdaSuiteMayStart = false) : l.openSuite = l := by
  rw [openSuite, h]
  rfl

theorem Visits.blank_newline (h : Visits S source l) (start : l.atLineStart = true)
    (next : (l.advanceWhile isIndent).peek = lf) :
    ∃ l' t, Visits S source l' ∧ l'.tokens = l.tokens ++ [t] ∧ t.type = .newline ∧
      t.line = l.line := by
  have hblank : l.start.handleIndent = .ok { l.start.advanceWhile isIndent with atLineStart :=
    false } := by
    rw [handleIndent_eq, if_pos]
    rw [blankLine, show (l.start.advanceWhile isIndent).peek = lf from next]
    simp
  have hstep : Step S l { l.start.advanceWhile isIndent with atLineStart := false } :=
    .of_scans (rest_ne_nil_of_blank next) (.indent start hblank)
  generalize hl₁ : { l.start.advanceWhile isIndent with atLineStart := false } = l₁ at hstep
  have hnext : l₁.peek = lf := hl₁ ▸ next
  have hrest := rest_of_peek hnext (by decide)
  have hbreak : Step S l₁ l₁.start.first.newline :=
    .of_scans (by rw [hrest]; exact List.cons_ne_nil _ _) (.newline (hl₁ ▸ rfl) hnext)
  refine ⟨_, l₁.start.first.token .newline, (h.tail hstep).tail hbreak, ?_, rfl, hl₁ ▸ rfl⟩
  have hmay : l₁.start.first.lambdaSuiteMayStart = false := by
    have hmay := mayStart_of_lineStart h start
    rw [mayStart_first (l := l₁.start) hnext, ← hl₁]
    exact hmay
  have hcounts : (l₁.start.first.openBrackets.isEmpty || l₁.start.first.lambdaLayoutActive) = true := by
    rw [Bool.or_eq_true, List.isEmpty_iff, ← hl₁]
    exact h.nested.lineStart start
  rw [tokens_endLine, openSuite_eq_self hmay, hcounts, if_pos rfl, ← hl₁]
  rfl

variable {tokens' : List Token}

theorem Together.blank_newline (h : Together S source l m)
    (accepted : tokenize S source = .ok tokens) (accepted' : tokenize S (crlf source) = .ok tokens')
    (hsame : tokens'.map Token.key = tokens.map Token.key) (start : l.atLineStart = true)
    (next : (l.advanceWhile isIndent).peek = lf) :
    ∃ t more, tokens' = m.tokens ++ t :: more ∧ t.type = .newline ∧ t.line = l.line := by
  obtain ⟨l', t, visits, htokens, htype, hline⟩ := h.visits.blank_newline start next
  obtain ⟨more, rfl, -⟩ := visits.tokens_later accepted
  obtain ⟨more', rfl, -⟩ := h.visits'.tokens_later accepted'
  rw [htokens, List.map_append, List.map_append, List.map_append, h.twin.tokens,
    List.append_assoc] at hsame
  have hnext := List.append_cancel_left hsame
  cases more' with
  | nil => cases hnext
  | cons t' more' =>
    have hkey : t'.key = t.key := (List.cons.inj hnext).1
    exact ⟨t', more', rfl, (congrArg Prod.fst hkey).trans htype, (congrArg (·.2.2) hkey).trans hline⟩

/-- Every suite the lexer opens belongs to a bracket. -/
def SuitesInBrackets (S : Settings) (source : Bytes) : Prop :=
  ∀ l, Visits S source l → ∀ y ∈ l.lambdaLayouts, 0 < y.bracketDepth

theorem exists_silentBreak {r : Bytes} (hrest : m.rest = cr :: lf :: r)
    (inside : m.atLineStart = false) (hbrackets : m.openBrackets.isEmpty = false)
    (hactive : m.lambdaLayoutActive = false) (hmay : m.lambdaSuiteMayStart = false) :
    ∃ m', Relation.ReflTransGen (Step S) m m' ∧ m'.tokens = m.tokens ∧ m'.line = m.line + 1 := by
  have step : Step S m m.start.first :=
    .of_scans (by rw [hrest]; exact List.cons_ne_nil _ _)
      (.blank inside (.inr (.inl (peek_of_rest hrest))))
  have hrest' : m.start.first.start.rest = lf :: r := by
    show m.rest.drop 1 = _
    rw [hrest]
    rfl
  have hnext := peek_of_rest hrest'
  have step' : Step S m.start.first m.start.first.start.first.newline :=
    .of_scans (by show m.start.first.start.rest ≠ []; rw [hrest']; exact List.cons_ne_nil _ _)
      (.newline inside hnext)
  have hmay' : m.start.first.start.first.lambdaSuiteMayStart = false := by
    rw [mayStart_first hnext]
    show (m.lambdaSuiteMayStart && _) = false
    rw [hmay, Bool.false_and]
  refine ⟨_, .tail (.single step) step', ?_, (tokens_newline _).choose_spec.2.2⟩
  have hsilent : (m.start.first.start.first.openBrackets.isEmpty ||
    m.start.first.start.first.lambdaLayoutActive) = false :=
    Bool.or_eq_false_iff.2 ⟨hbrackets, hactive⟩
  rw [tokens_endLine, openSuite_eq_self hmay', hsilent]
  exact List.append_nil _

section Necessary

variable (h : Together S source l m) (haligned : Aligned l m)
  (accepted : tokenize S source = .ok tokens) (accepted' : tokenize S (crlf source) = .ok tokens')
  (hsame : tokens'.map Token.key = tokens.map Token.key) (start : l.atLineStart = true)
  (next : (l.advanceWhile isIndent).peek = lf)

include h haligned accepted' start next in
theorem Together.copy_step :
    ∃ m', Step S m m' ∧
      (m.start.advanceWhile isIndent).startLine (indentWidth l.rest) = .ok m' := by
  obtain ⟨m', step⟩ := h.visits'.exists_step accepted' (haligned.rest_ne_nil (rest_ne_nil_of_blank next))
  have hscan := step.2
  rw [scanToken, if_pos (show m.start.atLineStart = true from h.twin.atLineStart.trans start),
    (haligned.start.blankLine_eq (l := l.start) next).1] at hscan
  exact ⟨m', step, hscan⟩

include h haligned accepted accepted' hsame start next in
theorem Together.blank_level : indentWidth l.rest = l.currentIndent := by
  obtain ⟨t, more, htokens, htype, -⟩ := h.blank_newline accepted accepted' hsame start next
  obtain ⟨m', step, hscan⟩ := h.copy_step haligned accepted' start next
  obtain ⟨more', hmore', -⟩ := Visits.tokens_later accepted' (h.visits'.tail step)
  obtain ⟨new, hnew, htypes, hnone⟩ :=
    indentTo_tokens (m.start.advanceWhile isIndent) (indentWidth l.rest)
  have htokens' : m'.tokens = m.tokens ++ new := by
    rw [startLine_eq_ok hscan]
    exact hnew
  rw [htokens', htokens, List.append_assoc] at hmore'
  cases new with
  | cons t' new =>
    have ht : t = t' := (List.cons.inj (List.append_cancel_left hmore')).1
    rw [ht] at htype
    rcases htypes t' List.mem_cons_self with htype' | htype' <;> cases htype.symm.trans htype'
  | nil =>
    rw [startLine, leavesLambda_of_cr (haligned.start.blankLine_eq (l := l.start) next).2] at hscan
    split at hscan
    · exact absurd hscan error_ne_ok
    · rename_i hlevel
      have hlevel : ((m.start.advanceWhile isIndent).indentTo (indentWidth l.rest)).currentIndent =
        indentWidth l.rest := by
        simpa using hlevel
      exact (hlevel.symm.trans (hnone rfl)).trans h.twin.currentIndent

include h haligned accepted accepted' hsame start next in
theorem Together.blank_suite (hsuites : SuitesInBrackets S source)
    (hactive : l.lambdaLayoutActive = true) :
    { l with
      lambdaLayouts := l.lambdaLayouts.dropWhile fun y => indentWidth l.rest ≤ y.baseIndent
      }.lambdaLayoutActive = true := by
  by_contra hinactive
  obtain ⟨t, more, htokens, htype, hline⟩ := h.blank_newline accepted accepted' hsame start next
  have hlevel := h.blank_level haligned accepted accepted' hsame start next
  have start' : m.start.atLineStart = true := h.twin.atLineStart.trans start
  have result := haligned.start.blankLine_result (l := l.start) next
    (h.twin.currentIndent.trans hlevel.symm)
  have step : Step S m _ :=
    .of_scans (haligned.rest_ne_nil (rest_ne_nil_of_blank next)) (.indent start' result)
  -- the CR, then the line break
  obtain ⟨r, hr⟩ : ∃ r, (l.start.advanceWhile isIndent).rest = lf :: r :=
    ⟨_, rest_of_peek next (by decide)⟩
  have hrest : (m.start.advanceWhile isIndent).rest = cr :: lf :: crlf r := by
    rw [haligned.start.indent.2.rest, hr]
    rfl
  have hbrackets : m.openBrackets.isEmpty = false := by
    obtain ⟨y, ys, hl, hdepth⟩ := h.visits.nested.active hactive
    have hpos := hsuites l h.visits y (hl ▸ List.mem_cons_self)
    rw [h.twin.isEmpty, Bool.eq_false_iff, Ne, List.isEmpty_iff_length_eq_zero]
    omega
  have hinactive' : ({ m with
      lambdaLayouts :=
        m.lambdaLayouts.dropWhile fun y => indentWidth l.rest ≤ y.baseIndent || false
      } : Lexer).lambdaLayoutActive = false := by
    have htwin : Twin
        { l with lambdaLayouts :=
          l.lambdaLayouts.dropWhile fun y => indentWidth l.rest ≤ y.baseIndent || false }
        { m with lambdaLayouts :=
          m.lambdaLayouts.dropWhile fun y => indentWidth l.rest ≤ y.baseIndent || false } :=
      { h.twin with layouts := h.twin.layouts.startLine _ false }
    rw [htwin.active]
    simpa only [Bool.or_false, Bool.eq_false_iff] using hinactive
  have hmay : m.lambdaSuiteMayStart = false :=
    h.twin.suiteMayStart.trans (mayStart_of_lineStart h.visits start)
  generalize hm₁ : ({ (m.start.advanceWhile isIndent).dedentBy 0 with
    atLineStart := false
    lambdaLayouts :=
      m.start.lambdaLayouts.dropWhile fun y => indentWidth l.start.rest ≤ y.baseIndent || false
    } : Lexer) = m₁ at step
  obtain ⟨m', hrun, htokens', hline'⟩ : ∃ m', Relation.ReflTransGen (Step S) m₁ m' ∧
      m'.tokens = m₁.tokens ∧ m'.line = m₁.line + 1 := by
    subst hm₁
    exact exists_silentBreak hrest rfl hbrackets hinactive' hmay
  obtain ⟨more', hmore, hlater⟩ := Visits.tokens_later accepted' ((h.visits'.tail step).trans hrun)
  subst hm₁
  have hsame' : m'.tokens = m.tokens := htokens'.trans (List.append_nil _)
  have hline' : m'.line = m.line + 1 := hline'
  rw [htokens, hsame'] at hmore
  have hle := hlater t (List.append_cancel_left hmore ▸ List.mem_cons_self) htype
  rw [hline', hline, h.twin.line] at hle
  exact absurd hle (Nat.not_succ_le_self _)

end Necessary

variable {ps : List Piece}

theorem Together.strings {raw : Bool} (h : Together S source l m)
    (accepted' : tokenize S (crlf source) = .ok tokens') (hat : StringAt l raw ps)
    (hps : ∀ p ∈ ps, p.Unbroken) :
    .lineBreak true ∉ ps := by
  intro hmem
  obtain ⟨k, type, out, starts, hlit⟩ := hat.literal
  have opens := opens_of_opensString starts
  have hlf : l.peek ≠ lf := fun hlf => opens.noBreak (by
    rw [rest_of_peek hlf (by decide), List.take_succ_cons]
    exact List.mem_cons_self)
  have hne : l.rest ≠ [] := fun hnil => by
    have hquote := opens.quote
    rw [peekAt, hnil, List.getD_nil] at hquote
    exact absurd hquote (by decide)
  rcases h.place with haligned | ⟨-, r, hl, -⟩
  · obtain ⟨hstarts, hquote, hrest, -⟩ := haligned.start.opens (l := l.start) hlf starts
    obtain ⟨m', step⟩ := h.visits'.exists_step accepted' (haligned.rest_ne_nil hne)
    have hscan := step.2
    rw [scanToken_of_string (l := m.start) (h.twin.atLineStart.trans hat.inside) hstarts] at hscan
    refine scanString_of_doubled (isQuote_ne_cr opens.quote) (isQuote_ne opens.quote).2
      (isQuote_ne opens.quote).1 hlit hps hmem
      ?_ ?_ hscan
    · exact (opens_of_opensString hstarts).lexeme.trans hquote
    · refine Eq.trans ?_ hrest
      rw [Nat.add_comm]
      exact List.drop_drop
  · exact hlf (peek_of_rest hl)

theorem portable_of_sameTokens (hstrings : NoBreakInStrings S source)
    (hsuites : SuitesInBrackets S source) (hsame : SameTokens S source) (h : Visits S source l) :
    l.Portable ∧ ∃ m, Together S source l m := by
  obtain ⟨tokens, tokens', accepted, accepted', hkeys⟩ := hsame
  have portable : ∀ {l m : Lexer}, Together S source l m → l.Portable := by
    intro l m h
    refine ⟨fun start next => ?_,
      fun raw ps hat => h.strings accepted' hat (hstrings l raw ps h.visits hat)⟩
    rcases h.place with haligned | hbreak
    · exact ⟨h.blank_level haligned accepted accepted' hkeys start next,
        h.blank_suite haligned accepted accepted' hkeys start next hsuites⟩
    · exact Bool.noConfusion (hbreak.inside.symm.trans start)
  induction h with
  | refl => exact ⟨portable (together_start S source), _, together_start S source⟩
  | tail _ step ih =>
    obtain ⟨hportable, m, hm⟩ := ih
    obtain ⟨m', hm'⟩ := hm.step hstrings hportable step
    exact ⟨portable hm', m', hm'⟩

/-- The tokens are the same with either line ending when the states are portable, and only then. -/
theorem lineEndings_iff (accepted : tokenize S source = .ok tokens)
    (hstrings : NoBreakInStrings S source) :
    ((∀ l, Visits S source l → l.Portable) → SameTokens S source) ∧
    (SuitesInBrackets S source → (SameTokens S source ↔ ∀ l, Visits S source l → l.Portable)) := by
  refine ⟨sameTokens_of_portable accepted hstrings, fun hsuites => ⟨fun hsame l hl => ?_,
    sameTokens_of_portable accepted hstrings⟩⟩
  exact (portable_of_sameTokens hstrings hsuites hsame hl).1

theorem StringAt.text_subset {raw : Bool} (h : StringAt l raw ps) {p : Piece} (hp : p ∈ ps) :
    p.text ⊆ l.rest := by
  obtain ⟨k, type, out, -, hlit⟩ := h.literal
  exact fun c hc => List.mem_of_mem_drop (List.mem_of_mem_drop (Body.text_subset hlit hp hc))

/-- No line break stands behind a string, or in it. -/
theorem lf_not_mem_of_string
    (hstates : ∀ l ∈ states S source, (opensString l.peek l.peekNext).isSome = true → lf ∉ l.rest)
    (h : Visits S source l) {raw : Bool} (hat : StringAt l raw ps) {p : Piece} (hp : p ∈ ps) :
    lf ∉ p.text := by
  intro hlf
  obtain ⟨k, type, out, starts, -⟩ := hat.literal
  exact hstates l h.mem_states (by rw [starts]; rfl) (hat.text_subset hp hlf)

theorem noBreakInStrings
    (hstates : ∀ l ∈ states S source, (opensString l.peek l.peekNext).isSome = true → lf ∉ l.rest) :
    NoBreakInStrings S source := by
  intro l raw ps hl hat p hp
  have hlf := lf_not_mem_of_string hstates hl hat hp
  constructor <;>
  · rintro rfl
    exact hlf (by decide)

/-- A blank line inside a block: with CR LF it ends the block. -/
theorem blank_line_ends_block :
    (∃ tokens, tokenize default (bytes "if x:\n\ty\n\n\tz") = .ok tokens) ∧
      NoBreakInStrings default (bytes "if x:\n\ty\n\n\tz") ∧
        ¬ SameTokens default (bytes "if x:\n\ty\n\n\tz") := by
  refine ⟨⟨_, rfl⟩, noBreakInStrings (by decide), ?_⟩
  rintro ⟨tokens, tokens', h, h', hkeys⟩
  cases h
  cases h'
  exact absurd hkeys (by decide)

instance (l : Lexer) : Decidable l.KeepsBlank := inferInstanceAs (Decidable (_ ∧ _))

/-- A bracket over two lines in a block, a blank line indented like it, and a string. -/
def indentedBlank : Bytes := bytes "if a:\n\tb(\n0)\n\t\n\tc(\"s\")"

theorem lineEndings_block :
    (∃ tokens, tokenize default indentedBlank = .ok tokens) ∧
      NoBreakInStrings default indentedBlank ∧ SameTokens default indentedBlank := by
  have hlast : ∀ l ∈ states default indentedBlank,
      (opensString l.peek l.peekNext).isSome = true → lf ∉ l.rest := by decide
  have hblank : ∀ l ∈ states default indentedBlank, l.atLineStart = true →
      (l.advanceWhile isIndent).peek = lf → l.KeepsBlank := by decide
  refine ⟨⟨_, rfl⟩, noBreakInStrings hlast, (lineEndings_iff rfl (noBreakInStrings hlast)).1 fun l hl =>
    ⟨hblank l hl.mem_states, fun raw ps hat hmem => ?_⟩⟩
  exact lf_not_mem_of_string hlast hl hat hmem (by decide)

end Runs

end Lexing
