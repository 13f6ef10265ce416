import GdscriptCompiler.Lexing.Lines
import Mathlib.Data.List.Chain

/-!
# Layout — indentation levels, brackets and the suites of lambdas

The lexer takes the head of a lambda to be complete at the first colon behind `func` and a closed
parenthesis, which can be the colon of a dictionary when the lambda has lost its own.
-/

namespace Lexing

open Lexer Lib

variable {S : Settings} {l l' : Lexer}

/-! ## 1. A step seen from the layout -/

/-- What a step inside a line does to the layout: it pops `k` levels with their DEDENTs, then adds
plain tokens. -/
structure Inline (l l' : Lexer) (k : Nat) : Prop where
  inside : l.atLineStart = false
  stays : l'.atLineStart = false
  bottom : k ≤ l.indentStack.length - 1
  levels : l'.indentStack = l.indentStack.drop k
  tokens : ∃ d new, d.type = .dedent ∧ (∀ t ∈ new, t.type.isLayout = false) ∧
    l'.tokens = l.tokens ++ (List.replicate k d ++ new)

inductive Effect (l l' : Lexer) : Prop
  | plain (inline : Inline l l' 0) (next : closesSuite l.peek = false)
      (brackets : l.openBrackets.length ≤ l'.openBrackets.length)
      (layouts : l'.lambdaLayouts = l.lambdaLayouts)
  | closing (k : Nat) (inline : Inline l l' k) (next : closesSuite l.peek = true)
      (brackets : l.openBrackets.length ≤ l'.openBrackets.length + 1)
      (suite : 0 < k → ∃ y ys, l.lambdaLayouts = y :: ys ∧ y.bracketDepth = l.openBrackets.length)
      (layouts : l'.lambdaLayouts =
        l.lambdaLayouts.dropWhile fun y => y.bracketDepth = l.openBrackets.length)
  | lineBreak (inside : l.atLineStart = false) (next : l.peek = lf) (result : l' = l.first.newline)
  | lineStart (start : l.atLineStart = true) (result : l.handleIndent = .ok l')

section Effects

variable {c next : UInt8} {t : Token}

def closers : List UInt8 := [')', ']', '}', ',']

theorem mem_closers : c ∈ closers ↔ c = ')' ∨ c = ']' ∨ c = '}' ∨ c = ',' := by
  simp [closers]

theorem closesSuite_iff : closesSuite c = true ↔ c ∈ closers := by
  simp [closesSuite, mem_closers, or_assoc]

theorem closesSuite_of_class {p : UInt8 → Bool} (hp : ∀ b ∈ closers, p b = false) (h : p c = true) :
    closesSuite c = false :=
  Bool.eq_false_iff.2 fun hc => not_mem_of_class hp h (closesSuite_iff.1 hc)

theorem closesSuite_of_startsNumber (h : startsNumber c next = true) : closesSuite c = false :=
  closesSuite_of_class (p := fun c => startsNumber c next) (by
    intro b hb
    rcases mem_closers.1 hb with rfl | rfl | rfl | rfl <;> rfl) h

variable {type : TokenType}

theorem closesSuite_of_opensString {k : Nat} {raw : Bool}
    (h : opensString c next = some (k, type, raw)) :
    closesSuite c = false := by
  refine closesSuite_of_class (p := fun c => (opensString c next).isSome) ?_
    (Option.isSome_iff_exists.2 ⟨_, h⟩)
  intro b hb
  have hnone : opensString b next = none := by
    rcases mem_closers.1 hb with rfl | rfl | rfl | rfl <;> exact opensString_eq_none (by decide)
      fun _ => by decide
  rw [hnone]
  rfl

theorem closesSuite_of_operator {after : UInt8} {r : TokenType × Nat}
    (h : operator c next after = some r) :
    closesSuite c = false := by
  have hall : ∀ c ∈ operatorBytes, closesSuite c = false := by decide +kernel
  exact hall c (mem_operatorBytes h)

theorem TokenType.isLayout_of_isPlain (h : type.isPlain = true) : type.isLayout = false := by
  cases type <;> first | rfl | cases h

theorem TokenType.isLayout_of_isString (h : type.isString = true) : type.isLayout = false := by
  cases type <;> first | rfl | cases h

theorem wordType_not_layout (l : Lexer) : (l.identifierType S).isLayout = false :=
  identifierType_induction (P := fun type => type.isLayout = false) l (by decide) rfl rfl

theorem Inline.of_token (inside : l.atLineStart = false) (stays : l'.atLineStart = l.atLineStart)
    (levels : l'.indentStack = l.indentStack) (ht : t.type.isLayout = false)
    (tokens : l'.tokens = l.tokens ++ [t]) :
    Inline l l' 0 :=
  ⟨inside, stays.trans inside, Nat.zero_le _, levels, l.token .dedent, [t], rfl,
  List.forall_mem_singleton.2 ht, tokens⟩

theorem Inline.of_silent (inside : l.atLineStart = false) (stays : l'.atLineStart = l.atLineStart)
    (levels : l'.indentStack = l.indentStack) (tokens : l'.tokens = l.tokens) :
    Inline l l' 0 :=
  ⟨inside, stays.trans inside, Nat.zero_le _, levels, l.token .dedent, [], rfl, List.forall_mem_nil _,
    by rw [tokens]; simp⟩

theorem closeLambdaLayout_of_none
    (h : ∀ y ys, l.lambdaLayouts = y :: ys → y.bracketDepth ≠ l.openBrackets.length) :
    l.closeLambdaLayout = l := by
  rw [closeLambdaLayout]
  cases hl : l.lambdaLayouts with
  | nil =>
    cases l
    simp_all
  | cons y ys =>
    have hy := h y ys hl
    cases l
    simp_all

theorem Effect.of_closing (inside : l.atLineStart = false) (next : closesSuite l.peek = true)
    (ht : t.type.isLayout = false) (stays : l'.atLineStart = l.first.closeLambdaLayout.atLineStart)
    (levels : l'.indentStack = l.first.closeLambdaLayout.indentStack)
    (layouts : l'.lambdaLayouts = l.first.closeLambdaLayout.lambdaLayouts)
    (brackets : l.openBrackets.length ≤ l'.openBrackets.length + 1)
    (tokens : l'.tokens = l.first.closeLambdaLayout.tokens ++ [t]) :
    Effect l l' := by
  obtain ⟨k, hk, hclose⟩ := closeLambdaLayout_eq l.first
  have hlayouts := layouts.trans (congrArg lambdaLayouts hclose)
  by_cases hsuite : ∃ y ys, l.lambdaLayouts = y :: ys ∧ y.bracketDepth = l.openBrackets.length
  · refine .closing k ⟨inside, ?_, hk, ?_, l.first.token .dedent, [t], rfl,
      List.forall_mem_singleton.2 ht, ?_⟩ next
      brackets (fun _ => hsuite) hlayouts
    · rw [stays, hclose]
      exact inside
    · rw [levels, hclose]
      rfl
    · rw [tokens, hclose]
      exact List.append_assoc _ _ _
  · have hnone := closeLambdaLayout_of_none (l := l.first) fun y ys hl hy => hsuite ⟨y, ys, hl, hy⟩
    rw [hnone] at stays levels tokens
    exact .closing 0 (.of_token inside stays levels ht tokens) next brackets
      (fun hpos => absurd hpos (Nat.lt_irrefl 0))
      hlayouts

theorem length_popBracket (l : Lexer) (closer : UInt8) :
    l.openBrackets.length ≤ (l.popBracket closer).openBrackets.length + 1 := by
  unfold popBracket
  dsimp only
  split
  · rename_i h
    rw [h]
    exact Nat.zero_le _
  · rename_i b brackets h
    rw [h]
    split <;> simp

theorem openBrackets_closeLambdaLayout (l : Lexer) :
    l.closeLambdaLayout.openBrackets = l.openBrackets := by
  obtain ⟨k, -, hclose⟩ := closeLambdaLayout_eq l
  rw [hclose]
  rfl

theorem frame_colon (l : Lexer) :
    l.colon.atLineStart = l.atLineStart ∧ l.colon.indentStack = l.indentStack ∧
      l.colon.openBrackets = l.openBrackets ∧ l.colon.lambdaLayouts = l.lambdaLayouts := by
  rw [colon]
  split <;> exact ⟨rfl, rfl, rfl, rfl⟩

theorem frame_scanIdentifier (l : Lexer) :
    (l.scanIdentifier S).atLineStart = l.atLineStart ∧
      (l.scanIdentifier S).indentStack = l.indentStack ∧
        (l.scanIdentifier S).openBrackets = l.openBrackets ∧
      (l.scanIdentifier S).lambdaLayouts = l.lambdaLayouts := by
  rw [scanIdentifier]
  split <;> split <;> exact ⟨rfl, rfl, rfl, rfl⟩

theorem Lexer.Scans.effect (h : Scans l S l') : Effect l l' := by
  have other : ∀ {l' : Lexer}, closesSuite l.peek = false → Inline l l' 0 →
    l'.openBrackets = l.openBrackets →
      l'.lambdaLayouts = l.lambdaLayouts → Effect l l' := fun next inline brackets layouts =>
    .plain inline next (by rw [brackets]) layouts
  cases h with
  | indent start result => exact .lineStart start result
  | newline inside next => exact .lineBreak inside next rfl
  | blank inside next =>
    have hc : closesSuite l.peek = false := by
      rcases next with next | next | next <;> rw [next] <;> decide
    exact other hc (.of_silent inside rfl rfl rfl) rfl rfl
  | continuation inside next result =>
    rw [Lexer.continuation] at result
    split at result
    · exact absurd result error_ne_ok
    · cases result
      exact other (by rw [next]; decide) (.of_silent inside rfl rfl rfl) rfl rfl
  | comment inside next => exact other (by rw [next]; decide) (.of_silent inside rfl rfl rfl) rfl rfl
  | openParenthesis inside next =>
    have hinline : Inline l l.first.openParenthesis 0 :=
      .of_token (t := l.first.token .lparen) inside rfl rfl rfl rfl
    exact .plain hinline (by rw [next]; decide) (Nat.le_succ _) rfl
  | openBracket closer type inside next =>
    have hc : closesSuite l.peek = false := by
      rcases next with ⟨next, -⟩ | ⟨next, -⟩ <;> rw [next] <;> decide
    have ht : type.isLayout = false := by rcases next with ⟨-, -, rfl⟩ | ⟨-, -, rfl⟩ <;> rfl
    have hinline : Inline l (l.first.openBracket closer type) 0 :=
      .of_token (t := l.first.token type) inside rfl rfl ht rfl
    exact .plain hinline hc (Nat.le_succ _) rfl
  | closeParenthesis inside next =>
    refine .of_closing (t := l.first.closeLambdaLayout.token .rparen) inside (by rw [next]; decide)
      rfl rfl rfl rfl ?_ rfl
    exact openBrackets_closeLambdaLayout l.first ▸ length_popBracket l.first.closeLambdaLayout ')'
  | closeBracket closer type inside next kind =>
    have hc : closesSuite l.peek = true := by
      rcases kind with ⟨hc, -⟩ | ⟨hc, -⟩ <;> rw [next, hc] <;> decide
    have ht : type.isLayout = false := by rcases kind with ⟨-, rfl⟩ | ⟨-, rfl⟩ <;> rfl
    refine .of_closing (t := l.first.closeLambdaLayout.token type) inside hc ht rfl rfl rfl ?_ rfl
    exact openBrackets_closeLambdaLayout l.first ▸ length_popBracket l.first.closeLambdaLayout closer
  | colon inside next =>
    obtain ⟨hstart, hlevels, hbrackets, hlayouts⟩ := frame_colon l.first
    exact other (by rw [next]; decide)
      (.of_token inside hstart hlevels rfl (tokens_colon l.first).1) hbrackets hlayouts
  | comma inside next =>
    refine .of_closing (t := l.first.closeLambdaLayout.token .comma) inside (by rw [next]; decide)
      rfl rfl rfl rfl ?_ rfl
    exact Nat.le_succ_of_le (congrArg List.length (openBrackets_closeLambdaLayout l.first)).ge
  | number inside starts result =>
    obtain ⟨n, type, value, htype, -, rfl⟩ := scanNumber_eq_ok result
    have ht : type.isLayout = false := by rcases htype with rfl | rfl <;> rfl
    exact other (closesSuite_of_startsNumber starts) (.of_token inside rfl rfl ht rfl) rfl rfl
  | question inside next result =>
    obtain ⟨n, type, htype, -, rfl⟩ := question_eq_ok result
    have ht : type.isLayout = false := by rcases htype with rfl | rfl | rfl <;> rfl
    exact other (by rw [next]; decide) (.of_token inside rfl rfl ht rfl) rfl rfl
  | string inside opens result =>
    have hopens := opens_of_opensString opens
    obtain ⟨ps, out, column, -, rfl⟩ := string_eq hopens result
    exact other (closesSuite_of_opensString opens)
      (.of_token inside rfl rfl (TokenType.isLayout_of_isString hopens.type) rfl) rfl rfl
  | operator inside starts opens found =>
    have hplain := (operator_eq_some (l := l.first) (by rw [peek_first, peekNext_first, found])).1
    exact other (closesSuite_of_operator found)
      (.of_token inside rfl rfl (TokenType.isLayout_of_isPlain hplain) rfl) rfl
      rfl
  | word inside opens letter =>
    obtain ⟨hstart, hlevels, hbrackets, hlayouts⟩ := frame_scanIdentifier (S := S) l.first
    exact other (closesSuite_of_class (by decide +kernel) letter)
      (.of_token inside hstart hlevels (wordType_not_layout _) (tokens_scanIdentifier l.first).1)
      hbrackets hlayouts

end Effects

/-! ## 2. Levels -/

section Levels

variable {tokens pre new : List Token} {level k : Nat} {d t : Token}

def indents (tokens : List Token) : Nat := tokens.countP fun t => t.type = .indent

def dedents (tokens : List Token) : Nat := tokens.countP fun t => t.type = .dedent

theorem indents_append : indents (pre ++ new) = indents pre + indents new := List.countP_append

theorem dedents_append : dedents (pre ++ new) = dedents pre + dedents new := List.countP_append

theorem indents_replicate (hd : d.type = .dedent) : indents (List.replicate k d) = 0 := by
  simp [indents, List.countP_replicate, hd]

theorem dedents_replicate (hd : d.type = .dedent) : dedents (List.replicate k d) = k := by
  simp [dedents, List.countP_replicate, hd]

/-- Tokens that neither open nor close a level. -/
def KeepLevel (new : List Token) : Prop := ∀ t ∈ new, t.type ≠ .indent ∧ t.type ≠ .dedent

theorem KeepLevel.indents (h : KeepLevel new) : indents new = 0 :=
  List.countP_eq_zero.2 fun t ht htype => (h t ht).1 (of_decide_eq_true htype)

theorem KeepLevel.dedents (h : KeepLevel new) : dedents new = 0 :=
  List.countP_eq_zero.2 fun t ht htype => (h t ht).2 (of_decide_eq_true htype)

theorem keepLevel_of_plain (h : ∀ t ∈ new, t.type.isLayout = false) : KeepLevel new :=
  fun t ht => by
  have hplain := h t ht
  constructor <;>
  · intro htype
    rw [htype] at hplain
    cases hplain

theorem keepLevel_of_newline (h : ∀ t ∈ new, t.type = .newline) : KeepLevel new := fun t ht => by
  rw [h t ht]
  exact ⟨nofun, nofun⟩

/-- No level is closed before it is opened. -/
def NeverBelow (tokens : List Token) : Prop := ∀ pre, pre <+: tokens → dedents pre ≤ indents pre

structure Balanced (l : Lexer) : Prop where
  neverBelow : NeverBelow l.tokens
  open_eq : indents l.tokens = dedents l.tokens + (l.indentStack.length - 1)
  sorted : l.indentStack.Pairwise (· > ·)
  nonempty : l.indentStack ≠ []

theorem NeverBelow.append (h : NeverBelow tokens)
    (hnew : dedents tokens + dedents new ≤ indents tokens) :
    NeverBelow (tokens ++ new) := by
  intro pre hpre
  rcases List.prefix_or_prefix_of_prefix hpre (List.prefix_append tokens new) with hpre | ⟨pre', rfl⟩
  · exact h pre hpre
  · have hle : dedents pre' ≤ dedents new :=
      ((List.prefix_append_right_inj tokens).1 hpre).sublist.countP_le
    rw [dedents_append, indents_append]
    omega

theorem Balanced.pop (h : Balanced l) (hk : k ≤ l.indentStack.length - 1)
    (hlevels : l'.indentStack = l.indentStack.drop k) (hd : d.type = .dedent) (hnew : KeepLevel new)
    (htokens : l'.tokens = l.tokens ++ (List.replicate k d ++ new)) :
    Balanced l' := by
  have hdedents : dedents (List.replicate k d ++ new) = k := by
    rw [dedents_append, dedents_replicate hd, hnew.dedents, Nat.add_zero]
  have hindents : indents (List.replicate k d ++ new) = 0 := by
    rw [indents_append, indents_replicate hd, hnew.indents]
  have hopen := h.open_eq
  have hpos := List.length_pos_iff.2 h.nonempty
  constructor
  · rw [htokens]
    exact h.neverBelow.append (by omega)
  · rw [htokens, hlevels, indents_append, dedents_append, hindents, hdedents, List.length_drop]
    omega
  · rw [hlevels]
    exact h.sorted.drop
  · rw [hlevels, Ne, List.drop_eq_nil_iff]
    omega

theorem Balanced.push (h : Balanced l) (hlevel : l.currentIndent < level)
    (hlevels : l'.indentStack = level :: l.indentStack) (ht : t.type = .indent)
    (htokens : l'.tokens = l.tokens ++ [t]) :
    Balanced l' := by
  have hopen := h.open_eq
  have hindents : indents [t] = 1 := by simp [indents, ht]
  have hdedents : dedents [t] = 0 := by simp [dedents, ht]
  constructor
  · rw [htokens]
    exact h.neverBelow.append (by omega)
  · have hpos := List.length_pos_iff.2 h.nonempty
    rw [htokens, hlevels, indents_append, dedents_append, hindents, hdedents, List.length_cons]
    omega
  · rw [hlevels]
    cases hstack : l.indentStack with
    | nil => exact absurd hstack h.nonempty
    | cons top below =>
      have hsorted := hstack ▸ h.sorted
      have htop : top < level := by simpa [currentIndent, hstack] using hlevel
      refine List.pairwise_cons.2 ⟨fun a ha => ?_, hsorted⟩
      rcases List.mem_cons.1 ha with rfl | ha
      · exact htop
      · exact Nat.lt_trans ((List.pairwise_cons.1 hsorted).1 a ha) htop
  · rw [hlevels]
    exact List.cons_ne_nil _ _

def Lexer.blankLine (l : Lexer) : Bool :=
  (l.advanceWhile isIndent).isAtEnd || (l.advanceWhile isIndent).peek = lf ||
  (l.advanceWhile isIndent).peek = '#'

theorem handleIndent_eq (l : Lexer) :
    l.handleIndent = if l.blankLine then .ok { l.advanceWhile isIndent with atLineStart := false }
      else (l.advanceWhile isIndent).startLine (indentWidth l.rest) := rfl

theorem handleIndent_eq_ok (h : l.handleIndent = .ok l') :
    l.blankLine = true ∧ l' = { l.advanceWhile isIndent with atLineStart := false } ∨
    l.blankLine = false ∧ (l.advanceWhile isIndent).startLine (indentWidth l.rest) = .ok l' := by
  rw [handleIndent_eq] at h
  split at h
  · exact .inl ⟨‹_›, (Except.ok.inj h).symm⟩
  · rename_i hblank
    exact .inr ⟨Bool.eq_false_iff.2 hblank, h⟩

theorem startLine_eq_ok (h : l.startLine level = .ok l') :
    l' = { l.indentTo level with
    atLineStart := false
    lambdaLayouts := l.lambdaLayouts.dropWhile fun y => level ≤ y.baseIndent || l.leavesLambda
      level } := by
  rw [startLine] at h
  split at h
  · exact absurd h error_ne_ok
  · exact (Except.ok.inj h).symm

theorem Balanced.indentTo (h : Balanced l) (level : Nat) : Balanced (l.indentTo level) := by
  unfold Lexer.indentTo
  split
  · rename_i hlt
    exact h.push (t := l.token .indent) hlt rfl rfl rfl
  · obtain ⟨k, hk, hdedent⟩ := dedentTo_eq l level
    rw [hdedent]
    have hnone : KeepLevel [] := List.forall_mem_nil _
    exact h.pop (d := l.token .dedent) hk rfl rfl hnone (by rw [List.append_nil]; rfl)

theorem Balanced.handleIndent (hl : Balanced l) (h : l.handleIndent = .ok l') : Balanced l' := by
  rcases handleIndent_eq_ok h with ⟨-, rfl⟩ | ⟨-, h⟩
  · exact ⟨hl.neverBelow, hl.open_eq, hl.sorted, hl.nonempty⟩
  · have hadvance : Balanced (l.advanceWhile isIndent) :=
      ⟨hl.neverBelow, hl.open_eq, hl.sorted, hl.nonempty⟩
    have hindent := hadvance.indentTo (indentWidth l.rest)
    rw [startLine_eq_ok h]
    exact ⟨hindent.neverBelow, hindent.open_eq, hindent.sorted, hindent.nonempty⟩

theorem indentStack_newline (l : Lexer) : l.newline.indentStack = l.indentStack := by
  rw [newline]
  dsimp only
  split <;> split <;> rfl

theorem Inline.balanced (h : Inline l l' k) (hl : Balanced l) : Balanced l' := by
  obtain ⟨d, new, hd, hnew, htokens⟩ := h.tokens
  exact hl.pop h.bottom h.levels hd (keepLevel_of_plain hnew) htokens

theorem Effect.balanced (h : Effect l l') (hl : Balanced l) : Balanced l' := by
  cases h with
  | plain inline => exact inline.balanced hl
  | closing k inline => exact inline.balanced hl
  | lineStart _ result => exact hl.handleIndent result
  | lineBreak _ _ result =>
    obtain ⟨new, htokens, hnew, -⟩ := tokens_newline l.first
    rw [result]
    exact hl.pop (k := 0) (d := l.token .dedent) (Nat.zero_le _) (indentStack_newline l.first) rfl
      (keepLevel_of_newline hnew) htokens

theorem Visits.balanced {source : Bytes} (h : Visits S source l) : Balanced l := by
  induction h with
  | refl => exact ⟨fun pre hpre => (List.prefix_nil.1 hpre) ▸ Nat.le_refl _, rfl,
              List.pairwise_singleton _ _,
      List.cons_ne_nil _ _⟩
  | tail _ hstep ih =>
    have hstart : Balanced (start _) := ⟨ih.neverBelow, ih.open_eq, ih.sorted, ih.nonempty⟩
    exact hstep.scans.effect.balanced hstart

end Levels

/-! ## 3. Brackets and suites -/

section Nesting

/-- The open suites, innermost first: each belongs to an open bracket. -/
structure Nested (l : Lexer) : Prop where
  inner : l.lambdaLayouts.Pairwise fun y z => z.bracketDepth ≤ y.bracketDepth
  depth : ∀ y ∈ l.lambdaLayouts, y.bracketDepth ≤ l.openBrackets.length
  lineStart : l.atLineStart = true → l.openBrackets = [] ∨ l.lambdaLayoutActive = true

theorem lambdaLayoutActive_iff :
    l.lambdaLayoutActive = true ↔
      ∃ y ys, l.lambdaLayouts = y :: ys ∧ l.openBrackets.length ≤ y.bracketDepth := by
  rw [lambdaLayoutActive]
  split
  · simp [*]
  · simp [*]

theorem forall_mem_dropWhile {α : Type} {R : α → α → Prop} {p : α → Bool} :
    ∀ {ys : List α}, ys.Pairwise R →
      (∀ y ∈ ys, ∀ z, R y z → p y = false → p z = false) → ∀ y ∈ ys.dropWhile p, p y = false
  | [], _, _ => List.forall_mem_nil _
  | y :: ys, hpair, hmono => by
      rw [List.pairwise_cons] at hpair
      cases hy : p y with
      | true =>
        rw [List.dropWhile_cons_of_pos hy]
        exact forall_mem_dropWhile hpair.2 fun z hz => hmono z (List.mem_cons_of_mem _ hz)
      | false =>
        rw [List.dropWhile_cons_of_neg (by rw [hy]; decide)]
        intro z hz
        rcases List.mem_cons.1 hz with rfl | hz
        · exact hy
        · exact hmono y List.mem_cons_self z (hpair.1 z hz) hy

theorem lambdaLayouts_newline (l : Lexer) :
    l.newline.lambdaLayouts =
      if l.lambdaSuiteMayStart then
        ⟨l.lambdaBaseIndent, l.openBrackets.length⟩ :: l.lambdaLayouts else l.lambdaLayouts := by
  rw [newline]
  dsimp only
  split <;> split <;> rfl

theorem openBrackets_newline (l : Lexer) : l.newline.openBrackets = l.openBrackets := by
  rw [newline]
  dsimp only
  split <;> split <;> rfl

theorem newline_counts (l : Lexer) :
    (l.openBrackets = [] ∨ l.newline.lambdaLayoutActive = true) ∨
      l.newline.atLineStart = l.atLineStart ∧ l.newline.tokens = l.tokens := by
  rw [newline]
  dsimp only
  split <;> split
  case isTrue.isTrue h | isFalse.isTrue h =>
    rw [Bool.or_eq_true, List.isEmpty_iff] at h
    exact .inl h
  case isTrue.isFalse | isFalse.isFalse => exact .inr ⟨rfl, rfl⟩

theorem mayStart_first (next : l.peek = lf) :
    l.first.lambdaSuiteMayStart = l.lambdaSuiteMayStart := by
  rw [first, endSuiteHead, next]
  exact Bool.and_true _

theorem openBrackets_indentTo (l : Lexer) (level : Nat) :
    (l.indentTo level).openBrackets = l.openBrackets := by
  unfold indentTo
  split <;> rfl

theorem Nested.lineBreak (h : Nested l) (inside : l.atLineStart = false) :
    Nested l.first.newline := by
  have hlayouts := lambdaLayouts_newline l.first
  have hbrackets : l.first.newline.openBrackets = l.openBrackets := openBrackets_newline l.first
  constructor
  · rw [hlayouts]
    split
    · exact List.pairwise_cons.2 ⟨h.depth, h.inner⟩
    · exact h.inner
  · rw [hlayouts, hbrackets]
    split
    · exact List.forall_mem_cons.2 ⟨Nat.le_refl _, h.depth⟩
    · exact h.depth
  · intro hstart
    rw [hbrackets]
    rcases newline_counts l.first with hcounts | ⟨hsame, -⟩
    · exact hcounts
    · exact Bool.noConfusion (inside.symm.trans (hsame.symm.trans hstart))

theorem Nested.outer (h : Nested l) {y : LambdaLayout}
    (hy : y ∈ l.lambdaLayouts.dropWhile fun y => y.bracketDepth = l.openBrackets.length) :
    y ∈ l.lambdaLayouts ∧ y.bracketDepth < l.openBrackets.length := by
  have hmem := (List.dropWhile_sublist _).subset hy
  have hkept := forall_mem_dropWhile h.inner (fun y hy z hz hne => by
    have hle := h.depth y hy
    simp only [decide_eq_false_iff_not] at hne ⊢
    omega) y hy
  exact ⟨hmem, Nat.lt_of_le_of_ne (h.depth y hmem) (of_decide_eq_false hkept)⟩

theorem Nested.handleIndent (h : Nested l) (result : l.handleIndent = .ok l') : Nested l' := by
  rcases handleIndent_eq_ok result with ⟨-, rfl⟩ | ⟨-, result⟩
  · exact ⟨h.inner, h.depth, nofun⟩
  · rw [startLine_eq_ok result]
    refine ⟨h.inner.sublist (List.dropWhile_sublist _), fun y hy => ?_, nofun⟩
    exact (openBrackets_indentTo _ _).symm ▸ h.depth y ((List.dropWhile_sublist _).subset hy)

theorem Effect.nested (h : Effect l l') (hl : Nested l) : Nested l' := by
  cases h with
  | plain inline next brackets layouts =>
    refine ⟨layouts ▸ hl.inner, ?_, fun start => Bool.noConfusion (inline.stays.symm.trans start)⟩
    rw [layouts]
    exact fun y hy => Nat.le_trans (hl.depth y hy) brackets
  | closing k inline next brackets suite layouts =>
    refine ⟨?_, ?_, fun start => Bool.noConfusion (inline.stays.symm.trans start)⟩ <;> rw [layouts]
    · exact hl.inner.sublist (List.dropWhile_sublist _)
    · exact fun y hy => Nat.le_of_lt_succ (Nat.lt_of_lt_of_le (hl.outer hy).2 brackets)
  | lineBreak inside _ result => exact result ▸ hl.lineBreak inside
  | lineStart _ result => exact hl.handleIndent result

theorem Visits.nested {source : Bytes} (h : Visits S source l) : Nested l := by
  induction h with
  | refl => exact ⟨.nil, List.forall_mem_nil _, fun _ => .inl rfl⟩
  | tail _ hstep ih => exact hstep.scans.effect.nested ⟨ih.inner, ih.depth, ih.lineStart⟩

theorem Nested.active_of_lineStart (h : Nested l) (start : l.atLineStart = true)
    (hne : l.lambdaLayouts ≠ []) :
    l.lambdaLayoutActive = true := by
  rcases h.lineStart start with hnone | hactive
  · obtain ⟨y, ys, hl⟩ := List.exists_cons_of_ne_nil hne
    exact lambdaLayoutActive_iff.2 ⟨y, ys, hl, by rw [hnone]; exact Nat.zero_le _⟩
  · exact hactive

/-- An active suite belongs to the innermost open bracket. -/
theorem Nested.active (h : Nested l) (hactive : l.lambdaLayoutActive = true) :
    ∃ y ys, l.lambdaLayouts = y :: ys ∧ y.bracketDepth = l.openBrackets.length := by
  obtain ⟨y, ys, hl, hle⟩ := lambdaLayoutActive_iff.1 hactive
  exact ⟨y, ys, hl, Nat.le_antisymm (h.depth y (hl ▸ List.mem_cons_self)) hle⟩

end Nesting

/-! ## 4. Suites of lambdas -/

inductive Matched : List Token → Prop
  | nil : Matched []
  | plain {t : Token} {ts : List Token}
      (ht : t.type ∉ [.lparen, .rparen, .lbracket, .rbracket, .lbrace, .rbrace])
      (rest : Matched ts) : Matched (t :: ts)
  | group {o c : Token} {ts us : List Token}
      (kind : (o.type, c.type) ∈ [(.lparen, .rparen), (.lbracket, .rbracket), (.lbrace, .rbrace)])
      (inner : Matched ts) (rest : Matched us) : Matched (o :: ts ++ c :: us)

/-- `func`, perhaps a name, the parameters, perhaps `->` and a type, and the colon. -/
structure IsLambdaHead (f : Token) (name : List Token) (o : Token) (parameters : List Token)
    (c : Token) (result : List Token) (colon : Token) : Prop where
  func : f.type = .funcKw
  name : name.map Token.type = [] ∨ name.map Token.type = [.identifier]
  opens : o.type = .lparen
  parameters : Matched parameters
  closes : c.type = .rparen
  result : result = [] ∨ ∃ minus greater ts, result = minus :: greater :: ts ∧ minus.type = .minus ∧
    greater.type = .greater ∧ Matched ts ∧ ∀ t ∈ ts, t.type ≠ .colon
  colon : colon.type = .colon

def EndsInHead (tokens : List Token) : Prop :=
  ∃ before f name o parameters c result colon, IsLambdaHead f name o parameters c result colon ∧
    tokens = before ++ f :: (name ++ o :: (parameters ++ c :: (result ++ [colon])))

/-- The lexer is where a suite with this base indentation and bracket depth comes to its end: at a
line that is not indented deeper than the line of its `func`, at a closer or a comma left of the
current level, or at one that belongs to the bracket around the lambda. -/
def Lexer.EndsSuite (l : Lexer) (base depth : Nat) : Prop :=
  (l.atLineStart = true ∧ l.blankLine = false ∧ (indentWidth l.rest ≤ base ∨
    indentWidth l.rest < l.currentIndent ∧ closesSuite (l.advanceWhile isIndent).peek = true)) ∨
  (l.atLineStart = false ∧ closesSuite l.peek = true ∧ l.openBrackets.length = depth)

/-- Inside the suite of a lambda: from the line break behind its head to where the suite ends. -/
inductive InSuite (S : Settings) (source : Bytes) (base depth : Nat) : Lexer → Prop
  | opens {l l' : Lexer} (visits : Visits S source l) (inside : l.atLineStart = false)
    (next : l.peek = lf)
      (head : EndsInHead l.tokens) (base_eq : l.lambdaBaseIndent = base)
      (depth_eq : l.openBrackets.length = depth)
      (step : Step S l l') : InSuite S source base depth l'
  | stays {l l' : Lexer} (suite : InSuite S source base depth l) (goesOn : ¬ l.EndsSuite base depth)
      (step : Step S l l') : InSuite S source base depth l'

/-- While a bracket is open, layout tokens come only from the suite of a lambda the bracket is
around. -/
def LayoutInSuites (S : Settings) (source : Bytes) : Prop :=
  ∀ l l' new, Visits S source l → Step S l l' → l.openBrackets ≠ [] → l'.tokens = l.tokens ++ new →
    (∃ t ∈ new, t.type.isLayout = true) →
    ∃ base, InSuite S source base l.openBrackets.length l ∨
      InSuite S source base l.openBrackets.length l'

def Lexer.opensSuite (l : Lexer) : Bool := !l.atLineStart && l.peek = lf && l.lambdaSuiteMayStart

/-- Where the lexer opens a suite there is a complete head, on a line not left of the lines of the
lambdas whose suites are open. -/
def SuitesBehindHeads (S : Settings) (source : Bytes) : Prop :=
  ∀ l, Visits S source l → l.opensSuite = true →
    EndsInHead l.tokens ∧ ∀ y ∈ l.lambdaLayouts, y.baseIndent ≤ l.lambdaBaseIndent

section Suites

variable {source : Bytes} {base depth : Nat}

/-- Each open suite stands behind its head. -/
structure Suites (S : Settings) (source : Bytes) (l : Lexer) : Prop where
  behindHead : ∀ y ∈ l.lambdaLayouts, InSuite S source y.baseIndent y.bracketDepth l
  bases : l.lambdaLayouts.Pairwise fun y z => z.baseIndent ≤ y.baseIndent

theorem Suites.active (h : Suites S source l) (hl : Nested l)
    (hactive : l.lambdaLayoutActive = true) :
    ∃ base, InSuite S source base l.openBrackets.length l := by
  obtain ⟨y, ys, hlayouts, hdepth⟩ := hl.active hactive
  exact ⟨y.baseIndent, hdepth ▸ h.behindHead y (hlayouts ▸ List.mem_cons_self)⟩

theorem InSuite.goOn (h : InSuite S source base depth l) (inside : l.atLineStart = false)
    (next : closesSuite l.peek = true → l.openBrackets.length ≠ depth) (step : Step S l l') :
    InSuite S source base depth l' := by
  refine .stays h ?_ step
  rintro (⟨start, -⟩ | ⟨-, hcloses, hdepth⟩)
  · exact Bool.noConfusion (inside.symm.trans start)
  · exact next hcloses hdepth

theorem Suites.lineBreak (heads : SuitesBehindHeads S source) (visits : Visits S source l)
    (h : Suites S source l) (inside : l.atLineStart = false) (next : l.peek = lf)
    (step : Step S l l') (result : l' = l.start.first.newline) :
    Suites S source l' := by
  have hclosers : closesSuite l.peek = true → False := by
    rw [next]
    decide
  have hold : ∀ y ∈ l.lambdaLayouts, InSuite S source y.baseIndent y.bracketDepth l' := fun y hy =>
    (h.behindHead y hy).goOn inside (fun hc => (hclosers hc).elim) step
  have hlayouts : l'.lambdaLayouts = if l.lambdaSuiteMayStart then
      ⟨l.lambdaBaseIndent, l.openBrackets.length⟩ :: l.lambdaLayouts else l.lambdaLayouts := by
    rw [result, lambdaLayouts_newline, mayStart_first (l := l.start) next]
    rfl
  cases hmay : l.lambdaSuiteMayStart with
  | false =>
    rw [hmay, if_neg (by decide)] at hlayouts
    exact ⟨hlayouts ▸ hold, hlayouts ▸ h.bases⟩
  | true =>
    obtain ⟨hhead, hbase⟩ := heads l visits (by simp [opensSuite, inside, next, hmay])
    rw [hmay, if_pos rfl] at hlayouts
    refine ⟨?_, ?_⟩ <;> rw [hlayouts]
    · exact List.forall_mem_cons.2 ⟨.opens visits inside next hhead rfl rfl step, hold⟩
    · exact List.pairwise_cons.2 ⟨hbase, h.bases⟩

theorem Suites.startLine (h : Suites S source l) (hl : Nested l) (start : l.atLineStart = true)
    (step : Step S l l')
    (result : (l.start.advanceWhile isIndent).startLine (indentWidth l.rest) = .ok l') :
    Suites S source l' := by
  rw [startLine_eq_ok result] at step ⊢
  refine ⟨fun y hy => ?_, h.bases.sublist (List.dropWhile_sublist _)⟩
  have hmem : y ∈ l.lambdaLayouts := (List.dropWhile_sublist _).subset hy
  have hkept := forall_mem_dropWhile h.bases (fun y _ z hz hy => by
    simp only [Bool.or_eq_false_iff, decide_eq_false_iff_not, Nat.not_le] at hy ⊢
    exact ⟨Nat.lt_of_le_of_lt hz hy.1, hy.2⟩) y hy
  simp only [Bool.or_eq_false_iff, decide_eq_false_iff_not] at hkept
  have hactive : (l.start.advanceWhile isIndent).lambdaLayoutActive = true :=
    hl.active_of_lineStart start (List.ne_nil_of_mem hmem)
  refine .stays (h.behindHead y hmem) ?_ step
  rintro (⟨-, -, hbase | ⟨hlevel, hcloses⟩⟩ | ⟨inside, -⟩)
  · exact hkept.1 hbase
  · have hleaves := hkept.2
    rw [leavesLambda, hactive, Bool.true_and, Bool.and_eq_false_iff, decide_eq_false_iff_not] at hleaves
    rcases hleaves with hleaves | hleaves
    · exact hleaves hlevel
    · exact Bool.false_ne_true (hleaves.symm.trans hcloses)
  · exact Bool.false_ne_true (inside.symm.trans start)

section

variable (heads : SuitesBehindHeads S source)
include heads

theorem Suites.step (visits : Visits S source l) (h : Suites S source l) (step : Step S l l') :
    Suites S source l' := by
  cases step.scans.effect with
  | plain inline next brackets layouts =>
    have hlayouts : l'.lambdaLayouts = l.lambdaLayouts := layouts
    refine ⟨?_, hlayouts ▸ h.bases⟩
    rw [hlayouts]
    exact fun y hy => (h.behindHead y hy).goOn inline.inside
      (fun hc => Bool.noConfusion (next.symm.trans hc)) step
  | closing k inline next brackets suite layouts =>
    have hlayouts : l'.lambdaLayouts =
        l.lambdaLayouts.dropWhile fun y => y.bracketDepth = l.openBrackets.length := layouts
    refine ⟨?_, ?_⟩ <;> rw [hlayouts]
    · intro y hy
      obtain ⟨hmem, hlt⟩ := visits.nested.outer hy
      exact (h.behindHead y hmem).goOn inline.inside (fun _ => Nat.ne_of_gt hlt) step
    · exact h.bases.sublist (List.dropWhile_sublist _)
  | lineBreak inside next result => exact h.lineBreak heads visits inside next step result
  | lineStart start result =>
    rcases handleIndent_eq_ok result with ⟨hblank, hl'⟩ | ⟨-, result⟩
    · subst hl'
      refine ⟨fun y hy => .stays (h.behindHead y hy) ?_ step, h.bases⟩
      rintro (⟨-, hline, -⟩ | ⟨inside, -⟩)
      · exact Bool.noConfusion (hline.symm.trans hblank)
      · exact Bool.noConfusion (inside.symm.trans start)
    · exact h.startLine visits.nested start step result

theorem Visits.suites (h : Visits S source l) : Suites S source l := by
  induction h with
  | refl => exact ⟨List.forall_mem_nil _, .nil⟩
  | tail visits step ih => exact ih.step heads visits step

/-- Suites behind complete heads are the only places where brackets let layout through. -/
theorem layoutInSuites : LayoutInSuites S source := by
  intro l l' new visits step hne hnew ⟨t, ht, hlayout⟩
  have hsuites := visits.suites heads
  have hplain : ∀ {ts : List Token}, (∀ t ∈ ts, t.type.isLayout = false) → t ∉ ts := fun hts hmem =>
    Bool.noConfusion ((hts t hmem).symm.trans hlayout)
  cases step.scans.effect with
  | plain inline next brackets layouts =>
    obtain ⟨d, plain, -, hts, htokens⟩ := inline.tokens
    have hsame : new = plain := List.append_cancel_left (hnew.symm.trans htokens)
    exact absurd (hsame ▸ ht) (hplain hts)
  | closing k inline next brackets suite layouts =>
    obtain ⟨d, plain, -, hts, htokens⟩ := inline.tokens
    have hsame : new = List.replicate k d ++ plain := List.append_cancel_left (hnew.symm.trans htokens)
    have hk : 0 < k := by
      rcases Nat.eq_zero_or_pos k with rfl | hk
      · have hsame : new = plain := hsame
        exact absurd (hsame ▸ ht) (hplain hts)
      · exact hk
    obtain ⟨y, ys, hl, hdepth⟩ := suite hk
    obtain ⟨base, hsuite⟩ :=
      hsuites.active visits.nested (lambdaLayoutActive_iff.2 ⟨y, ys, hl, hdepth.ge⟩)
    exact ⟨base, .inl hsuite⟩
  | lineBreak inside next result =>
    rcases newline_counts l.start.first with (hnone | hactive) | ⟨-, hsame⟩
    · exact absurd hnone hne
    · rw [← result] at hactive
      obtain ⟨base, hsuite⟩ :=
        (hsuites.step heads visits step).active (Visits.nested (visits.tail step)) hactive
      have hbrackets : l'.openBrackets = l.openBrackets := by
        rw [result, openBrackets_newline]
        rfl
      exact ⟨base, .inr (hbrackets ▸ hsuite)⟩
    · rw [← result, hnew] at hsame
      have hnil : new = [] := List.append_right_eq_self.1 hsame
      exact absurd (hnil ▸ ht) List.not_mem_nil
  | lineStart start result =>
    rcases visits.nested.lineStart start with hnone | hactive
    · exact absurd hnone hne
    · obtain ⟨base, hsuite⟩ := hsuites.active visits.nested hactive
      exact ⟨base, .inl hsuite⟩

end

/-- Layout is balanced, and where suites open behind complete heads it stays out of brackets. -/
theorem layout_balanced {tokens : List Token} (accepted : tokenize S source = .ok tokens) :
    NeverBelow tokens ∧ dedents tokens = indents tokens ∧
      (∀ l, Visits S source l → l.indentStack.Pairwise (· > ·)) ∧
    (SuitesBehindHeads S source → LayoutInSuites S source) := by
  obtain ⟨l, visits, -, -, rfl⟩ := tokenize_eq_ok_iff.1 accepted
  have heof : KeepLevel [l.token .eof] := List.forall_mem_singleton.2 ⟨nofun, nofun⟩
  have hfinish : Balanced ((l.dedentBy (l.indentStack.length - 1)).addToken .eof) :=
    visits.balanced.pop (d := l.token .dedent) (Nat.le_refl _) rfl rfl heof (List.append_assoc _ _ _)
  refine ⟨hfinish.neverBelow, ?_, fun l hl => hl.balanced.sorted, layoutInSuites⟩
  have hopen := hfinish.open_eq
  have hone : (l.indentStack.drop (l.indentStack.length - 1)).length - 1 = 0 := by
    rw [List.length_drop]
    omega
  exact (hopen.trans (congrArg _ hone)).symm

theorem visits_of_scanAll :
    ∀ {fuel : Nat} {m : Lexer}, scanAll S fuel m = .ok l → Relation.ReflTransGen (Step S) m l
  | 0, m, h => by
      cases h
      exact .refl
  | fuel + 1, m, h => by
      rw [scanAll] at h
      split at h
      · cases h
        exact .refl
      · rename_i hend
        obtain ⟨m', hscan, h⟩ := bind_eq_ok.1 h
        exact .head ⟨fun hnil => hend (isAtEnd_iff.2 hnil), hscan⟩ (visits_of_scanAll h)

theorem Step.tokens_extend (h : Step S l l') : l.tokens <+: l'.tokens := by
  obtain ⟨n, missed, new, hcounts, -⟩ := h.countsLines
  exact ⟨new, hcounts.tokens.symm⟩

theorem InSuite.exists_head (h : InSuite S source base depth l) :
    ∃ tokens, tokens <+: l.tokens ∧ EndsInHead tokens := by
  induction h with
  | opens _ _ _ head _ _ step => exact ⟨_, step.tokens_extend, head⟩
  | stays _ _ step ih =>
    obtain ⟨tokens, htokens, hhead⟩ := ih
    exact ⟨tokens, htokens.trans step.tokens_extend, hhead⟩

theorem EndsInHead.behind_parameters {tokens : List Token} (h : EndsInHead tokens) :
    ∃ before c t after, tokens = before ++ c :: t :: after ∧ c.type = .rparen ∧
      (t.type = .colon ∨ t.type = .minus) := by
  obtain ⟨before, f, name, o, parameters, c, result, colon, hhead, rfl⟩ := h
  rcases hhead.result with rfl | ⟨minus, greater, ts, rfl, hminus, -⟩
  · exact ⟨before ++ f :: (name ++ o :: parameters), c, colon, [], by simp, hhead.closes,
      .inl hhead.colon⟩
  · exact ⟨before ++ f :: (name ++ o :: parameters), c, minus, greater :: (ts ++ [colon]), by simp,
      hhead.closes, .inr hminus⟩

def notAtHead (c t : Token) : Prop := c.type = .rparen → t.type ≠ .colon ∧ t.type ≠ .minus

instance : DecidableRel notAtHead := fun _ _ => inferInstanceAs (Decidable (_ → _))

theorem not_inSuite (h : l.tokens.IsChain notAtHead) : ¬ InSuite S source base depth l := by
  intro hsuite
  obtain ⟨tokens, ⟨rest, hrest⟩, hhead⟩ := hsuite.exists_head
  obtain ⟨before, c, t, after, rfl, hc, ht⟩ := hhead.behind_parameters
  rw [← hrest, List.append_assoc, List.cons_append, List.cons_append, List.isChain_append_cons_cons] at h
  rcases ht with ht | ht
  · exact (h.2.1 hc).1 ht
  · exact (h.2.1 hc).2 ht

/-- A lambda without its colon and a dictionary behind it: the line break in the dictionary is a
NEWLINE. -/
theorem layout_outside_suite :
    ∃ tokens, tokenize default (bytes "(func(),\x7b0:\n1\x7d)") = .ok tokens ∧
      ¬ LayoutInSuites default (bytes "(func(),\x7b0:\n1\x7d)") := by
  refine ⟨_, rfl, fun h => ?_⟩
  obtain ⟨base, hbefore | hbehind⟩ := h _ _ [_]
    (visits_of_scanAll (show scanAll default 9 _ = _ from rfl)) ⟨by decide, rfl⟩
    (by decide) rfl ⟨_, List.mem_cons_self, rfl⟩
  · exact not_inSuite (by decide) hbefore
  · exact not_inSuite (by decide) hbehind

theorem layout_balanced_lambda :
    (∃ tokens, tokenize default (bytes "(func():\n\t0)") = .ok tokens ∧
      dedents tokens = 1 ∧ indents tokens = 1) ∧
        LayoutInSuites default (bytes "(func():\n\t0)") := by
  refine ⟨⟨_, rfl, by decide, by decide⟩, (layout_balanced rfl).2.2.2 fun l hl hopens => ?_⟩
  -- there is one line break
  have hmem := List.mem_filter.2 ⟨hl.mem_states, hopens⟩
  have hrun : ∀ l ∈ (states default (bytes "(func():\n\t0)")).filter opensSuite,
    l.lambdaLayouts.length = 0 ∧
        l.tokens.map Token.type = [.lparen, .funcKw, .lparen, .rparen, .colon] := by decide
  obtain ⟨hlayouts, htypes⟩ := hrun l hmem
  refine ⟨?_, by rw [List.length_eq_zero_iff.1 hlayouts]; exact List.forall_mem_nil _⟩
  generalize l.tokens = tokens at htypes
  simp only [List.map_eq_cons_iff, List.map_eq_nil_iff] at htypes
  obtain ⟨first, _, rfl, -, f, _, rfl, hf, o, _, rfl, ho, c, _, rfl, hc, colon, _, rfl, hcolon,
    rfl⟩ := htypes
  exact ⟨[first], f, [], o, [], c, [], colon, ⟨hf, .inl rfl, ho, .nil, hc, .inl rfl, hcolon⟩, rfl⟩

end Suites

end Lexing
