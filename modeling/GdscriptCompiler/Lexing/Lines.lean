import GdscriptCompiler.Lexing.Steps

/-!
# Lines — the line a token carries

A raw string reads the byte behind a backslash without looking at it, and a line break there is not
counted.
-/

namespace Lexing

open Lexer Lib

variable {S : Settings} {l l' : Lexer} {raw : Bool}

/-! ## 1. Line breaks in a literal -/

/-- The line breaks of a piece that the scanner does not count. -/
def Piece.missed : Piece → Nat
  | kept c => if c = lf then 1 else 0
  | _ => 0

def Piece.missedIn (ps : List Piece) : Nat := (ps.map missed).sum

theorem isHexDigit_ne_lf {d : UInt8} (h : isHexDigit d = true) : d ≠ lf := by
  rintro rfl
  exact absurd h (by decide)

theorem Piece.Denotes.count_lf {letter : UInt8} {digits : Bytes} {cp : Nat}
    (h : Denotes letter digits cp) :
    (letter :: digits).count lf = 0 := by
  refine List.count_eq_zero.2 fun hmem => ?_
  rcases List.mem_cons.1 hmem with hletter | hdigit
  · rcases h.isLetter with hu | hu <;> exact absurd (hletter.trans hu) (by decide)
  · exact isHexDigit_ne_lf (h.hex _ hdigit) rfl

theorem count_lf_backslash (bs : Bytes) : (backslash :: bs).count lf = bs.count lf :=
  List.count_cons_of_ne (by decide)

theorem Piece.Allowed.count_lf {p : Piece} (h : p.Allowed raw) :
    p.text.count lf = p.breaks + p.missed := by
  cases p with
  | byte c => simp only [text, breaks, missed, List.count_singleton, Nat.add_zero, beq_iff_eq]
  | kept c => simp only [text, breaks, missed, count_lf_backslash, List.count_singleton, beq_iff_eq,
                Nat.zero_add]
  | escaped c v =>
    have hc : c ≠ lf := by
      rintro rfl
      cases h.2
    rw [text, count_lf_backslash, List.count_cons_of_ne hc]
    rfl
  | scalar letter digits c =>
    rw [text, count_lf_backslash, h.2.count_lf]
    rfl
  | surrogates letter digits letter' digits' c =>
    obtain ⟨-, lead, trail, hd, hd', -⟩ := h
    rw [text, count_lf_backslash, ← List.cons_append, List.count_append, hd.count_lf,
      count_lf_backslash, hd'.count_lf]
    rfl
  | lineBreak hasCr => cases hasCr <;> decide

theorem count_lf_texts :
    ∀ {ps : List Piece}, (∀ p ∈ ps, p.Allowed raw) →
      (Piece.texts ps).count lf = Piece.breaksIn ps + Piece.missedIn ps
  | [], _ => rfl
  | p :: ps, h => by
      obtain ⟨hp, hps⟩ := List.forall_mem_cons.1 h
      rw [Piece.texts_cons, List.count_append, hp.count_lf, count_lf_texts hps, Piece.breaksIn_cons,
        Piece.missedIn, Piece.missedIn, List.map_cons, List.sum_cons]
      omega

theorem missedIn_pos {ps : List Piece} : 0 < Piece.missedIn ps ↔ Piece.kept lf ∈ ps := by
  induction ps with
  | nil => simp [Piece.missedIn]
  | cons p ps ih =>
    have hp : 0 < p.missed ↔ Piece.kept lf = p := by
      cases p with
      | kept c =>
        rw [Piece.missed, Piece.kept.injEq]
        split
        · rename_i hc
          exact iff_of_true Nat.one_pos hc.symm
        · rename_i hc
          exact iff_of_false (Nat.lt_irrefl 0) (Ne.symm hc)
      | byte | escaped | scalar | surrogates | lineBreak => simp [Piece.missed]
    rw [List.mem_cons, ← ih, ← hp, Piece.missedIn, List.map_cons, List.sum_cons]
    show 0 < p.missed + Piece.missedIn ps ↔ _
    omega

/-! ## 2. A string step -/

section Strings

variable {k : Nat} {type : TokenType} {ps : List Piece} {out : Bytes}

theorem count_lf_quoted {quote : UInt8} {rest : Bytes} (hquote : quote ≠ lf)
    (h : IsLiteral quote raw rest ps out) :
    (quoted quote rest ps).count lf = Piece.breaksIn ps + Piece.missedIn ps := by
  have hrep : ∀ n, (List.replicate n quote).count lf = 0 := fun n =>
    List.count_eq_zero.2 fun hmem => hquote (List.eq_of_mem_replicate hmem).symm
  rw [quoted, List.count_append, List.count_append, hrep, hrep, count_lf_texts h.allowed,
    Nat.zero_add, Nat.add_zero]

theorem take_literal (opens : Opens l k type raw)
    (h : IsLiteral (l.peekAt k) raw (l.rest.drop (k + 1)) ps out) :
    l.rest.take (k + 1 + literalLength (l.peekAt k) (l.rest.drop (k + 1)) ps) =
      l.rest.take (k + 1) ++ quoted (l.peekAt k) (l.rest.drop (k + 1)) ps := by
  rw [List.take_add, h.take_eq (isQuote_ne opens.quote).1]

theorem count_lf_literal (opens : Opens l k type raw)
    (h : IsLiteral (l.peekAt k) raw (l.rest.drop (k + 1)) ps out) :
    (l.rest.take (k + 1 + literalLength (l.peekAt k) (l.rest.drop (k + 1)) ps)).count lf =
      Piece.breaksIn ps + Piece.missedIn ps := by
  rw [take_literal opens h, List.count_append, List.count_eq_zero.2 opens.noBreak, Nat.zero_add,
    count_lf_quoted (isQuote_ne opens.quote).2 h]

theorem string_eq (opens : Opens l k type raw)
    (result : (l.first.advanceBy k).scanString type raw = .ok l') :
    ∃ ps out column, IsLiteral (l.peekAt k) raw (l.rest.drop (k + 1)) ps out ∧
      l' = ((l.first.advanceBy (k + literalLength (l.peekAt k) (l.rest.drop (k + 1)) ps)).moveTo
        (l.line + Piece.breaksIn ps) column).addValue type (.text (Piece.values ps)) := by
  have hrest : (l.first.advanceBy k).rest = l.rest.drop (k + 1) := by
    rw [Nat.add_comm]
    exact List.drop_drop
  obtain ⟨ps, out, column, hlit, rfl⟩ := scanString_eq_ok opens.lexeme result
  rw [hrest, advanceBy_advanceBy] at *
  exact ⟨ps, out, column, hlit, rfl⟩

/-- A raw string with these pieces starts at `l`. -/
structure RawString (l : Lexer) (ps : List Piece) : Prop where
  inside : l.atLineStart = false
  letter : l.peek = 'r'
  quote : isQuote l.peekNext = true
  literal : ∃ out, IsLiteral l.peekNext true (l.rest.drop 2) ps out

theorem RawString.scans (S : Settings) (h : RawString l ps) :
    ∃ l' t n, Scans l S l' ∧ Consumes l l' n ∧
      l'.tokens = l.tokens ++ [t] ∧ t.type = .string ∧ t.line = l'.line ∧
      l'.line + Piece.missedIn ps = l.line + (l.rest.take n).count lf := by
  have starts := opensString_of_raw h.letter h.quote
  have opens := opens_of_opensString starts
  obtain ⟨out, hlit⟩ := h.literal
  have hrest : (l.first.advanceBy 1).rest = l.rest.drop 2 := List.drop_drop
  obtain ⟨column, result⟩ := scanString_of_literal .string opens.lexeme (isQuote_ne h.quote).1
    (hrest ▸ hlit : IsLiteral (l.peekAt 1) true (l.first.advanceBy 1).rest ps out)
  have hfirst : Consumes l l.first 1 := ⟨rfl, rfl, rfl⟩
  refine ⟨_, _, 2 + literalLength (l.peekAt 1) (l.rest.drop 2) ps, .string h.inside starts result,
    ?_, rfl, rfl, rfl, ?_⟩
  · rw [hrest]
    exact (hfirst.trans (consumes_advanceBy _ 1)).trans ⟨rfl, rfl, rfl⟩
  · rw [count_lf_literal opens hlit, ← Nat.add_assoc]
    rfl

end Strings

/-! ## 3. One step -/

/-- What a step does to the line count, and the lines of the tokens it adds. -/
structure CountsLines (l l' : Lexer) (n missed : Nat) (new : List Token) : Prop where
  consumes : Consumes l l' n
  line : l'.line + missed = l.line + (l.rest.take n).count lf
  tokens : l'.tokens = l.tokens ++ new
  plain : ∀ t ∈ new, t.type.isLayout = false → t.line = l'.line ∧ l'.lexeme.headD lf ≠ lf

variable {new : List Token}

section Counting

variable {n k : Nat} {t : Token}

theorem headD_lexeme_ne (hl' : Consumes l l' n) (hne : l.rest ≠ []) (hpos : 0 < n)
    (hn : lf ∉ l.rest.take n) :
    l'.lexeme.headD lf ≠ lf := by
  rw [hl'.lexeme]
  cases hr : (l.rest.take n).reverse with
  | nil =>
    rw [List.reverse_eq_nil_iff, List.take_eq_nil_iff] at hr
    exact absurd hr (not_or.2 ⟨Nat.ne_of_gt hpos, hne⟩)
  | cons d ds =>
    rintro rfl
    exact hn (List.mem_reverse.1 (hr ▸ List.mem_cons_self))

theorem CountsLines.of_noBreak (hne : l.rest ≠ []) (hl' : Consumes l l' n) (hpos : 0 < n)
    (hn : lf ∉ l.rest.take n) (hline : l'.line = l.line) (htokens : l'.tokens = l.tokens ++ new)
    (hnew : ∀ t ∈ new, t.type.isLayout = false → t.line = l'.line) :
    CountsLines l l' n 0 new where
  consumes := hl'
  line := by rw [hline, List.count_eq_zero.2 hn]
  tokens := htokens
  plain := fun t ht hplain => ⟨hnew t ht hplain, headD_lexeme_ne hl' hne hpos hn⟩

theorem CountsLines.of_silent (hl' : Consumes l l' n)
    (hline : l'.line = l.line + (l.rest.take n).count lf) (htokens : l'.tokens = l.tokens ++ new)
    (hnew : ∀ t ∈ new, t.type.isLayout = true) :
    CountsLines l l' n 0 new where
  consumes := hl'
  line := hline
  tokens := htokens
  plain := fun t ht hplain => absurd (hnew t ht) (by simp [hplain])

theorem lf_not_mem_first {c : UInt8} (h : l.peek = c) (hc : c ≠ lf) : lf ∉ l.rest.take 1 :=
  lf_not_mem_take_one (q := fun b => b ≠ lf) (decide_eq_true (h ▸ hc : l.peek ≠ lf)) (by decide)

theorem CountsLines.of_token (hne : l.rest ≠ []) (hl' : Consumes l l' n) (hpos : 0 < n)
    (hn : lf ∉ l.rest.take n) (hline : l'.line = l.line) (htokens : l'.tokens = l.tokens ++ [t])
    (ht : t.line = l'.line) :
    CountsLines l l' n 0 [t] :=
  .of_noBreak hne hl' hpos hn hline htokens (List.forall_mem_singleton.2 fun _ => ht)

theorem tokens_closeLambdaLayout (l : Lexer) :
    ∃ k, l.closeLambdaLayout.tokens = l.tokens ++ List.replicate k (l.token .dedent) := by
  obtain ⟨k, -, hk⟩ := closeLambdaLayout_eq l
  exact ⟨k, congrArg Lexer.tokens hk⟩

theorem CountsLines.of_closing (hne : l.rest ≠ []) (hc : lf ∉ l.rest.take 1)
    (hl' : Consumes l.first.closeLambdaLayout l' 0)
    (hline : l'.line = l.first.closeLambdaLayout.line)
    (htokens : l'.tokens = l.first.closeLambdaLayout.tokens ++ [t]) (ht : t.line = l'.line) :
    ∃ new, CountsLines l l' 1 0 new := by
  obtain ⟨k, -, hk⟩ := closeLambdaLayout_eq l.first
  have hfirst : Consumes l l.first 1 := ⟨rfl, rfl, rfl⟩
  have hclose := (hfirst.trans (consumes_closeLambdaLayout l.first)).trans hl'
  rw [hk] at hline htokens
  refine ⟨List.replicate k (l.first.token .dedent) ++
    [t], .of_noBreak hne hclose Nat.one_pos hc hline ?_ ?_⟩
  · rw [htokens]
    exact List.append_assoc _ _ _
  · intro t' ht' hplain
    rcases List.mem_append.1 ht' with hmem | hmem
    · rw [List.eq_of_mem_replicate hmem] at hplain
      cases hplain
    · rw [List.mem_singleton.1 hmem, ht]

theorem count_lf_one {rest : Bytes} (h : rest.getD 0 0 = lf) : (rest.take 1).count lf = 1 := by
  rw [cons_of_getD (by decide) h, List.take_succ_cons, List.take_zero]
  rfl

theorem tokens_newline (l : Lexer) :
    ∃ new, l.newline.tokens = l.tokens ++ new ∧ (∀ t ∈ new, t.type = .newline) ∧
      l.newline.line = l.line + 1 := by
  rw [newline]
  dsimp only
  split <;> split
  all_goals first
    | exact ⟨[_], rfl, List.forall_mem_singleton.2 rfl, rfl⟩
    | exact ⟨[], (List.append_nil _).symm, List.forall_mem_nil _, rfl⟩

theorem tokens_handleIndent (h : l.handleIndent = .ok l') :
    l'.line = l.line ∧ ∃ new, l'.tokens = l.tokens ++ new ∧ ∀ t ∈ new, t.type.isLayout = true := by
  rw [handleIndent] at h
  split at h
  · cases h
    exact ⟨rfl, [], (List.append_nil _).symm, List.forall_mem_nil _⟩
  rw [startLine] at h
  split at h
  · exact absurd h error_ne_ok
  cases h
  unfold indentTo
  dsimp only
  split
  · exact ⟨rfl, [_], rfl, List.forall_mem_singleton.2 rfl⟩
  · refine ⟨rfl, _, rfl, fun t ht => ?_⟩
    rw [List.eq_of_mem_replicate ht]
    rfl

theorem tokens_scanIdentifier (l : Lexer) :
    (l.scanIdentifier S).tokens =
      l.tokens ++
        [(l.advanceWhile isAlphanumeric).token ((l.advanceWhile isAlphanumeric).identifierType S)] ∧
      (l.scanIdentifier S).line = l.line := by
  rw [scanIdentifier]
  split <;> split <;> exact ⟨rfl, rfl⟩

theorem continuation_tokens (h : l.continuation = .ok l') : l'.tokens = l.tokens := by
  rw [continuation] at h
  split at h
  · exact absurd h error_ne_ok
  · cases h
    rfl

theorem tokens_colon (l : Lexer) :
    l.colon.tokens = l.tokens ++ [l.token .colon] ∧ l.colon.line = l.line := by
  rw [colon]
  split <;> exact ⟨rfl, rfl⟩

/-- Every step counts the line breaks it reads, except those behind a backslash in a raw string. -/
theorem Lexer.Scans.countsLines (h : Scans l S l') (hne : l.rest ≠ []) :
    ∃ n missed new, CountsLines l l' n missed new ∧
      (0 < missed → ∃ ps, RawString l ps ∧ Piece.kept lf ∈ ps) := by
  have hfirst : Consumes l l.first 1 := ⟨rfl, rfl, rfl⟩
  have nothing : ∀ {n : Nat} {new : List Token} {l' : Lexer}, CountsLines l l' n 0 new →
      ∃ n missed new, CountsLines l l' n missed new ∧ (0 < missed → ∃ ps, RawString l ps ∧
        Piece.kept lf ∈ ps) :=
    fun h => ⟨_, 0, _, h, fun hpos => absurd hpos (Nat.lt_irrefl 0)⟩
  have behind : ∀ {n : Nat}, lf ∉ l.first.rest.take n → l.peek ≠ lf →
    lf ∉ l.rest.take (1 + n) := fun hn hc =>
    lf_not_mem_take_add (lf_not_mem_first rfl hc) hn
  cases h with
  | indent start result =>
    obtain ⟨hline, new, htokens, hnew⟩ := tokens_handleIndent result
    refine nothing (.of_silent (consumes_handleIndent result) ?_ htokens hnew)
    rw [take_takeWhile, List.count_eq_zero.2 (not_mem_takeWhile (by decide) _)]
    exact hline
  | blank inside next =>
    have hc : lf ∉ l.rest.take 1 := by
      rcases next with next | next | next <;> exact lf_not_mem_first next (by decide)
    exact nothing (.of_noBreak hne hfirst Nat.one_pos hc rfl (List.append_nil _).symm
      (List.forall_mem_nil _))
  | newline inside next =>
    obtain ⟨new, htokens, hnew, hline⟩ := tokens_newline l.first
    refine nothing (.of_silent (hfirst.trans (consumes_newline _)) ?_ htokens
      fun t ht => by rw [hnew t ht]; rfl)
    rw [hline]
    exact congrArg (l.line + ·) (count_lf_one next).symm
  | continuation inside next result =>
    obtain ⟨n, hn, hbefore, hlf, hline⟩ := consumes_continuation result
    refine nothing (.of_silent (hfirst.trans hn) ?_ ((continuation_tokens result).trans
      (List.append_nil _).symm) (List.forall_mem_nil _))
    have hfront : lf ∉ l.rest.take (1 + n) := behind hbefore (next ▸ by decide)
    have hone := count_lf_one hlf
    rw [show l.first.rest = l.rest.drop 1 from rfl, List.drop_drop] at hone
    rw [hline, ← Nat.add_assoc, List.take_add, List.count_append, List.count_eq_zero.2 hfront,
      Nat.zero_add, hone]
    rfl
  | comment inside next =>
    have hn : lf ∉ l.first.rest.take (l.first.rest.takeWhile fun (c : UInt8) => c ≠ lf).length := by
      rw [take_takeWhile]
      exact not_mem_takeWhile (by decide) _
    exact nothing (.of_noBreak hne (hfirst.trans (consumes_advanceBy _ _)) (by omega)
      (behind hn (next ▸ by decide)) rfl (List.append_nil _).symm (List.forall_mem_nil _))
  | openParenthesis inside next =>
    exact nothing (.of_token hne ⟨rfl, rfl, rfl⟩ Nat.one_pos (lf_not_mem_first next (by decide)) rfl
      rfl rfl)
  | openBracket closer type inside next =>
    have hc : lf ∉ l.rest.take 1 := by
      rcases next with ⟨next, -⟩ | ⟨next, -⟩ <;> exact lf_not_mem_first next (by decide)
    exact nothing (.of_token hne ⟨rfl, rfl, rfl⟩ Nat.one_pos hc rfl rfl rfl)
  | closeParenthesis inside next =>
    obtain ⟨new, hnew⟩ : ∃ new, CountsLines l l.first.closeParenthesis 1 0 new :=
      CountsLines.of_closing hne (lf_not_mem_first next (by decide))
      ⟨rfl, rfl, rfl⟩ rfl rfl rfl
    exact nothing hnew
  | closeBracket closer type inside next kind =>
    have hc : closer ≠ lf := by rcases kind with ⟨rfl, -⟩ | ⟨rfl, -⟩ <;> decide
    obtain ⟨new, hnew⟩ : ∃ new, CountsLines l (l.first.closeBracket closer type) 1 0 new :=
      CountsLines.of_closing hne (lf_not_mem_first next hc)
      ⟨rfl, rfl, rfl⟩ rfl rfl rfl
    exact nothing hnew
  | colon inside next =>
    obtain ⟨htokens, hline⟩ := tokens_colon l.first
    exact nothing (.of_token hne (hfirst.trans (consumes_colon _)) Nat.one_pos
      (lf_not_mem_first next (by decide)) hline htokens
      hline.symm)
  | comma inside next =>
    obtain ⟨new, hnew⟩ : ∃ new, CountsLines l l.first.comma 1 0 new :=
      CountsLines.of_closing hne (lf_not_mem_first next (by decide))
      ⟨rfl, rfl, rfl⟩ rfl rfl rfl
    exact nothing hnew
  | number inside starts result =>
    obtain ⟨n, type, value, -, hn, rfl⟩ := scanNumber_eq_ok result
    have hc : l.peek ≠ lf := fun hlf => by
      rw [hlf] at starts
      cases starts
    exact nothing (.of_token hne (hfirst.trans ⟨rfl, rfl, rfl⟩) (by omega) (behind hn hc) rfl rfl rfl)
  | question inside next result =>
    obtain ⟨n, type, -, hn, rfl⟩ := question_eq_ok result
    exact nothing (.of_token hne (hfirst.trans ⟨rfl, rfl, rfl⟩) (by omega)
      (behind hn (next ▸ by decide)) rfl rfl rfl)
  | @string _ k type raw inside opens result =>
    have opens := opens_of_opensString opens
    obtain ⟨ps, out, column, hlit, rfl⟩ := string_eq opens result
    have hlength : 1 + (k + literalLength (l.peekAt k) (l.rest.drop (k + 1)) ps) =
        k + 1 + literalLength (l.peekAt k) (l.rest.drop (k + 1)) ps := by omega
    have hconsumes := hfirst.trans
      (consumes_advanceBy l.first (k + literalLength (l.peekAt k) (l.rest.drop (k + 1)) ps))
    refine ⟨_, Piece.missedIn ps, _, ⟨⟨hconsumes.before, hconsumes.lexeme, hconsumes.rest⟩, ?_, rfl,
      List.forall_mem_singleton.2 fun _ => ⟨rfl, ?_⟩⟩, fun hpos => ?_⟩
    · rw [hlength, count_lf_literal opens hlit, ← Nat.add_assoc]
      rfl
    · -- the last byte is the quote
      obtain ⟨init, hinit⟩ := quoted_eq_concat (l.peekAt k) (l.rest.drop (k + 1)) ps
      show (l.first.advanceBy _).lexeme.headD lf ≠ lf
      rw [hconsumes.lexeme, hlength, take_literal opens hlit, hinit, ← List.append_assoc,
        List.reverse_concat]
      exact (isQuote_ne opens.quote).2
    · have hkept := missedIn_pos.1 hpos
      have hraw : raw = true := hlit.allowed _ hkept
      have hk : k = 1 := opens.raw_length hraw
      subst hraw hk
      exact ⟨ps, ⟨inside, opens.raw_iff.1 rfl, opens.quote, out, hlit⟩, hkept⟩
  | operator inside starts opens found =>
    have hc : l.peek ≠ lf := fun hlf => absurd (mem_operatorBytes (hlf ▸ found)) (by decide)
    have hn := (operator_eq_some (l := l.first) (by rw [peek_first, peekNext_first, found])).2
    exact nothing (.of_token hne (hfirst.trans ⟨rfl, rfl, rfl⟩) (by omega) (behind hn hc) rfl rfl rfl)
  | word inside opens letter =>
    obtain ⟨htokens, hline⟩ := tokens_scanIdentifier (S := S) l.first
    have hc : l.peek ≠ lf := fun hlf => by
      rw [hlf] at letter
      cases letter
    have hn : lf ∉ l.first.rest.take (l.first.rest.takeWhile isAlphanumeric).length := by
      rw [take_takeWhile]
      exact not_mem_takeWhile (by decide) _
    exact nothing (.of_token hne (hfirst.trans (consumes_scanIdentifier _)) (by omega)
      (behind hn hc) hline htokens
      hline.symm)

end Counting

/-! ## 4. Whole sources -/

def Lexer.read (l : Lexer) : Bytes := (l.lexeme ++ l.before).reverse

section Runs

variable {source upTo : Bytes} {n : Nat} {t : Token} {tokens : List Token}

theorem read_of_consumes (h : Consumes l.start l' n) : l'.read = l.read ++ l.rest.take n := by
  rw [Lexer.read, h.lexeme, h.before, List.append_assoc, List.reverse_append, List.reverse_reverse]
  rfl

theorem Step.read_append (h : Step S l l') : l'.read ++ l'.rest = l.read ++ l.rest := by
  obtain ⟨n, hn, -⟩ := h.scans.consumes
  rw [read_of_consumes hn, hn.rest, List.append_assoc]
  exact congrArg (l.read ++ ·) (List.take_append_drop n l.rest)

theorem Visits.read_append (h : Visits S source l) : l.read ++ l.rest = source := by
  induction h with
  | refl => rfl
  | tail _ hstep ih => exact hstep.read_append.trans ih

theorem Step.countsLines (h : Step S l l') :
    ∃ n missed new, CountsLines l.start l' n missed new ∧
      (0 < missed → ∃ ps, RawString l ps ∧ Piece.kept lf ∈ ps) := by
  obtain ⟨n, missed, new, hcounts, hmissed⟩ := h.scans.countsLines h.1
  refine ⟨n, missed, new, hcounts, fun hpos => ?_⟩
  obtain ⟨ps, hraw, hkept⟩ := hmissed hpos
  exact ⟨ps, ⟨hraw.inside, hraw.letter, hraw.quote, hraw.literal⟩, hkept⟩

theorem CountsLines.line_read {missed : Nat} (h : CountsLines l.start l' n missed new) :
    l'.line + missed + l.read.count lf = l.line + l'.read.count lf := by
  have hline : l'.line + missed = l.line + (l.rest.take n).count lf := h.line
  rw [read_of_consumes h.consumes, List.count_append, hline]
  omega

theorem Visits.line_le (h : Visits S source l) : l.line ≤ 1 + l.read.count lf := by
  induction h with
  | refl => exact Nat.le_refl 1
  | tail _ hstep ih =>
    obtain ⟨n, missed, new, hcounts, -⟩ := hstep.countsLines
    have hline := hcounts.line_read
    omega

/-- No raw string of the source has a line break behind a backslash. -/
def NoRawBreak (S : Settings) (source : Bytes) : Prop :=
  ∀ l ps, Visits S source l → RawString l ps → Piece.kept lf ∉ ps

theorem Visits.line_eq (hraw : NoRawBreak S source) (h : Visits S source l) :
    l.line = 1 + l.read.count lf := by
  induction h with
  | refl => rfl
  | @tail m l' hvisits hstep ih =>
    obtain ⟨n, missed, new, hcounts, hmissed⟩ := hstep.countsLines
    have hzero : missed = 0 := Nat.eq_zero_of_not_pos fun hpos => by
      obtain ⟨ps, hps, hkept⟩ := hmissed hpos
      exact hraw m ps hvisits hps hkept
    have hline := hcounts.line_read
    omega

/-- The lexer reads the token `t` of the source; its last character is the last one of `upTo`. -/
def ReadsToken (S : Settings) (source upTo : Bytes) (t : Token) : Prop :=
  ∃ l l' new, Visits S source l ∧ Step S l l' ∧ l'.tokens = l.tokens ++ new ∧ t ∈ new ∧ upTo = l'.read

theorem count_dropLast (h : l.lexeme.headD lf ≠ lf) :
    l.read.dropLast.count lf = l.read.count lf := by
  cases hl : l.lexeme with
  | nil => exact absurd (by rw [hl]; rfl) h
  | cons c lexeme =>
    rw [hl] at h
    rw [Lexer.read, hl, List.cons_append, List.reverse_cons, List.dropLast_concat,
      List.count_append, List.count_singleton, if_neg (by simpa using h), Nat.add_zero]

theorem Visits.mem_tokens (h : Visits S source l) :
    ∀ t ∈ l.tokens, ∃ upTo, upTo <+: source ∧ ReadsToken S source upTo t := by
  induction h with
  | refl => exact List.forall_mem_nil _
  | @tail m l' hvisits hstep ih =>
    obtain ⟨n, missed, new, hcounts, -⟩ := hstep.countsLines
    intro t ht
    rw [hcounts.tokens] at ht
    rcases List.mem_append.1 ht with hmem | hmem
    · exact ih t hmem
    · refine ⟨l'.read, ⟨l'.rest, ?_⟩, m, l', new, hvisits, hstep, hcounts.tokens, hmem, rfl⟩
      exact Visits.read_append (S := S) (hvisits.tail hstep)

/-- The tokens carry the lines they end on exactly when no raw string hides a line break from the
count. -/
theorem lines_right_iff (accepted : tokenize S source = .ok tokens) :
    (∀ t ∈ tokens, t.type.isLayout = false → t.type ≠ .eof → ∃ upTo, upTo <+: source ∧
        ReadsToken S source upTo t) ∧
    ((∀ upTo t, ReadsToken S source upTo t → t.type.isLayout = false →
        t.line = 1 + upTo.dropLast.count lf) ↔
      NoRawBreak S source) := by
  constructor
  · intro t ht hplain heof
    obtain ⟨l, hvisits, -, -, rfl⟩ := tokenize_eq_ok_iff.1 accepted
    rcases List.mem_append.1 ht with hmem | hmem
    · rcases List.mem_append.1 hmem with hmem | hmem
      · exact hvisits.mem_tokens t hmem
      · rw [List.eq_of_mem_replicate hmem] at hplain
        cases hplain
    · exact absurd (by rw [List.mem_singleton.1 hmem]; rfl) heof
  constructor
  · intro hlines l ps hvisits hraw hkept
    -- the token of that string has the wrong line
    have hraw : RawString l.start ps := ⟨hraw.inside, hraw.letter, hraw.quote, hraw.literal⟩
    obtain ⟨l', t, n, hscans, hconsumes, htokens, htype, hline, hmissed⟩ := hraw.scans S
    have hne : l.rest ≠ [] := fun hnil => by
      have hl := rest_of_peek hraw.letter (by decide)
      rw [show l.start.rest = [] from hnil] at hl
      cases hl
    have hstep : Step S l l' := ⟨hne, scanToken_of_scans hscans⟩
    have hplain : t.type.isLayout = false := by rw [htype]; rfl
    have hright := hlines l'.read t ⟨l, l', [t], hvisits, hstep, htokens, List.mem_singleton_self t,
      rfl⟩ hplain
    obtain ⟨n', missed, new, hcounts, -⟩ := hstep.countsLines
    have hnew : [t] = new := List.append_cancel_left (htokens.symm.trans hcounts.tokens)
    have hlast := (hcounts.plain t (hnew ▸ List.mem_singleton_self t) hplain).2
    rw [count_dropLast hlast, read_of_consumes hconsumes, List.count_append, hline] at hright
    have hle := hvisits.line_le
    have hpos := missedIn_pos.2 hkept
    have hmissed : l'.line + Piece.missedIn ps = l.line + (l.rest.take n).count lf := hmissed
    omega
  · rintro hraw upTo t ⟨l, l', new, hvisits, hstep, htokens, ht, rfl⟩ hplain
    obtain ⟨n, missed, new', hcounts, -⟩ := hstep.countsLines
    have hnew : new = new' := List.append_cancel_left (htokens.symm.trans hcounts.tokens)
    obtain ⟨hline, hlast⟩ := hcounts.plain t (hnew ▸ ht) hplain
    rw [hline, count_dropLast hlast]
    exact Visits.line_eq hraw (hvisits.tail hstep)

end Runs

-- `r"\` and `"` on two lines: the string ends on line 2 and is given line 1
theorem raw_break_uncounted :
    ∃ tokens upTo t, tokenize default (bytes "r\"\\\n\"") = .ok tokens ∧
      ReadsToken default (bytes "r\"\\\n\"") upTo t ∧ t.type.isLayout = false ∧
        t.line ≠ 1 + upTo.dropLast.count lf := by
  refine ⟨_, _, _, rfl, ⟨_, _, _, .head ⟨by decide, rfl⟩ .refl, ⟨by decide, rfl⟩, rfl,
    List.mem_singleton_self _, rfl⟩, rfl, ?_⟩
  decide

/-- A block, a bracket over two lines with an escape in a string, and a raw string. -/
def rawBehindBlock : Bytes := bytes "if a:\n\tb([\n\"\\n\"])\nr\"\\d\""

theorem lines_right_block :
    ∃ tokens, tokenize default rawBehindBlock = .ok tokens ∧ NoRawBreak default rawBehindBlock ∧
      ∀ upTo t, ReadsToken default rawBehindBlock upTo t → t.type.isLayout = false →
      t.line = 1 + upTo.dropLast.count lf := by
  have hraw : NoRawBreak default rawBehindBlock := by
    intro l ps hl hstring hkept
    -- there is no line break at or behind the raw string
    have hlast : ∀ l ∈ states default rawBehindBlock, l.peek = 'r' → isQuote l.peekNext = true →
        lf ∉ l.rest := by decide
    obtain ⟨out, hlit⟩ := hstring.literal
    have hmem : lf ∈ (l.rest.drop 2).drop _ := Body.text_subset hlit hkept (by decide)
    exact hlast l hl.mem_states hstring.letter hstring.quote
      (List.mem_of_mem_drop (List.mem_of_mem_drop hmem))
  exact ⟨_, rfl, hraw, (lines_right_iff rfl).2.mpr hraw⟩

end Lexing
