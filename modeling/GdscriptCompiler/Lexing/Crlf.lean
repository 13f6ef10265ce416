import GdscriptCompiler.Lexing.Layout

/-! # Crlf — texts with the other line ending -/

namespace Lexing

open Lexer Lib

/-! ## 1. The text -/

/-- Every LF replaced by CR LF. -/
def crlf (bs : Bytes) : Bytes := bs.flatMap fun c => if c = lf then [cr, lf] else [c]

/-- The first byte of what stands for a byte. -/
def seen (c : UInt8) : UInt8 := if c = lf then cr else c

section Texts

variable {bs cs : Bytes} {c d : UInt8} {n : Nat} {p : UInt8 → Bool}

@[simp] theorem crlf_lf : crlf (lf :: bs) = cr :: lf :: crlf bs := rfl

theorem crlf_cons (hc : c ≠ lf) : crlf (c :: bs) = c :: crlf bs := by
  rw [crlf, List.flatMap_cons, if_neg hc]
  rfl

theorem crlf_append : crlf (bs ++ cs) = crlf bs ++ crlf cs := List.flatMap_append

theorem crlf_of_not_mem (h : lf ∉ bs) : crlf bs = bs := by
  induction bs with
  | nil => rfl
  | cons c bs ih =>
    rw [List.mem_cons, not_or] at h
    rw [crlf_cons (Ne.symm h.1), ih h.2]

theorem crlf_eq_nil : crlf bs = [] ↔ bs = [] := by
  cases bs with
  | nil => exact iff_of_true rfl rfl
  | cons c bs =>
    refine iff_of_false ?_ (List.cons_ne_nil _ _)
    by_cases hc : c = lf
    · rw [hc, crlf_lf]
      exact List.cons_ne_nil _ _
    · rw [crlf_cons hc]
      exact List.cons_ne_nil _ _

theorem crlf_take_drop (n : Nat) (h : lf ∉ bs.take n) :
    crlf bs = bs.take n ++ crlf (bs.drop n) := by
  rw [← crlf_of_not_mem h, ← crlf_append, List.take_append_drop]

theorem take_crlf (h : lf ∉ bs.take n) : (crlf bs).take n = bs.take n := by
  rcases Nat.le_total n bs.length with hn | hn
  · rw [crlf_take_drop n h, List.take_append_of_le_length (by simp [hn]), List.take_take, Nat.min_self]
  · rw [List.take_of_length_le hn] at h
    rw [crlf_of_not_mem h]

theorem drop_crlf (h : lf ∉ bs.take n) : (crlf bs).drop n = crlf (bs.drop n) := by
  rcases Nat.le_total n bs.length with hn | hn
  · have hlen : (bs.take n).length = n := by simp [hn]
    rw [crlf_take_drop n h, List.drop_append_of_le_length (Nat.le_of_eq hlen.symm),
      List.drop_eq_nil_of_le (by omega)]
    rfl
  · rw [List.take_of_length_le hn] at h
    rw [crlf_of_not_mem h, List.drop_eq_nil_of_le hn]
    rfl

theorem head_crlf : (crlf bs).getD 0 0 = seen (bs.getD 0 0) := by
  cases bs with
  | nil => rfl
  | cons c bs =>
    by_cases hc : c = lf
    · rw [hc]
      rfl
    · rw [crlf_cons hc]
      exact (if_neg hc).symm

theorem getD_crlf (h : lf ∉ bs.take n) : (crlf bs).getD n 0 = seen (bs.getD n 0) := by
  have hdrop := getD_drop (crlf bs) n 0
  rw [drop_crlf h, head_crlf, getD_drop] at hdrop
  exact hdrop.symm

theorem class_seen {α : Type} {f : UInt8 → α} (hf : f cr = f lf) (c : UInt8) :
    f (seen c) = f c := by
  rw [seen]
  split
  · rename_i hc
    rw [hc, hf]
  · rfl

theorem seen_eq_iff (hcr : d ≠ cr) (hlf : d ≠ lf) : seen c = d ↔ c = d := by
  rw [seen]
  split
  · rename_i hc
    rw [hc]
    exact iff_of_false hcr.symm hlf.symm
  · rfl

theorem takeWhile_crlf (hcr : p cr = false) (hlf : p lf = false) (bs : Bytes) :
    (crlf bs).takeWhile p = bs.takeWhile p := by
  induction bs with
  | nil => rfl
  | cons c bs ih =>
    by_cases hc : c = lf
    · rw [hc, crlf_lf, List.takeWhile_cons_of_neg (by rw [hcr]; decide),
        List.takeWhile_cons_of_neg (by rw [hlf]; decide)]
    · rw [crlf_cons hc, List.takeWhile_cons, List.takeWhile_cons, ih]

/-- The line the cursor is on, read backwards. -/
def lineOf (reversed : Bytes) : Bytes := reversed.takeWhile fun c => c ≠ lf

theorem lineOf_crlf {x y : Bytes} (h : lineOf x = lineOf y) (bs : Bytes) :
    lineOf ((crlf bs).reverse ++ x) = lineOf (bs.reverse ++ y) := by
  induction bs generalizing x y with
  | nil => exact h
  | cons c bs ih =>
    rw [List.reverse_cons, List.append_assoc]
    by_cases hc : c = lf
    · rw [hc, crlf_lf, List.reverse_cons, List.reverse_cons, List.append_assoc, List.append_assoc]
      exact ih rfl
    · rw [crlf_cons hc, List.reverse_cons, List.append_assoc]
      refine ih ?_
      show lineOf (c :: x) = lineOf (c :: y)
      unfold lineOf at h ⊢
      rw [List.takeWhile_cons, List.takeWhile_cons, h]

end Texts

/-! ## 2. String literals -/

/-- The piece that stands for a piece. -/
def Piece.twin : Piece → Piece
  | lineBreak false => lineBreak true
  | p => p

/-- A piece without a line break of its own. -/
def Piece.Unbroken (p : Piece) : Prop := p ≠ byte lf ∧ p ≠ kept lf

section Literals

variable {quote : UInt8} {triple raw : Bool} {rest out : Bytes} {p : Piece} {ps : List Piece}

theorem Piece.value_twin (p : Piece) : p.twin.value = p.value := by
  cases p with
  | lineBreak hasCr => cases hasCr <;> rfl
  | byte | kept | escaped | scalar | surrogates => rfl

theorem Piece.breaks_twin (p : Piece) : p.twin.breaks = p.breaks := by
  cases p with
  | lineBreak hasCr => cases hasCr <;> rfl
  | byte | kept | escaped | scalar | surrogates => rfl

theorem Piece.allowed_twin (h : p.Allowed raw) : p.twin.Allowed raw := by
  cases p with
  | lineBreak hasCr => cases hasCr <;> exact h
  | byte | kept | escaped | scalar | surrogates => exact h

theorem Piece.text_twin (h : p.Allowed raw) (hp : p.Unbroken) (hbreak : p ≠ lineBreak true) :
    p.twin.text = crlf p.text := by
  have hcount := h.count_lf
  have hsame : p.breaks = 0 → p.missed = 0 → p.text = crlf p.text := fun hbreaks hmissed =>
    (crlf_of_not_mem (List.count_eq_zero.1 (by rw [hcount, hbreaks, hmissed]))).symm
  cases p with
  | lineBreak hasCr =>
    cases hasCr with
    | false => rfl
    | true => exact absurd rfl hbreak
  | byte c => exact hsame (if_neg fun hc => hp.1 (congrArg _ hc)) rfl
  | kept c => exact hsame rfl (if_neg fun hc => hp.2 (congrArg _ hc))
  | escaped | scalar | surrogates => exact hsame rfl rfl

theorem closing_crlf (hcr : quote ≠ cr) (hlf : quote ≠ lf) (rest : Bytes) :
    closing quote triple (crlf rest) = closing quote triple rest := by
  have hfirst : rest.getD 0 0 = quote → lf ∉ rest.take 1 := fun h =>
    lf_not_mem_take_one (q := fun c => c = quote) (decide_eq_true h) (by simpa using hlf.symm)
  have hsecond : rest.getD 0 0 = quote → rest.getD 1 0 = quote → lf ∉ rest.take 2 := fun h h' =>
    lf_not_mem_take_add (hfirst h) (lf_not_mem_take_one (q := fun c => c = quote)
      (decide_eq_true ((getD_drop _ _ _).trans h')) (by simpa using hlf.symm))
  rw [closing, closing, Bool.eq_iff_iff]
  simp only [Bool.and_eq_true, Bool.or_eq_true, Bool.not_eq_true', decide_eq_true_eq, head_crlf,
    seen_eq_iff hcr hlf]
  refine and_congr_right fun h0 => or_congr_right ?_
  rw [getD_crlf (hfirst h0), seen_eq_iff hcr hlf]
  refine and_congr_right fun h1 => ?_
  rw [getD_crlf (hsecond h0 h1), seen_eq_iff hcr hlf]

theorem texts_twin (h : ∀ p ∈ ps, p.Allowed raw ∧ p.Unbroken ∧ p ≠ .lineBreak true) :
    Piece.texts (ps.map Piece.twin) = crlf (Piece.texts ps) := by
  induction ps with
  | nil => rfl
  | cons p ps ih =>
    rw [List.forall_mem_cons] at h
    rw [List.map_cons, Piece.texts_cons, Piece.texts_cons, crlf_append, ih h.2,
      Piece.text_twin h.1.1 h.1.2.1 h.1.2.2]

theorem values_twin (ps : List Piece) : Piece.values (ps.map Piece.twin) = Piece.values ps := by
  induction ps with
  | nil => rfl
  | cons p ps ih => rw [List.map_cons, Piece.values_cons, Piece.values_cons, ih, p.value_twin]

theorem breaksIn_twin (ps : List Piece) :
    Piece.breaksIn (ps.map Piece.twin) = Piece.breaksIn ps := by
  induction ps with
  | nil => rfl
  | cons p ps ih => rw [List.map_cons, Piece.breaksIn_cons, Piece.breaksIn_cons, ih, p.breaks_twin]

theorem Body.crlf (hcr : quote ≠ cr) (hlf : quote ≠ lf) (h : Body quote triple raw rest ps out)
    (hps : ∀ p ∈ ps, p.Unbroken ∧ p ≠ .lineBreak true) :
    Body quote triple raw (crlf rest) (ps.map Piece.twin) (Lexing.crlf out) := by
  induction h with
  | closed close => exact .closed ((closing_crlf hcr hlf _).trans close)
  | @piece p rest out ps inside allowed more ih =>
    rw [List.forall_mem_cons] at hps
    have htext := Piece.text_twin allowed hps.1.1 hps.1.2
    rw [crlf_append, ← htext]
    refine .piece ?_ (Piece.allowed_twin allowed) (ih hps.2)
    rw [htext, ← crlf_append, closing_crlf hcr hlf, inside]

theorem opensTriple_crlf (hcr : quote ≠ cr) (hlf : quote ≠ lf) (rest : Bytes) :
    opensTriple quote (crlf rest) = opensTriple quote rest := by
  rw [opensTriple, opensTriple, Bool.eq_iff_iff]
  simp only [Bool.and_eq_true, decide_eq_true_eq, head_crlf, seen_eq_iff hcr hlf]
  refine and_congr_right fun h0 => ?_
  have hfirst : lf ∉ rest.take 1 :=
    lf_not_mem_take_one (q := fun c => c = quote) (decide_eq_true h0) (by simpa using hlf.symm)
  rw [getD_crlf hfirst, seen_eq_iff hcr hlf]

theorem lf_not_mem_open (hlf : quote ≠ lf) (hne : quote ≠ 0) (rest : Bytes) :
    lf ∉ rest.take (openLength (opensTriple quote rest)) := by
  have hrest := replicate_of_opensTriple rest hne
  generalize openLength (opensTriple quote rest) = n at hrest
  intro hmem
  rw [hrest, List.take_append_of_le_length (by simp)] at hmem
  exact hlf (List.eq_of_mem_replicate (List.mem_of_mem_take hmem)).symm

theorem IsLiteral.crlf (hcr : quote ≠ cr) (hlf : quote ≠ lf) (hne : quote ≠ 0)
    (h : IsLiteral quote raw rest ps out) (hps : ∀ p ∈ ps, p.Unbroken ∧ p ≠ .lineBreak true) :
    IsLiteral quote raw (crlf rest) (ps.map Piece.twin) (Lexing.crlf out) := by
  have hbody := Body.crlf hcr hlf h hps
  rw [IsLiteral, opensTriple_crlf hcr hlf, drop_crlf (lf_not_mem_open hlf hne rest)]
  exact hbody

theorem quoted_crlf (hcr : quote ≠ cr) (hlf : quote ≠ lf)
    (hps : ∀ p ∈ ps, p.Allowed raw ∧ p.Unbroken ∧ p ≠ .lineBreak true) :
    quoted quote (crlf rest) (ps.map Piece.twin) = crlf (quoted quote rest ps) := by
  have hquotes : ∀ n, crlf (List.replicate n quote) = List.replicate n quote := fun n =>
    crlf_of_not_mem fun hmem => hlf (List.eq_of_mem_replicate hmem).symm
  rw [quoted, quoted, opensTriple_crlf hcr hlf, crlf_append, crlf_append, texts_twin hps, hquotes,
    hquotes]

theorem stringItem_of_doubled {m : Lexer} (h : m.rest = backslash :: cr :: cr :: rest)
    {r : Option (Bytes × Lexer)} :
    m.stringItem false ≠ .ok r := by
  have hback := peek_of_rest h
  have hadvance : m.advance.rest = cr :: cr :: rest := by simp [advance, advanceBy, h]
  have hagain : m.advance.advance.rest = cr :: rest := by simp [advance, advanceBy, h]
  have hend : m.advance.isAtEnd = false := by rw [isAtEnd, hadvance]; rfl
  have hescape : m.advance.escape = m.advance.advance.error "Invalid escape in string" := by
    rw [escape, peek_of_rest hadvance]
    show (if _ then _ else _) = _
    rw [if_neg (by decide), if_pos (by decide), if_pos (by rw [peek_of_rest hagain]; decide)]
  rw [stringItem, hback, if_neg (by decide), if_pos (by decide)]
  simp only [hend, Bool.false_eq_true, if_false, hescape]
  intro hok
  cases hok

theorem scanStringBody_of_doubled (hcr : quote ≠ cr) (hlf : quote ≠ lf)
    (h : Body quote triple raw rest ps out) (hps : ∀ p ∈ ps, p.Unbroken)
    (hmem : .lineBreak true ∈ ps) :
    ∀ (fuel : Nat) (value : Bytes) (m : Lexer), m.rest = crlf rest → ∀ r,
      scanStringBody quote triple raw fuel value m ≠ .ok (some r) := by
  induction h with
  | closed => exact absurd hmem List.not_mem_nil
  | @piece p rest out ps inside allowed more ih =>
    intro fuel value m hm r
    rw [List.forall_mem_cons] at hps
    cases fuel with
    | zero => nofun
    | succ fuel =>
      have hinside : closing quote triple m.rest = false := by rw [hm, closing_crlf hcr hlf, inside]
      by_cases hbreak : p = .lineBreak true
      · subst hbreak
        have hraw : raw = false := allowed
        subst hraw
        have hrest : m.rest = backslash :: cr :: cr :: lf :: crlf rest := hm
        rw [scanStringBody_inside (by rw [hrest]; exact List.cons_ne_nil _ _) hinside]
        intro hok
        obtain ⟨item, hitem, -⟩ := bind_eq_ok.1 hok
        exact stringItem_of_doubled hrest hitem
      · have htext := Piece.text_twin allowed hps.1 hbreak
        rw [crlf_append, ← htext] at hm
        obtain ⟨column, hrest, hround⟩ :=
          scanStringBody_piece hm (hm ▸ hinside) (Piece.allowed_twin allowed)
        rw [hround]
        exact ih hps.2 ((List.mem_cons.1 hmem).resolve_left (Ne.symm hbreak)) fuel _ _ hrest r

theorem scanString_of_doubled {m : Lexer} {type : TokenType} (hcr : quote ≠ cr) (hlf : quote ≠ lf)
    (hne : quote ≠ 0) (h : IsLiteral quote raw rest ps out) (hps : ∀ p ∈ ps, p.Unbroken)
    (hmem : .lineBreak true ∈ ps) (hquote : m.lexeme.headD 0 = quote) (hm : m.rest = crlf rest)
    {m' : Lexer} :
    m.scanString type raw ≠ .ok m' := by
  subst hquote
  intro hok
  rw [scanString] at hok
  obtain ⟨r, hbody, hok⟩ := bind_eq_ok.1 hok
  rw [← opensTriple_eq, advance_openLength] at hbody
  cases r with
  | none => cases hok
  | some r =>
    rw [hm, opensTriple_crlf hcr hlf] at hbody
    refine scanStringBody_of_doubled hcr hlf h hps hmem _ _ _ ?_ _ hbody
    show m.rest.drop _ = _
    rw [hm, drop_crlf (lf_not_mem_open hlf hne rest)]

end Literals

/-! ## 3. Numbers, operators and words -/

section Readers

variable {S : Settings} {l l' m : Lexer} {rest : Bytes} {c next after after' : UInt8}
  {p : UInt8 → Bool}

theorem digitRun_crlf (hcr : p cr = false) (hlf : p lf = false) (rest : Bytes) :
    digitRun p (crlf rest) = digitRun p rest :=
  takeWhile_crlf (by simp [hcr]; decide) (by simp [hlf]; decide) rest

theorem fractionLength_crlf (rest : Bytes) : fractionLength (crlf rest) = fractionLength rest := by
  have hdot : seen (rest.getD 0 0) = '.' ↔ rest.getD 0 0 = '.' := seen_eq_iff (by decide) (by decide)
  unfold fractionLength
  rw [head_crlf, decide_eq_decide.2 hdot]
  by_cases h : rest.getD 0 0 = '.'
  · have hfirst : lf ∉ rest.take 1 :=
      lf_not_mem_take_one (q := fun c => c = '.') (decide_eq_true h) (by decide)
    rw [getD_crlf hfirst, drop_crlf hfirst, class_seen (f := isDigit) rfl, digitRun_crlf rfl rfl]
  · rw [decide_eq_false h, Bool.false_and, Bool.false_and]
    rfl

theorem exponentLength_crlf (rest : Bytes) : exponentLength (crlf rest) = exponentLength rest := by
  have hletter : ∀ d : UInt8, d ≠ cr → d ≠ lf →
    (decide (seen (rest.getD 0 0) = d) = decide (rest.getD 0 0 = d)) :=
    fun d hcr hlf => decide_eq_decide.2 (seen_eq_iff hcr hlf)
  unfold exponentLength
  rw [head_crlf, hletter _ (by decide) (by decide), hletter _ (by decide) (by decide)]
  by_cases h : (decide (rest.getD 0 0 = 'e') || decide (rest.getD 0 0 = 'E')) = true
  · have hfirst : lf ∉ rest.take 1 :=
      lf_not_mem_take_one (q := fun (c : UInt8) => c = 'e' || c = 'E') h (by decide)
    rw [if_pos h, if_pos h, getD_crlf hfirst, drop_crlf hfirst, class_seen (f := isDigit) rfl,
      class_seen (f := isSign) rfl, digitRun_crlf rfl rfl]
    split
    · rfl
    cases hsign : isSign (rest.getD 1 0) with
    | false => rfl
    | true =>
      have hsecond : lf ∉ rest.take 2 := lf_not_mem_take_add hfirst
        (lf_not_mem_take_one (q := isSign) ((congrArg isSign (getD_drop _ _ _)).trans hsign) (by decide))
      rw [getD_crlf hsecond, drop_crlf hsecond, class_seen (f := isDigit) rfl, digitRun_crlf rfl rfl]
  · rw [if_neg h, if_neg h]

section

variable (hm : m.rest = crlf l.rest)
include hm

theorem peek_crlf : m.peek = seen l.peek := by
  rw [peek, peekAt, hm, head_crlf]
  rfl

theorem scanPrefixed_crlf {hex : Bool} (hx : l.peek ≠ lf) (h : l.scanPrefixed hex = .ok l') :
    ∃ n value, lf ∉ l.rest.take n ∧ l' = (l.advanceBy n).addValue .integer value ∧
      m.scanPrefixed hex = .ok ((m.advanceBy n).addValue .integer value) := by
  have hfirst : lf ∉ l.rest.take 1 := lf_not_mem_first rfl hx
  have hcr : (if hex then isHexDigit else isBinaryDigit) cr = false := by cases hex <;> decide
  have hlf : (if hex then isHexDigit else isBinaryDigit) lf = false := by cases hex <;> decide
  rw [scanPrefixed] at h ⊢
  rw [hm, drop_crlf hfirst, digitRun_crlf hcr hlf]
  generalize (if hex = true then isHexDigit else isBinaryDigit) = p at h hlf
  split at h
  · exact absurd h error_ne_ok
  rename_i hdigits
  split at h
  · exact absurd h error_ne_ok
  rename_i v hv
  cases h
  refine ⟨_, _, lf_not_mem_take_add hfirst (lf_not_mem_take_digitRun hlf _), rfl, ?_⟩
  rw [if_neg hdigits]

theorem scanNumber_crlf (h : l.scanNumber S c = .ok l') :
    ∃ n type value, (type = .integer ∨ type = .float) ∧ lf ∉ l.rest.take n ∧
      l' = (l.advanceBy n).addValue type value ∧
      m.scanNumber S c = .ok ((m.advanceBy n).addValue type value) := by
  have hletter : ∀ d : UInt8, d ≠ cr → d ≠ lf → decide (m.peek = d) = decide (l.peek = d) :=
    fun d hcr hlf => by
    rw [peek_crlf hm]
    exact decide_eq_decide.2 (seen_eq_iff hcr hlf)
  rw [scanNumber] at h ⊢
  rw [hletter _ (by decide) (by decide), hletter _ (by decide) (by decide),
    hletter _ (by decide) (by decide), hletter _ (by decide) (by decide)]
  iterate 2
    split at h
    · rename_i hx
      have hlf : l.peek ≠ lf := fun hlf => by
        rw [hlf, Bool.and_eq_true] at hx
        exact absurd hx.2 (by decide)
      obtain ⟨n, value, hn, hl', hm'⟩ := scanPrefixed_crlf hm hlf h
      exact ⟨n, .integer, value, .inl rfl, hn, hl', by rw [if_pos hx, hm']⟩
    rename_i hno
    rw [if_neg hno]
  have hwhole : lf ∉ l.rest.take (digitRun isDigit l.rest).length :=
    lf_not_mem_take_digitRun (by decide) _
  have hfraction := lf_not_mem_take_add hwhole (lf_not_mem_fraction _)
  have hexponent := lf_not_mem_take_add hfraction (lf_not_mem_exponent _)
  dsimp only at h ⊢
  rw [hm, digitRun_crlf rfl rfl, drop_crlf hwhole, fractionLength_crlf, drop_crlf hfraction,
    exponentLength_crlf, take_crlf hexponent]
  split at h
  · exact absurd h error_ne_ok
  rename_i type value hvalue
  cases h
  refine ⟨_, type, value, ?_, hexponent, rfl, rfl⟩
  split at hvalue
  · obtain ⟨d, -, hd⟩ := Option.map_eq_some_iff.1 hvalue
    exact .inr (congrArg Prod.fst hd).symm
  · obtain ⟨v, -, hv⟩ := Option.map_eq_some_iff.1 hvalue
    exact .inl (congrArg Prod.fst hv).symm

theorem question_crlf (h : l.question S = .ok l') :
    ∃ n type, lf ∉ l.rest.take n ∧ l' = (l.advanceBy n).addToken type ∧
      m.question S = .ok ((m.advanceBy n).addToken type) := by
  have hnext : ∀ d : UInt8, d ≠ cr → d ≠ lf → (m.peek = d ↔ l.peek = d) := fun d hcr hlf => by
    rw [peek_crlf hm]
    exact seen_eq_iff hcr hlf
  have hone : ∀ d : UInt8, d ≠ lf → l.peek = d →
    lf ∉ l.rest.take 1 := fun d hd h => lf_not_mem_first h hd
  rw [question] at h ⊢
  simp only [hnext '?' (by decide) (by decide), hnext '.' (by decide) (by decide)]
  split at h
  · exact absurd h error_ne_ok
  rename_i hextensions
  rw [if_neg hextensions]
  split at h
  · rename_i hq
    cases h
    exact ⟨1, _, hone _ (by decide) hq, rfl, by rw [if_pos hq]; rfl⟩
  rename_i hq
  rw [if_neg hq]
  split at h
  · rename_i hdot
    cases h
    exact ⟨1, _, hone _ (by decide) hdot, rfl, by rw [if_pos hdot]; rfl⟩
  · rename_i hdot
    cases h
    exact ⟨0, _, List.not_mem_nil, rfl, by rw [if_neg hdot]; rfl⟩

end

theorem operator_crlf (hafter : next ≠ lf → after' = seen after) :
    operator c (seen next) after' = operator c next after := by
  by_cases hlf : next = lf
  · subst hlf
    unfold operator
    dsimp only
    split <;> rfl
  · have hnext : seen next = next := if_neg hlf
    have heq : seen after = '=' ↔ after = '=' := seen_eq_iff (by decide) (by decide)
    rw [hafter hlf, hnext]
    unfold operator
    simp only [heq]

end Readers

end Lexing
