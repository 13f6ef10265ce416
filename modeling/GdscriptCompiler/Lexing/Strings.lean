import GdscriptCompiler.Lexing.Lines
import GdscriptCompiler.Lib.Utf8

/-! # Strings — the value of a string literal -/

namespace Lexing

open Lexer Lib

variable {S : Settings} {raw : Bool} {ps : List Piece}

/-! ## 1. Pieces of valid text -/

def Ascii (bs : Bytes) : Prop := ∀ b ∈ bs, b < 0x80

theorem valid_of_ascii_append {as bs : Bytes} (ha : Ascii as) (h : Utf8.Valid (as ++ bs)) :
    Utf8.Valid bs := by
  induction as with
  | nil => exact h
  | cons a as ih =>
    obtain ⟨ha, has⟩ := List.forall_mem_cons.1 ha
    exact ih has ((Utf8.valid_cons_iff ha).1 h)

/-- An escape: ASCII text for a value that is text of its own. -/
def Piece.IsEscape (p : Piece) : Prop := Ascii p.text ∧ Utf8.Valid p.value

theorem isHexDigit_lt {d : UInt8} (h : isHexDigit d = true) : d < 0x80 := by
  simp [isHexDigit, isDigit, Char.toUInt8, UInt8.le_iff_toNat_le, UInt8.lt_iff_toNat_lt] at *
  omega

variable {letter : UInt8} {digits : Bytes} {cp : Nat}

theorem Piece.Denotes.ascii (h : Denotes letter digits cp) :
    Ascii (backslash :: letter :: digits) := by
  refine List.forall_mem_cons.2
    ⟨by decide, List.forall_mem_cons.2 ⟨?_, fun d hd => isHexDigit_lt (h.hex d hd)⟩⟩
  rcases h.isLetter with rfl | rfl <;> decide

theorem simpleEscape_lt {c v : UInt8} (h : simpleEscape c = some v) : c < 0x80 ∧ v < 0x80 := by
  rw [simpleEscape] at h
  split at h
  case h_11 => cases h
  all_goals
    cases h
    rw [eq_of_ofUInt8 ‹Char.ofUInt8 c = _›]
    decide

theorem Piece.Allowed.cases {p : Piece} (h : p.Allowed raw) :
    (∃ c, p = byte c) ∨ (∃ c, p = kept c) ∨ p.IsEscape := by
  cases p with
  | byte c => exact .inl ⟨c, rfl⟩
  | kept c => exact .inr (.inl ⟨c, rfl⟩)
  | escaped c v =>
    obtain ⟨hc, hv⟩ := simpleEscape_lt h.2
    exact .inr (.inr ⟨List.forall_mem_cons.2 ⟨by decide, List.forall_mem_singleton.2 hc⟩,
      Utf8.valid_ascii hv⟩)
  | scalar letter digits c => exact .inr (.inr ⟨h.2.ascii, Utf8.valid_char c⟩)
  | surrogates letter digits letter' digits' c =>
    obtain ⟨-, lead, trail, hd, hd', -⟩ := h
    exact .inr (.inr ⟨List.forall_mem_append.2 ⟨hd.ascii, hd'.ascii⟩, Utf8.valid_char c⟩)
  | lineBreak hasCr =>
    refine .inr (.inr ⟨?_, Utf8.valid_nil⟩)
    cases hasCr <;> (unfold Ascii; decide +kernel)

theorem eq_map_byte {ps : List Piece} :
    ∀ {bs rest : Bytes}, (∀ b ∈ bs, 0x80 ≤ b) → Piece.texts ps = bs ++ rest →
      ∃ ps', ps = bs.map .byte ++ ps' ∧ Piece.texts ps' = rest := by
  intro bs
  induction bs generalizing ps with
  | nil => exact fun _ h => ⟨ps, rfl, h⟩
  | cons b bs ih =>
    intro rest hbs h
    obtain ⟨hb, hbs'⟩ := List.forall_mem_cons.1 hbs
    cases ps with
    | nil => cases h
    | cons p ps =>
      have hback : ∀ {text : Bytes}, (backslash :: text) ++ Piece.texts ps ≠ b :: bs ++
        rest := fun h => by
        rw [List.cons_append, List.cons_append] at h
        exact absurd (List.cons.inj h).1 (fun hb' => absurd (hb' ▸ hb) (by decide))
      rw [Piece.texts_cons] at h
      cases p with
      | byte c =>
        obtain ⟨rfl, hrest⟩ := List.cons.inj h
        obtain ⟨ps', rfl, htexts⟩ := ih hbs' hrest
        exact ⟨ps', rfl, htexts⟩
      | kept | escaped | scalar | surrogates => exact absurd h hback
      | lineBreak hasCr => cases hasCr <;> exact absurd h hback

theorem values_append (ps ps' : List Piece) :
    Piece.values (ps ++ ps') = Piece.values ps ++ Piece.values ps' :=
  List.flatMap_append

theorem values_map_byte (bs : Bytes) : Piece.values (bs.map .byte) = bs := by
  induction bs with
  | nil => rfl
  | cons b bs ih => rw [List.map_cons, Piece.values_cons, ih]; rfl

/-- Pieces of a valid text have a valid value. The induction is on the length of the text: behind
the backslash of a raw string the next byte is looked at again, as a piece of its own. -/
theorem valid_values (n : Nat) :
    ∀ {ps : List Piece}, (Piece.texts ps).length = n →
      (∀ p ∈ ps, (∃ c, p = .byte c) ∨ (∃ c, p = .kept c) ∨ p.IsEscape) →
        Utf8.Valid (Piece.texts ps) →
      Utf8.Valid (Piece.values ps) := by
  induction n using Nat.strong_induction_on with
  | _ n ih =>
    intro ps hlen hps h
    cases ps with
    | nil => exact Utf8.valid_nil
    | cons p ps =>
      obtain ⟨hp, hps'⟩ := List.forall_mem_cons.1 hps
      rw [Piece.texts_cons] at h hlen
      rw [List.length_append] at hlen
      rcases hp with ⟨c, rfl⟩ | ⟨c, rfl⟩ | ⟨hascii, hvalue⟩
      · by_cases hc : c < 0x80
        · have hrest := (Utf8.valid_cons_iff hc).1 h
          exact (Utf8.valid_cons_iff hc).2
            (ih _ (hlen ▸ Nat.lt_add_of_pos_left Nat.one_pos) rfl hps' hrest)
        · -- the first byte of a longer character
          obtain ⟨ds, hds⟩ := h
          cases ds with
          | nil => cases hds
          | cons d ds =>
            rw [List.flatMap_cons] at hds
            rcases Utf8.encode_cases d with ⟨b, hb, hd⟩ | hmulti
            · rw [hd] at hds
              exact absurd ((List.cons.inj hds).1 ▸ hb) hc
            obtain ⟨b, tail, hd⟩ := List.exists_cons_of_ne_nil (String.utf8EncodeChar_ne_nil)
            rw [hd] at hds hmulti
            obtain ⟨rfl, htail⟩ := List.cons.inj hds
            have htail : Piece.texts ps = tail ++ ds.flatMap String.utf8EncodeChar := htail
            obtain ⟨ps', rfl, htexts⟩ := eq_map_byte (List.forall_mem_cons.1 hmulti).2 htail
            have hshort : (Piece.texts ps').length < n := by
              rw [htail, List.length_append] at hlen
              rw [htexts]
              simp only [Piece.text, List.length_singleton] at hlen
              omega
            have hvalid := ih _ hshort rfl (List.forall_mem_append.1 hps').2 ⟨ds, htexts⟩
            rw [Piece.values_cons, values_append, values_map_byte, ← List.append_assoc,
              show Piece.value (.byte c) ++ tail = String.utf8EncodeChar d from hd.symm]
            exact (Utf8.valid_char d).append hvalid
      · have hrest : Utf8.Valid (Piece.texts (.byte c :: ps)) := (Utf8.valid_cons_iff (by decide)).1 h
        have hvalid := ih _ (show (Piece.texts (.byte c :: ps)).length < n by
          rw [← hlen, Piece.texts_cons, List.length_append]; simp [Piece.text]) rfl
          (List.forall_mem_cons.2 ⟨.inl ⟨c, rfl⟩, hps'⟩) hrest
        exact (Utf8.valid_cons_iff (by decide)).2 hvalid
      · have hrest := valid_of_ascii_append hascii h
        have hpos := List.length_pos_iff.2 p.text_ne_nil
        exact hvalue.append (ih _ (by omega) rfl hps' hrest)

/-! ## 2. String tokens -/

variable {type : TokenType} {k : Nat}

section Tokens

variable {l l' : Lexer} {t : Token} {new : List Token}

/-- The token is a string literal: its kind's front, one or three quotes, the pieces and the quotes
again; its value is that of the pieces. -/
structure Spells (t : Token) (raw : Bool) (front : Bytes) (quote : UInt8) (n : Nat)
    (ps : List Piece) : Prop where
  lexeme : t.lexeme = front ++ List.replicate n quote ++ Piece.texts ps ++ List.replicate n quote
  front : (t.type, front, raw) ∈ literalFronts
  isQuote : isQuote quote = true
  quotes : n = 1 ∨ n = 3
  allowed : ∀ p ∈ ps, p.Allowed raw
  value : t.value = .text (Piece.values ps)

theorem wordType_not_string (l : Lexer) : (l.identifierType S).isString = false :=
  identifierType_induction (P := fun type => type.isString = false) l (by decide) rfl rfl

theorem TokenType.isString_of_isLayout (h : type.isLayout = true) : type.isString = false := by
  cases type <;> first | rfl | cases h

theorem TokenType.isString_of_isPlain (h : type.isPlain = true) : type.isString = false := by
  cases type <;> first | rfl | cases h

theorem Lexer.Scans.strings (h : Scans l S l') (hnew : l'.tokens = l.tokens ++ new) :
    (∀ t ∈ new, t.type.isString = false) ∨ ∃ k type raw ps out t, Opens l k type raw ∧
      IsLiteral (l.peekAt k) raw (l.rest.drop (k + 1)) ps out ∧ new = [t] ∧ t.type = type ∧
      t.lexeme = l.text ++ l.rest.take (k + 1) ++ quoted (l.peekAt k) (l.rest.drop (k + 1)) ps ∧
      t.value = .text (Piece.values ps) := by
  have other : ∀ {new' : List Token}, l'.tokens = l.tokens ++ new' →
    (∀ t ∈ new', t.type.isString = false) →
      ∀ t ∈ new, t.type.isString = false := fun htokens hall =>
    List.append_cancel_left (htokens.symm.trans hnew) ▸ hall
  have closing : ∀ {t : Token}, l'.tokens = l.first.closeLambdaLayout.tokens ++ [t] →
    t.type.isString = false →
      ∀ t ∈ new, t.type.isString = false := fun htokens ht => by
    obtain ⟨k, hk⟩ := tokens_closeLambdaLayout l.first
    rw [hk, List.append_assoc] at htokens
    refine other htokens (List.forall_mem_append.2 ⟨fun t ht => ?_, List.forall_mem_singleton.2 ht⟩)
    rw [List.eq_of_mem_replicate ht]
    rfl
  cases h with
  | indent start result =>
    obtain ⟨-, new', htokens, hlayout⟩ := tokens_handleIndent result
    exact .inl (other htokens fun t ht => TokenType.isString_of_isLayout (hlayout t ht))
  | blank => exact .inl (other (List.append_nil _).symm (List.forall_mem_nil _))
  | newline =>
    obtain ⟨new', htokens, hnewline, -⟩ := tokens_newline l.first
    exact .inl (other htokens fun t ht => by rw [hnewline t ht]; rfl)
  | continuation _ _ result =>
    exact .inl (other ((continuation_tokens result).trans (List.append_nil _).symm)
      (List.forall_mem_nil _))
  | comment => exact .inl (other (List.append_nil _).symm (List.forall_mem_nil _))
  | openParenthesis => exact .inl (other rfl (List.forall_mem_singleton.2 rfl))
  | openBracket closer type _ next =>
    have htype : type.isString = false := by rcases next with ⟨-, -, rfl⟩ | ⟨-, -, rfl⟩ <;> rfl
    exact .inl (other rfl (List.forall_mem_singleton.2 htype))
  | closeParenthesis => exact .inl (closing rfl rfl)
  | closeBracket closer type _ _ kind =>
    have htype : type.isString = false := by rcases kind with ⟨-, rfl⟩ | ⟨-, rfl⟩ <;> rfl
    exact .inl (closing rfl htype)
  | colon => exact .inl (other (tokens_colon _).1 (List.forall_mem_singleton.2 rfl))
  | comma => exact .inl (closing rfl rfl)
  | number _ _ result =>
    obtain ⟨n, type, value, htype, -, rfl⟩ := scanNumber_eq_ok result
    have htype : type.isString = false := by rcases htype with rfl | rfl <;> rfl
    exact .inl (other rfl (List.forall_mem_singleton.2 htype))
  | question _ _ result =>
    obtain ⟨n, type, htype, -, rfl⟩ := question_eq_ok result
    have htype : type.isString = false := by rcases htype with rfl | rfl | rfl <;> rfl
    exact .inl (other rfl (List.forall_mem_singleton.2 htype))
  | @string _ k type raw _ opens result =>
    have opens := opens_of_opensString opens
    obtain ⟨ps, out, column, hlit, rfl⟩ := string_eq opens result
    refine .inr ⟨k, type, raw, ps, out, _, opens, hlit, (List.append_cancel_left hnew).symm, rfl,
      ?_, rfl⟩
    have hfirst : Consumes l l.first 1 := ⟨rfl, rfl, rfl⟩
    have hconsumes := hfirst.trans
      (consumes_advanceBy l.first (k + literalLength (l.peekAt k) (l.rest.drop (k + 1)) ps))
    show (l.first.advanceBy _).lexeme.reverse = _
    rw [hconsumes.lexeme, ← Nat.add_assoc, Nat.add_comm 1 k, take_literal opens hlit,
      List.reverse_append, List.reverse_reverse, List.append_assoc]
    rfl
  | operator _ _ _ found =>
    have hplain := (operator_eq_some (l := l.first) (by rw [peek_first, peekNext_first, found])).1
    exact .inl (other rfl (List.forall_mem_singleton.2 (TokenType.isString_of_isPlain hplain)))
  | word => exact .inl (other (tokens_scanIdentifier _).1
              (List.forall_mem_singleton.2 (wordType_not_string _)))

theorem isQuote_lt {c : UInt8} (h : isQuote c = true) : c < 0x80 := by
  simp only [isQuote, Bool.or_eq_true, decide_eq_true_eq] at h
  rcases h with rfl | rfl <;> decide

theorem take_succ_of_ne {bs : Bytes} (h : bs.getD k 0 ≠ 0) :
    bs.take (k + 1) = bs.take k ++ [bs.getD k 0] := by
  rw [List.take_add_one, List.getD_eq_getElem?_getD] at *
  cases hk : bs[k]? with
  | none => rw [hk] at h; exact absurd rfl h
  | some c => rfl

theorem valid_texts {before out : Bytes} (opens : Opens l k type raw)
    (hlit : IsLiteral (l.peekAt k) raw (l.rest.drop (k + 1)) ps out)
    (h : Utf8.Valid (before ++ l.rest)) :
    Utf8.Valid (Piece.texts ps) := by
  have hquote := isQuote_lt opens.quote
  have hne := (isQuote_ne opens.quote).1
  obtain ⟨out', hout⟩ := hlit.eq_quoted hne
  obtain ⟨n, hn⟩ : ∃ n, closeLength (opensTriple (l.peekAt k) (l.rest.drop (k + 1))) = n + 1 := by
    cases opensTriple (l.peekAt k) (l.rest.drop (k + 1)) <;> exact ⟨_, rfl⟩
  rw [← List.take_append_drop (k + 1) l.rest, take_succ_of_ne hne, hout, List.append_assoc,
    ← List.append_assoc] at h
  have hbody := (Utf8.Valid.cut hquote h).2
  simp only [quoted, List.append_assoc] at hbody
  have hbody := valid_of_ascii_append (fun b hb => (List.eq_of_mem_replicate hb).symm ▸ hquote) hbody
  rw [hn, List.replicate_succ, List.cons_append] at hbody
  exact (Utf8.Valid.cut hquote hbody).1

end Tokens

/-! ## 3. Escapes that are rejected -/

section Rejected

variable {l : Lexer} {letter quote : UInt8} {digits rest tail out : Bytes} {cp : Nat}
  {triple : Bool}

/-- The number is no scalar value, and no lead surrogate with its trail behind it. -/
def NotScalar (cp : Nat) (rest : Bytes) : Prop :=
  0x10FFFF < cp ∨ isTrail cp = true ∨ isLead cp = true ∧
    ¬ ∃ letter digits trail tail, rest = backslash :: letter :: (digits ++ tail) ∧
      Piece.Denotes letter digits trail ∧
      isTrail trail = true

theorem unicodeEscape_error (hl : l.rest = digits ++ rest) (h : Piece.Denotes letter digits cp)
    (hbad : NotScalar cp rest) :
    ∃ e, l.unicodeEscape letter = .error e := by
  cases hesc : l.unicodeEscape letter with
  | error e => exact ⟨e, rfl⟩
  | ok r =>
    exfalso
    obtain ⟨⟨cp₀, l₀⟩, hscan, hesc⟩ := bind_eq_ok.1 hesc
    rw [scanHexEscape_of_denotes hl h] at hscan
    cases hscan
    obtain ⟨⟨cp', l'⟩, hpair, hesc⟩ := bind_eq_ok.1 hesc
    dsimp only at hpair hesc
    unfold pairSurrogates at hpair
    split at hpair
    · rename_i hlead
      obtain ⟨letter', digits', tail, trail, hrest, hd, htrail, -⟩ := trailSurrogate_eq_ok hpair
      have hrest : rest = backslash :: letter' :: (digits' ++ tail) := by
        simpa [advanceBy, hl] using hrest
      rcases hbad with hbad | hbad | ⟨-, hbad⟩
      · simp [isLead] at hlead
        omega
      · simp [isLead, isTrail] at hlead hbad
        omega
      · exact hbad ⟨letter', digits', trail, tail, hrest, hd, htrail⟩
    rename_i hlead
    split at hpair
    · exact absurd hpair error_ne_ok
    rename_i htrail
    obtain ⟨rfl, rfl⟩ := Prod.mk.inj (Except.ok.inj hpair)
    rcases hbad with hbad | hbad | ⟨hbad, -⟩
    · rw [if_pos hbad] at hesc
      exact absurd hesc error_ne_ok
    · exact htrail hbad
    · exact hlead hbad

/-- The scanner is inside a literal, `ps` behind it. -/
inductive Inside (quote : UInt8) (triple raw : Bool) : Bytes → List Piece → Bytes → Prop
  | here {rest : Bytes} : Inside quote triple raw rest [] rest
  | piece {p : Piece} {rest out : Bytes} {ps : List Piece}
    (inside : closing quote triple (p.text ++ rest) = false)
      (allowed : p.Allowed raw) (more : Inside quote triple raw rest ps out) :
      Inside quote triple raw (p.text ++ rest) (p :: ps) out

theorem escape_error (hl : l.rest = backslash :: letter :: (digits ++ rest))
    (h : Piece.Denotes letter digits cp) (hbad : NotScalar cp rest) :
    ∃ e, l.stringItem false = .error e := by
  have hl₁ : l.advance.rest = letter :: (digits ++ rest) := by simp [advance, advanceBy, hl]
  have hl₂ : l.advance.advance.rest = digits ++ rest := by simp [advance, advanceBy, hl]
  obtain ⟨e, he⟩ := unicodeEscape_error hl₂ h hbad
  refine ⟨e, ?_⟩
  rw [stringItem, peek_of_rest hl, if_neg (by decide), if_pos (by decide)]
  simp only [isAtEnd, hl₁, List.isEmpty_cons, Bool.false_eq_true, if_false]
  rw [escape, peek_of_rest hl₁]
  simp only [simpleEscape_of_letter h.isLetter]
  rw [if_pos (by simpa using h.isLetter), he]
  rfl

theorem scanStringBody_error (hquote : isQuote quote = true)
    (h : Inside quote triple false rest ps out)
    (hout : out = backslash :: letter :: (digits ++ tail)) (hd : Piece.Denotes letter digits cp)
    (hbad : NotScalar cp tail) :
    ∀ (fuel : Nat) (value : Bytes) (l : Lexer), l.rest = rest → rest.length ≤ fuel →
      ∃ e, scanStringBody quote triple false fuel value l = .error e := by
  induction h with
  | @here rest =>
    intro fuel value l hl hfuel
    rw [hout] at hl hfuel
    obtain ⟨fuel, rfl⟩ := Nat.exists_eq_succ_of_ne_zero (show fuel ≠ 0 by rintro rfl; cases hfuel)
    obtain ⟨e, he⟩ := escape_error hl hd hbad
    have inside : closing quote triple l.rest = false := by
      rw [hl, closing, List.getD_cons_zero,
        decide_eq_false (fun hq => absurd (hq ▸ hquote) (by decide)), Bool.false_and]
    refine ⟨e, ?_⟩
    rw [scanStringBody_inside (by simp [hl]) inside, he]
    rfl
  | @piece p rest out ps inside allowed more ih =>
    intro fuel value l hl hfuel
    have hlen := List.length_pos_iff.2 p.text_ne_nil
    rw [List.length_append] at hfuel
    obtain ⟨fuel, rfl⟩ := Nat.exists_eq_succ_of_ne_zero (show fuel ≠ 0 by omega)
    obtain ⟨column, hrest, hround⟩ := scanStringBody_piece hl inside allowed
    rw [hround]
    exact ih hout fuel _ _ hrest (by omega)

end Rejected

/-! ## 4. Whole sources -/

/-- A string literal that is not raw starts at `l`; the scanner has read `ps` of its body and stands
before `out`. -/
def InString (l : Lexer) (ps : List Piece) (out : Bytes) : Prop :=
  ∃ k type, l.atLineStart = false ∧ opensString l.peek l.peekNext = some (k, type, false) ∧
    Inside (l.peekAt k) (opensTriple (l.peekAt k) (l.rest.drop (k + 1))) false
      ((l.rest.drop (k + 1)).drop (openLength (opensTriple (l.peekAt k) (l.rest.drop (k + 1))))) ps out

section Sources

variable {source out : Bytes} {l l' : Lexer} {tokens : List Token} {t : Token}

theorem scanString_error {tail : Bytes} (opens : Opens l k type false)
    (h : Inside (l.peekAt k) (opensTriple (l.peekAt k) (l.rest.drop (k + 1))) false
        ((l.rest.drop (k + 1)).drop (openLength (opensTriple (l.peekAt k) (l.rest.drop (k + 1)))))
      ps (backslash :: letter :: (digits ++ tail))) (hd : Piece.Denotes letter digits cp)
    (hbad : NotScalar cp tail) :
    ∃ e, (l.first.advanceBy k).scanString type false = .error e := by
  have hrest : (l.first.advanceBy k).rest = l.rest.drop (k + 1) := by
    rw [Nat.add_comm]
    exact List.drop_drop
  have hbody : ((l.first.advanceBy k).advanceBy
    (openLength (opensTriple (l.peekAt k) (l.rest.drop (k + 1))))).rest =
      (l.rest.drop (k + 1)).drop (openLength (opensTriple (l.peekAt k) (l.rest.drop (k + 1)))) := by
    rw [← hrest]
    rfl
  obtain ⟨e, he⟩ := scanStringBody_error opens.quote h rfl hd hbad _ [] _ hbody (Nat.le_refl _)
  refine ⟨e, ?_⟩
  rw [scanString, ← opensTriple_eq, advance_openLength, opens.lexeme, hrest, hbody, he]
  rfl

theorem cons_quoted (ps : List Piece) (quote : UInt8) (rest : Bytes) :
    ∃ n, (n = 1 ∨ n = 3) ∧ quote :: quoted quote rest ps =
      List.replicate n quote ++ Piece.texts ps ++ List.replicate n quote := by
  unfold quoted
  cases opensTriple quote rest with
  | false => exact ⟨1, .inl rfl, rfl⟩
  | true => exact ⟨3, .inr rfl, rfl⟩

theorem Step.tokens_string (h : Step S l l') (hvalid : Utf8.Valid (l.read ++ l.rest))
    {new : List Token} (hnew : l'.tokens = l.tokens ++ new) (ht : t ∈ new)
    (hstring : t.type.isString = true) :
    ∃ raw front quote n ps, Spells t raw front quote n ps ∧ Utf8.Valid (Piece.values ps) := by
  rcases h.scans.strings hnew with hnone | ⟨k, type, raw, ps, out, t', opens, hlit, rfl, htype,
    hlexeme, hvalue⟩
  · rw [hnone t ht] at hstring
    cases hstring
  · obtain ⟨n, hn, hquoted⟩ := cons_quoted ps (l.start.peekAt k) (l.start.rest.drop (k + 1))
    have hvalid := valid_texts opens hlit hvalid
    rw [List.mem_singleton.1 ht]
    refine ⟨raw, l.start.rest.take k, l.start.peekAt k, n, ps,
      ⟨?_, htype ▸ opens.front, opens.quote, hn, hlit.allowed, hvalue⟩,
      valid_values _ rfl (fun p hp => (hlit.allowed p hp).cases) hvalid⟩
    rw [hlexeme, take_succ_of_ne (isQuote_ne opens.quote).1]
    simp only [List.append_assoc] at hquoted ⊢
    exact congrArg (l.start.rest.take k ++ ·) hquoted

theorem Visits.tokens_string (h : Visits S source l) (hvalid : Utf8.Valid source)
    (ht : t ∈ l.tokens) (hstring : t.type.isString = true) :
    ∃ raw front quote n ps, Spells t raw front quote n ps ∧ Utf8.Valid (Piece.values ps) := by
  obtain ⟨upTo, -, m, l', new, hvisits, hstep, htokens, hnew, -⟩ := h.mem_tokens t ht
  exact hstep.tokens_string (hvisits.read_append.symm ▸ hvalid) htokens hnew hstring

theorem InString.no_step {tail : Bytes}
    (h : InString l ps (backslash :: letter :: (digits ++ tail)))
    (hd : Piece.Denotes letter digits cp) (hbad : NotScalar cp tail) :
    ¬ Step S l l' := by
  rintro ⟨-, hscan⟩
  obtain ⟨k, type, inside, starts, hinside⟩ := h
  obtain ⟨e, he⟩ := scanString_error (l := l.start) (opens_of_opensString starts) hinside hd hbad
  rw [scanToken_of_string (l := l.start) inside starts, he] at hscan
  cases hscan

/-- Accepted string literals decode piece by piece to valid UTF-8; an escape that denotes no scalar
value makes the lexer throw. -/
theorem string_literals_decode (hvalid : Utf8.Valid source) :
    (∀ tokens, tokenize S source = .ok tokens → ∀ t ∈ tokens, t.type.isString = true →
      ∃ raw front quote n ps, Spells t raw front quote n ps ∧ Utf8.Valid (Piece.values ps)) ∧
    ∀ l ps letter digits tail cp, Visits S source l →
      InString l ps (backslash :: letter :: (digits ++ tail)) →
      Piece.Denotes letter digits cp → NotScalar cp tail → ∃ e, tokenize S source = .error e := by
  constructor
  · intro tokens accepted t ht hstring
    obtain ⟨l, hvisits, -, -, rfl⟩ := tokenize_eq_ok_iff.1 accepted
    rcases List.mem_append.1 ht with hmem | hmem
    · rcases List.mem_append.1 hmem with hmem | hmem
      · exact hvisits.tokens_string hvalid hmem hstring
      · rw [List.eq_of_mem_replicate hmem] at hstring
        cases hstring
    · rw [List.mem_singleton.1 hmem] at hstring
      cases hstring
  · intro l ps letter digits tail cp hvisits hstring hd hbad
    cases htokens : tokenize S source with
    | error e => exact ⟨e, rfl⟩
    | ok tokens =>
      have hne : l.rest ≠ [] := fun hnil => by
        obtain ⟨k, type, -, starts, -⟩ := hstring
        rw [peek, peekNext, peekAt, peekAt, hnil] at starts
        cases starts
      obtain ⟨l', hstep⟩ := hvisits.exists_step htokens hne
      exact absurd hstep (hstring.no_step hd hbad)

end Sources

def accent : Token := ⟨.string, bytes "\"\\u00e9\"", .text [0xC3, 0xA9], 1, 9⟩

-- `"\u00e9"`
theorem string_literals_decode_accent :
    Utf8.Valid (bytes "\"\\u00e9\"") ∧
      tokenize default (bytes "\"\\u00e9\"") =
        .ok [accent, { accent with type := .eof, value := .int 0 }] ∧
      ∃ raw front quote n ps, Spells accent raw front quote n ps ∧
        Utf8.Valid (Piece.values ps) := by
  have hvalid : Utf8.Valid (bytes "\"\\u00e9\"") := ⟨"\"\\u00e9\"".toList, by decide⟩
  have accepted : tokenize default (bytes "\"\\u00e9\"") = .ok [accent,
    { accent with type := .eof, value := .int 0 }] :=
    rfl
  exact ⟨hvalid, accepted, (string_literals_decode hvalid).1 _ accepted accent List.mem_cons_self rfl⟩

end Lexing
