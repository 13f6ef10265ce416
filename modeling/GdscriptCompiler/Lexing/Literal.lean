import GdscriptCompiler.Lexing.Lexer
import GdscriptCompiler.Lib.Checks

/-!
# Literal — the grammar of string literals

The scanner accepts exactly these sequences of pieces.
-/

namespace Lexing

open Lexer Lib

/-! ## 1. Pieces -/

inductive Piece where
  | byte (c : UInt8)
  -- `r"\c"`
  | kept (c : UInt8)
  | escaped (c value : UInt8)
  -- `\uXXXX` or `\UXXXXXX`
  | scalar (letter : UInt8) (digits : Bytes) (c : Char)
  -- two such escapes, a lead and a trail surrogate
  | surrogates (letter : UInt8) (digits : Bytes) (letter' : UInt8) (digits' : Bytes) (c : Char)
  | lineBreak (cr : Bool)

namespace Piece

def text : Piece → Bytes
  | byte c => [c]
  | kept c => [backslash, c]
  | escaped c _ => [backslash, c]
  | scalar letter digits _ => backslash :: letter :: digits
  | surrogates letter digits letter' digits' _ =>
    backslash :: letter :: (digits ++ (backslash :: letter' :: digits'))
  | lineBreak false => [backslash, lf]
  | lineBreak true => [backslash, cr, lf]

def value : Piece → Bytes
  | byte c => [c]
  | kept c => [backslash, c]
  | escaped _ v => [v]
  | scalar _ _ c => String.utf8EncodeChar c
  | surrogates _ _ _ _ c => String.utf8EncodeChar c
  | lineBreak _ => []

def breaks : Piece → Nat
  | byte c => if c = lf then 1 else 0
  | lineBreak _ => 1
  | _ => 0

/-- `letter digits` is a unicode escape of the number. -/
structure Denotes (letter : UInt8) (digits : Bytes) (cp : Nat) : Prop where
  isLetter : letter = 'u' ∨ letter = 'U'
  length : digits.length = hexLength letter
  hex : ∀ d ∈ digits, isHexDigit d = true
  number : number 16 digits = cp

def Allowed (raw : Bool) : Piece → Prop
  | byte c => c ≠ backslash
  | kept _ => raw = true
  | escaped c v => raw = false ∧ simpleEscape c = some v
  | scalar letter digits c => raw = false ∧ Denotes letter digits c.toNat
  | surrogates letter digits letter' digits' c =>
    raw = false ∧ ∃ lead trail, Denotes letter digits lead ∧ Denotes letter' digits' trail ∧
      isLead lead = true ∧ isTrail trail = true ∧
      c.toNat = 0x10000 + (lead - 0xD800) * 2 ^ 10 + (trail - 0xDC00)
  | lineBreak _ => raw = false

end Piece

/-! ## 2. Reading -/

namespace Lexer

variable {l l' m : Lexer} {n k : Nat}

def moveTo (l : Lexer) (line column : Nat) : Lexer := { l with line, column }

theorem advanceBy_advanceBy (l : Lexer) (n k : Nat) :
    (l.advanceBy n).advanceBy k = l.advanceBy (n + k) := by
  simp only [advanceBy, List.take_add, List.reverse_append, List.append_assoc, List.drop_drop,
    Nat.add_assoc]

end Lexer

variable {l : Lexer} {c : UInt8} {rest : Bytes}

theorem peek_of_rest (h : l.rest = c :: rest) : l.peek = c := by
  simp only [peek, peekAt, h, List.getD_cons_zero]

theorem peekNext_of_rest {d : UInt8} (h : l.rest = c :: d :: rest) : l.peekNext = d := by
  simp only [peekNext, peekAt, h, List.getD_cons_succ, List.getD_cons_zero]

theorem rest_of_peek (h : l.peek = c) (hc : c ≠ 0) : l.rest = c :: l.rest.drop 1 := by
  cases hl : l.rest with
  | nil => exact absurd (by simpa [peek, peekAt, hl] using h.symm) hc
  | cons d rest => rw [← h, peek_of_rest hl, List.drop_one, List.tail_cons]

theorem rest_of_peekNext {d : UInt8} (h : l.peek = c) (hc : c ≠ 0) (h' : l.peekNext = d)
    (hd : d ≠ 0) :
    l.rest = c :: d :: l.rest.drop 2 := by
  have hl := rest_of_peek h hc
  cases hrest : l.rest.drop 1 with
  | nil =>
    rw [hrest] at hl
    exact absurd (by simpa [peekNext, peekAt, hl] using h'.symm) hd
  | cons e rest =>
    rw [hrest] at hl
    rw [← h', peekNext_of_rest hl, hl]
    rfl

/-! ## 3. Unicode escapes -/

theorem char_toNat_lt (c : Char) : c.toNat < 0x110000 := by
  have h : c.val.toNat.isValidChar := c.valid
  simp only [Nat.isValidChar] at h
  show c.val.toNat < _
  omega

-- a marker over payload bits
theorem marker_or {i a b : Nat} (h : b < 2 ^ i) : 2 ^ i * a ||| b = b + 2 ^ i * a := by
  rw [← Nat.two_pow_add_eq_or_of_lt h, Nat.add_comm]

theorem tail_or (k : Nat) : 0x80 ||| k &&& 0x3F = k % 64 + 128 := by
  rw [show (0x3F : Nat) = 2 ^ 6 - 1 from rfl, Nat.and_two_pow_sub_one_eq_mod]
  exact marker_or (i := 6) (a := 2) (Nat.mod_lt k (by decide))

theorem utf8_eq (c : Char) : utf8 c.toNat = String.utf8EncodeChar c := by
  have hc : c.toNat < 0x110000 := char_toNat_lt c
  rw [String.utf8EncodeChar, show c.val.toNat = c.toNat from rfl]
  generalize c.toNat = v at hc
  simp only [utf8, tail_or, Nat.shiftRight_eq_div_pow]
  by_cases h1 : v < 0x80
  · rw [if_pos h1, if_pos (show v ≤ 127 by omega)]
  rw [if_neg h1, if_neg (show ¬ v ≤ 127 by omega)]
  by_cases h2 : v < 0x800
  · have hlead : 0xC0 ||| v / 2 ^ 6 = v / 64 % 32 + 192 :=
      (marker_or (i := 6) (a := 3) (by omega)).trans (by omega)
    rw [if_pos h2, if_pos (show v ≤ 2047 by omega), hlead]
  rw [if_neg h2, if_neg (show ¬ v ≤ 2047 by omega)]
  by_cases h3 : v < 0x10000
  · have hlead : 0xE0 ||| v / 2 ^ 12 = v / 4096 % 16 + 224 :=
      (marker_or (i := 5) (a := 7) (by omega)).trans (by omega)
    rw [if_pos h3, if_pos (show v ≤ 65535 by omega), hlead]
  have hlead : 0xF0 ||| v / 2 ^ 18 = v / 262144 % 8 + 240 :=
    (marker_or (i := 4) (a := 15) (by omega)).trans (by omega)
  rw [if_neg h3, if_neg (show ¬ v ≤ 65535 by omega), hlead]

section Escapes

variable {l l' : Lexer} {letter : UInt8} {digits rest : Bytes} {n v w cp : Nat}

theorem scanHexEscape_eq_ok :
    ∀ {n v : Nat} {l : Lexer}, scanHexEscape n v l = .ok (w, l') →
      ∃ digits rest, l.rest = digits ++ rest ∧ digits.length = n ∧
        (∀ d ∈ digits, isHexDigit d = true) ∧
      digits.foldl (fun v c => v * 16 + hexDigit c) v = w ∧ l' = l.advanceBy n
  | 0, v, l, h => by
      cases h
      exact ⟨[], _, rfl, rfl, List.forall_mem_nil _, rfl, rfl⟩
  | n + 1, v, l, h => by
      rw [scanHexEscape] at h
      cases hl : l.rest with
      | nil => simp [isAtEnd, hl, Lexer.error, errorAt] at h
      | cons c rest =>
        rw [peek_of_rest hl, if_neg (by simp [isAtEnd, hl])] at h
        by_cases hc : isHexDigit c = true
        · rw [hc] at h
          obtain ⟨digits, rest', hrest, hlen, hex, hw, rfl⟩ := scanHexEscape_eq_ok h
          have hrest : rest = digits ++ rest' := by simpa [advance, advanceBy, hl] using hrest
          refine ⟨c :: digits, rest', by rw [hrest]; rfl, by rw [List.length_cons, hlen],
            List.forall_mem_cons.2 ⟨hc, hex⟩, hw, ?_⟩
          rw [advance, advanceBy_advanceBy, Nat.add_comm]
        · simp [hc, Lexer.error, errorAt] at h

theorem scanHexEscape_of :
    ∀ {digits : Bytes} {v : Nat} {l : Lexer}, l.rest = digits ++ rest →
      (∀ d ∈ digits, isHexDigit d = true) →
      scanHexEscape digits.length v l =
        .ok (digits.foldl (fun v c => v * 16 + hexDigit c) v, l.advanceBy digits.length)
  | [], v, l, _, _ => rfl
  | c :: digits, v, l, hl, hex => by
      have hrest : l.advance.rest = digits ++ rest := by simp [advance, advanceBy, hl]
      rw [List.length_cons, scanHexEscape, peek_of_rest hl, if_neg (by simp [isAtEnd, hl]),
        if_neg (by simp [hex c]), scanHexEscape_of hrest
          (fun d hd => hex d (List.mem_cons_of_mem c hd)), advance,
        advanceBy_advanceBy, Nat.add_comm 1]
      rfl

theorem error_ne_ok {α : Type} {message : String} {a : α} : l.error message ≠ .ok a := nofun

theorem scanHexEscape_denotes (h : scanHexEscape (hexLength letter) 0 l = .ok (cp, l'))
    (isLetter : letter = 'u' ∨ letter = 'U') :
    ∃ digits rest, l.rest = digits ++ rest ∧ Piece.Denotes letter digits cp ∧
      l' = l.advanceBy digits.length := by
  obtain ⟨digits, rest, hrest, hlen, hex, hw, hl⟩ := scanHexEscape_eq_ok h
  exact ⟨digits, rest, hrest, ⟨isLetter, hlen, hex, hw⟩, hlen ▸ hl⟩

theorem scanHexEscape_of_denotes (hl : l.rest = digits ++ rest)
    (h : Piece.Denotes letter digits cp) :
    scanHexEscape (hexLength letter) 0 l = .ok (cp, l.advanceBy digits.length) := by
  rw [← h.length, scanHexEscape_of hl h.hex]
  exact congrArg (fun v => Except.ok (v, _)) h.number

variable {lead : Nat}

theorem trailSurrogate_eq_ok (h : l.trailSurrogate lead = .ok (cp, l')) :
    ∃ letter digits rest trail, l.rest = backslash :: letter :: (digits ++ rest) ∧
      Piece.Denotes letter digits trail ∧ isTrail trail = true ∧
      cp = 0x10000 + (lead - 0xD800) * 2 ^ 10 + (trail - 0xDC00) ∧
        l' = l.advanceBy (2 + digits.length) := by
  unfold trailSurrogate at h
  split at h
  · exact absurd h error_ne_ok
  rename_i hnext
  obtain ⟨hback, hletter⟩ : l.peek = backslash ∧ (l.peekNext = 'u' ∨ l.peekNext = 'U') := by
    simpa [← or_iff_not_imp_left] using hnext
  have hne : l.peekNext ≠ 0 := by
    rintro h0
    rw [h0] at hletter
    revert hletter
    decide
  have hl := rest_of_peekNext hback (by decide) rfl hne
  obtain ⟨⟨trail, l₁⟩, hscan, h⟩ := bind_eq_ok.1 h
  obtain ⟨digits, rest, hrest, hd, rfl⟩ := scanHexEscape_denotes hscan hletter
  dsimp only at h
  split at h
  · exact absurd h error_ne_ok
  rename_i htrail
  obtain ⟨hcp, hl'⟩ := Prod.mk.inj (Except.ok.inj h)
  refine ⟨l.peekNext, digits, rest, trail, ?_, hd, by simpa using htrail, hcp.symm, ?_⟩
  · rw [hl, show l.rest.drop 2 = digits ++ rest from hrest]
  · rw [← hl', advanceBy_advanceBy]

theorem trailSurrogate_of {trail : Nat} (hl : l.rest = backslash :: letter :: (digits ++ rest))
    (hd : Piece.Denotes letter digits trail) (ht : isTrail trail = true) :
    l.trailSurrogate lead =
      .ok (0x10000 + (lead - 0xD800) * 2 ^ 10 + (trail - 0xDC00),
          l.advanceBy (2 + digits.length)) := by
  have hrest : (l.advanceBy 2).rest = digits ++ rest := by simp [advanceBy, hl]
  have hletter := hd.isLetter
  rw [trailSurrogate, peek_of_rest hl, peekNext_of_rest hl,
    if_neg (by simpa [← or_iff_not_imp_left] using hletter),
    scanHexEscape_of_denotes hrest hd, advanceBy_advanceBy]
  show (if (!isTrail trail) = true then _ else _) = _
  rw [ht]
  rfl

/-- A code point the scanner lets through is the scalar value of a character. -/
theorem exists_char (h : isLead cp = false) (h' : isTrail cp = false) (hcp : cp ≤ 0x10FFFF) :
    ∃ c : Char, c.toNat = cp := by
  have hvalid : cp.isValidChar := by
    simp only [isLead, isTrail, Bool.decide_and, Bool.and_eq_false_iff, decide_eq_false_iff_not] at h h'
    unfold Nat.isValidChar
    omega
  exact ⟨Char.ofNatAux cp hvalid, rfl⟩

/-- What a unicode escape is, as a piece: one escape, or two of them for a surrogate pair. -/
theorem unicodeEscape_eq_ok (isLetter : letter = 'u' ∨ letter = 'U')
    (h : l.unicodeEscape letter = .ok (cp, l')) :
    ∃ p rest n, Piece.Allowed false p ∧ backslash :: letter :: l.rest = p.text ++ rest ∧
      utf8 cp = p.value ∧
      p.breaks = 0 ∧ p.text.length = 2 + n ∧ l' = l.advanceBy n := by
  obtain ⟨⟨lead, l₁⟩, hscan, h⟩ := bind_eq_ok.1 h
  obtain ⟨digits, rest, hrest, hd, rfl⟩ := scanHexEscape_denotes hscan isLetter
  obtain ⟨⟨cp', l₂⟩, hpair, h⟩ := bind_eq_ok.1 h
  dsimp only at h hpair
  split at h
  · exact absurd h error_ne_ok
  rename_i hrange
  obtain ⟨rfl, rfl⟩ := Prod.mk.inj (Except.ok.inj h)
  unfold pairSurrogates at hpair
  split at hpair
  · rename_i hlead
    obtain ⟨letter', digits', rest', trail, hrest', hd', htrail, hcp, rfl⟩ := trailSurrogate_eq_ok hpair
    have hbelow : isLead cp' = false ∧ isTrail cp' = false := by
      simp only [isLead, isTrail, Bool.decide_and, Bool.and_eq_true, decide_eq_true_eq] at hlead htrail
      simp only [isLead, isTrail, Bool.decide_and, Bool.and_eq_false_iff, decide_eq_false_iff_not]
      omega
    obtain ⟨c, rfl⟩ := exists_char hbelow.1 hbelow.2 (by omega)
    refine ⟨.surrogates letter digits letter' digits' c, rest', _,
      ⟨rfl, lead, trail, hd, hd', hlead, htrail, hcp⟩, ?_, utf8_eq c, rfl, ?_, advanceBy_advanceBy _ _ _⟩
    · have hrest'' : rest = backslash :: letter' :: (digits' ++ rest') := by
        simpa [advanceBy, hrest] using hrest'
      simp only [hrest, hrest'', Piece.text, List.cons_append, List.append_assoc]
    · simp only [Piece.text, List.length_cons, List.length_append]
      omega
  · rename_i hlead
    split at hpair
    · exact absurd hpair error_ne_ok
    · rename_i htrail
      obtain ⟨rfl, rfl⟩ := Prod.mk.inj (Except.ok.inj hpair)
      obtain ⟨c, rfl⟩ := exists_char (by simpa using hlead) (by simpa using htrail) (by omega)
      refine ⟨.scalar letter digits c, rest, _, ⟨rfl, hd⟩, ?_, utf8_eq c, rfl, Nat.add_comm _ 2, rfl⟩
      rw [hrest]
      rfl

theorem unicodeEscape_scalar {c : Char} (hl : l.rest = digits ++ rest)
    (h : Piece.Denotes letter digits c.toNat) :
    l.unicodeEscape letter = .ok (c.toNat, l.advanceBy digits.length) := by
  have hvalid : c.val.toNat.isValidChar := c.valid
  have hc : isLead c.toNat = false ∧ isTrail c.toNat = false ∧ ¬ 0x10FFFF < c.toNat := by
    simp only [Nat.isValidChar] at hvalid
    simp only [isLead, isTrail, Bool.decide_and, Bool.and_eq_false_iff, decide_eq_false_iff_not,
      Char.toNat]
    omega
  rw [unicodeEscape, scanHexEscape_of_denotes hl h]
  show ((l.advanceBy digits.length).pairSurrogates c.toNat >>= _) = _
  rw [pairSurrogates, hc.1, hc.2.1]
  exact if_neg hc.2.2

theorem unicodeEscape_surrogates {c : Char} {letter' : UInt8} {digits' : Bytes} {trail : Nat}
    (hl : l.rest = digits ++ (backslash :: letter' :: digits') ++ rest)
    (h : Piece.Denotes letter digits lead) (h' : Piece.Denotes letter' digits' trail)
    (hlead : isLead lead = true) (htrail : isTrail trail = true)
    (hc : c.toNat = 0x10000 + (lead - 0xD800) * 2 ^ 10 + (trail - 0xDC00)) :
    l.unicodeEscape letter = .ok (c.toNat, l.advanceBy (digits.length + (2 + digits'.length))) := by
  have hl₁ : (l.advanceBy digits.length).rest = backslash :: letter' :: (digits' ++ rest) := by
    simp [advanceBy, hl]
  rw [unicodeEscape, scanHexEscape_of_denotes ((List.append_assoc _ _ _).symm.trans hl.symm).symm h]
  show ((l.advanceBy digits.length).pairSurrogates lead >>= _) = _
  rw [pairSurrogates, hlead, if_pos rfl, trailSurrogate_of hl₁ h' htrail, ← hc, advanceBy_advanceBy]
  exact if_neg (Nat.not_lt.2 (Nat.le_of_lt_succ (char_toNat_lt c)))

end Escapes

/-! ## 4. One round of the loop -/

variable {p : Piece}

section Rounds

variable {l l' : Lexer} {raw : Bool} {item : Bytes}

theorem simpleEscape_of_letter (h : c = 'u' ∨ c = 'U') : simpleEscape c = none := by
  rcases h with rfl | rfl <;> rfl

def ReadsPiece (raw : Bool) (l : Lexer) (item : Bytes) (l' : Lexer) : Prop :=
  ∃ p rest column, Piece.Allowed raw p ∧ l.rest = p.text ++ rest ∧ item = p.value ∧
    l' = (l.advanceBy p.text.length).moveTo (l.line + p.breaks) column

theorem escape_eq_ok (hl : l.rest = backslash :: c :: rest)
    (h : l.advance.escape = .ok (item, l')) :
    ReadsPiece false l item l' := by
  have hl₁ : l.advance.rest = c :: rest := by simp [advance, advanceBy, hl]
  have h₂ : l.advance.advance = l.advanceBy 2 := advanceBy_advanceBy l 1 1
  have hl₂ : (l.advanceBy 2).rest = rest := by simp [advanceBy, hl]
  rw [escape, peek_of_rest hl₁, h₂] at h
  dsimp only at h
  split at h
  · rename_i v hv
    cases h
    exact ⟨.escaped c v, rest, _, ⟨rfl, hv⟩, hl, rfl, rfl⟩
  split at h
  · rename_i hletter
    have hletter : c = 'u' ∨ c = 'U' := by simpa using hletter
    obtain ⟨⟨cp, l₁⟩, hesc, h⟩ := bind_eq_ok.1 h
    cases h
    obtain ⟨p, rest', n, hp, htext, hvalue, hbreaks, hlen, rfl⟩ := unicodeEscape_eq_ok hletter hesc
    rw [hl₂] at htext
    refine ⟨p, rest', l.column + (2 + n), hp, hl.trans htext, hvalue, ?_⟩
    show (l.advanceBy 2).advanceBy n = _
    rw [advanceBy_advanceBy, ← hlen, hbreaks]
    rfl
  split at h
  · rename_i hcr
    have hcr : c = cr := by simpa using hcr
    subst hcr
    split at h
    · exact absurd h error_ne_ok
    rename_i hlf
    have hrest := rest_of_peek (l := l.advanceBy 2) (c := lf) (by simpa using hlf) (by decide)
    rw [hl₂] at hrest
    cases h
    refine ⟨.lineBreak true, rest.drop 1, 0, rfl, ?_, rfl, ?_⟩
    · rw [hl, hrest]
      rfl
    · rw [advance, advanceBy_advanceBy]
      rfl
  split at h
  · rename_i hlf
    have hlf : c = lf := by simpa using hlf
    subst hlf
    cases h
    exact ⟨.lineBreak false, rest, _, rfl, hl, rfl, rfl⟩
  · exact absurd h error_ne_ok

theorem stringItem_eq_some (hne : l.rest ≠ []) (h : l.stringItem raw = .ok (some (item, l'))) :
    ReadsPiece raw l item l' := by
  obtain ⟨c, rest, hl⟩ := List.exists_cons_of_ne_nil hne
  rw [stringItem, peek_of_rest hl] at h
  split at h
  · rename_i hc
    have hc : c = lf := by simpa using hc
    cases h
    have hplain : c ≠ backslash := hc ▸ by decide
    exact ⟨.byte c, rest, _, hplain, hl, rfl, by rw [Piece.breaks, if_pos hc]; rfl⟩
  rename_i hlf
  split at h
  · rename_i hc
    have hc : c = backslash := by simpa using hc
    subst hc
    dsimp only at h
    split at h
    · cases h
    rename_i hend
    obtain ⟨d, rest', hrest⟩ := List.exists_cons_of_ne_nil (l := rest) (by
      rintro rfl
      exact hend (by simp [isAtEnd, advance, advanceBy, hl]))
    rw [hrest] at hl
    split at h
    · rename_i hraw
      cases h
      have hrest' : l.advance.rest = d :: rest' := by simp [advance, advanceBy, hl]
      have hpeek := peek_of_rest hrest'
      refine ⟨.kept d, rest', l.column + 2, hraw, hl, by rw [hpeek]; rfl, ?_⟩
      exact advanceBy_advanceBy l 1 1
    · rename_i hraw
      cases hesc : l.advance.escape with
      | error e => rw [hesc] at h; cases h
      | ok r =>
        rw [hesc] at h
        cases h
        rw [show raw = false by simpa using hraw]
        exact escape_eq_ok hl hesc
  · rename_i hc
    have hplain : c ≠ backslash := by simpa using hc
    cases h
    exact ⟨.byte c, rest, _, hplain, hl, rfl, by rw [Piece.breaks, if_neg (by simpa using hlf)]; rfl⟩

theorem escape_of_piece (hp : p.Allowed false) (hl : l.rest = p.text ++ rest)
    (hback : l.peek = backslash) :
    ∃ column,
      l.advance.escape =
        .ok (p.value, (l.advanceBy p.text.length).moveTo (l.line + p.breaks) column) := by
  have h₂ : l.advance.advance = l.advanceBy 2 := advanceBy_advanceBy l 1 1
  cases p with
  | byte c => exact absurd ((peek_of_rest hl).symm.trans hback) hp
  | kept c => exact absurd hp (by simp [Piece.Allowed])
  | escaped c v =>
    have hl₁ : l.advance.rest = c :: rest := by simp [advance, advanceBy, hl, Piece.text]
    refine ⟨l.column + 2, ?_⟩
    rw [escape, peek_of_rest hl₁, h₂]
    simp only [hp.2]
    rfl
  | scalar letter digits c =>
    obtain ⟨-, hd⟩ := hp
    have hl₁ : l.advance.rest = letter :: (digits ++ rest) := by
      simp [advance, advanceBy, hl, Piece.text]
    have hl₂ : (l.advanceBy 2).rest = digits ++ rest := by simp [advanceBy, hl, Piece.text]
    refine ⟨l.column + (2 + digits.length), ?_⟩
    rw [escape, peek_of_rest hl₁, h₂]
    simp only [simpleEscape_of_letter hd.isLetter]
    rw [if_pos (by simpa using hd.isLetter), unicodeEscape_scalar hl₂ hd, advanceBy_advanceBy]
    have hlen : (Piece.scalar letter digits c).text.length = 2 + digits.length := Nat.add_comm _ 2
    rw [hlen]
    show Except.ok (utf8 c.toNat, _) = _
    rw [utf8_eq]
    rfl
  | surrogates letter digits letter' digits' c =>
    obtain ⟨-, lead, trail, hd, hd', hlead, htrail, hc⟩ := hp
    have hl₁ : l.advance.rest = letter :: (digits ++ (backslash :: letter' :: digits') ++ rest) := by
      simp [advance, advanceBy, hl, Piece.text]
    have hl₂ : (l.advanceBy 2).rest = digits ++ (backslash :: letter' :: digits') ++ rest := by
      simp [advanceBy, hl, Piece.text]
    refine ⟨l.column + (2 + (digits.length + (2 + digits'.length))), ?_⟩
    rw [escape, peek_of_rest hl₁, h₂]
    simp only [simpleEscape_of_letter hd.isLetter]
    rw [if_pos (by simpa using hd.isLetter), unicodeEscape_surrogates hl₂ hd hd' hlead htrail hc,
      advanceBy_advanceBy]
    have hlen : (Piece.surrogates letter digits letter' digits' c).text.length =
        2 + (digits.length + (2 + digits'.length)) := by
      simp only [Piece.text, List.length_cons, List.length_append]
      omega
    rw [hlen]
    show Except.ok (utf8 c.toNat, _) = _
    rw [utf8_eq]
    rfl
  | lineBreak hasCr =>
    cases hasCr with
    | false =>
      have hl₁ : l.advance.rest = lf :: rest := by simp [advance, advanceBy, hl, Piece.text]
      refine ⟨0, ?_⟩
      rw [escape, peek_of_rest hl₁, h₂]
      rfl
    | true =>
      have hl₁ : l.advance.rest = cr :: lf :: rest := by simp [advance, advanceBy, hl, Piece.text]
      have hl₂ : (l.advanceBy 2).rest = lf :: rest := by simp [advanceBy, hl, Piece.text]
      refine ⟨0, ?_⟩
      rw [escape, peek_of_rest hl₁, h₂]
      show (if (l.advanceBy 2).peek ≠ lf then _ else _) = _
      rw [peek_of_rest hl₂, advance, advanceBy_advanceBy]
      rfl

theorem stringItem_of_piece (hp : p.Allowed raw) (hl : l.rest = p.text ++ rest) :
    ∃ column,
      l.stringItem raw =
      .ok (some (p.value, (l.advanceBy p.text.length).moveTo (l.line + p.breaks) column)) := by
  by_cases hback : l.peek = backslash
  · -- the piece starts with the backslash, so there is a byte behind it
    have hadvance : l.advance.isAtEnd = false := by
      cases p with
      | byte c => exact absurd ((peek_of_rest hl).symm.trans hback) hp
      | lineBreak hasCr => cases hasCr <;> simp [isAtEnd, advance, advanceBy, hl, Piece.text]
      | kept | escaped | scalar | surrogates => simp [isAtEnd, advance, advanceBy, hl, Piece.text]
    cases raw with
    | false =>
      obtain ⟨column, hesc⟩ := escape_of_piece hp hl hback
      refine ⟨column, ?_⟩
      rw [stringItem, hback, if_neg (by decide), if_pos (by decide)]
      simp only [hadvance, hesc]
      rfl
    | true =>
      cases p with
      | byte c => exact absurd ((peek_of_rest hl).symm.trans hback) hp
      | kept c =>
        have hl₁ : l.advance.rest = c :: rest := by simp [advance, advanceBy, hl, Piece.text]
        refine ⟨l.column + 2, ?_⟩
        rw [stringItem, hback, if_neg (by decide), if_pos (by decide)]
        simp only [hadvance, peek_of_rest hl₁]
        exact congrArg (fun m => Except.ok (some ([backslash, c], m))) (advanceBy_advanceBy l 1 1)
      | escaped | scalar | surrogates => exact absurd hp.1 (by decide)
      | lineBreak => exact absurd hp (by simp [Piece.Allowed])
  · cases p with
    | byte c =>
      have hpeek := peek_of_rest hl
      refine ⟨if c = lf then 1 else l.column + 1, ?_⟩
      rw [stringItem, hpeek]
      by_cases hc : c = lf
      · rw [if_pos (by simpa using hc), if_pos hc, Piece.breaks, if_pos hc]
        rfl
      · have hplain : c ≠ backslash := hp
        rw [if_neg (by simpa using hc), if_neg (by simpa using hplain), if_neg hc, Piece.breaks,
          if_neg hc]
        rfl
    | kept | escaped | scalar | surrogates => exact absurd (peek_of_rest hl) hback
    | lineBreak hasCr => cases hasCr <;> exact absurd (peek_of_rest hl) hback

end Rounds

/-! ## 5. Literals -/

def closing (quote : UInt8) (triple : Bool) (rest : Bytes) : Bool :=
  rest.getD 0 0 = quote && (!triple || (rest.getD 1 0 = quote && rest.getD 2 0 = quote))

/-- The body of a literal: pieces up to the first place where its quote closes it. -/
inductive Body (quote : UInt8) (triple raw : Bool) : Bytes → List Piece → Bytes → Prop
  | closed {rest : Bytes} (close : closing quote triple rest = true) : Body quote triple raw rest [] rest
  | piece {p : Piece} {rest out : Bytes} {ps : List Piece}
    (inside : closing quote triple (p.text ++ rest) = false)
      (allowed : p.Allowed raw) (more : Body quote triple raw rest ps out) :
      Body quote triple raw (p.text ++ rest) (p :: ps) out

def Piece.texts (ps : List Piece) : Bytes := ps.flatMap text

def Piece.values (ps : List Piece) : Bytes := ps.flatMap value

def Piece.breaksIn (ps : List Piece) : Nat := (ps.map breaks).sum

@[simp] theorem Piece.texts_cons (p : Piece) (ps : List Piece) :
    texts (p :: ps) = p.text ++ texts ps :=
  List.flatMap_cons

@[simp] theorem Piece.values_cons (p : Piece) (ps : List Piece) :
    values (p :: ps) = p.value ++ values ps :=
  List.flatMap_cons

@[simp] theorem Piece.breaksIn_cons (p : Piece) (ps : List Piece) :
    breaksIn (p :: ps) = p.breaks + breaksIn ps := by
  simp only [breaksIn, List.map_cons, List.sum_cons]

theorem Piece.text_ne_nil (p : Piece) : p.text ≠ [] := by
  cases p with
  | lineBreak hasCr => cases hasCr <;> exact List.cons_ne_nil _ _
  | byte | kept | escaped | scalar | surrogates => exact List.cons_ne_nil _ _

section Bodies

variable {quote : UInt8} {triple raw : Bool} {l l' : Lexer} {value v rest out : Bytes}
  {ps : List Piece}

section

variable (h : Body quote triple raw rest ps out)
include h

theorem Body.eq_append : rest = Piece.texts ps ++ out := by
  induction h with
  | closed => rfl
  | piece _ _ _ ih =>
    rw [ih]
    exact (List.append_assoc _ _ _).symm

theorem Body.text_subset {p : Piece} (hp : p ∈ ps) : p.text ⊆ rest := by
  rw [h.eq_append]
  exact fun c hc => List.mem_append_left _ (List.mem_flatMap.2 ⟨p, hp, hc⟩)

theorem Body.closes : closing quote triple out = true := by
  induction h with
  | closed close => exact close
  | piece _ _ _ ih => exact ih

theorem Body.allowed : ∀ p ∈ ps, p.Allowed raw := by
  induction h with
  | closed => exact List.forall_mem_nil _
  | piece _ allowed _ ih => exact List.forall_mem_cons.2 ⟨allowed, ih⟩

end

theorem moveTo_piece (l : Lexer) (p : Piece) (ps : List Piece) (column column' : Nat) :
    (((l.advanceBy p.text.length).moveTo (l.line + p.breaks) column).advanceBy
        (Piece.texts ps).length).moveTo (l.line + p.breaks + Piece.breaksIn ps) column' =
      (l.advanceBy (Piece.texts (p :: ps)).length).moveTo
        (l.line + Piece.breaksIn (p :: ps)) column' := by
  rw [Piece.texts_cons, List.length_append, ← advanceBy_advanceBy, Piece.breaksIn_cons, Nat.add_assoc]
  rfl

theorem scanStringBody_eq_some :
    ∀ {fuel : Nat} {value : Bytes} {l : Lexer},
      scanStringBody quote triple raw fuel value l = .ok (some (v, l')) →
      ∃ ps column, Body quote triple raw l.rest ps l'.rest ∧ v = value ++ Piece.values ps ∧
      l' = (l.advanceBy (Piece.texts ps).length).moveTo (l.line + Piece.breaksIn ps) column
  | 0, _, _, h => by cases h
  | fuel + 1, value, l, h => by
      rw [scanStringBody] at h
      split at h
      · cases h
      rename_i hend
      split at h
      · rename_i hclose
        cases h
        exact ⟨[], l'.column, .closed hclose, (List.append_nil _).symm, rfl⟩
      rename_i hclose
      obtain ⟨r, hitem, h⟩ := bind_eq_ok.1 h
      cases r with
      | none => cases h
      | some r =>
        obtain ⟨item, l₁⟩ := r
        have hne : l.rest ≠ [] := by
          rintro hnil
          exact hend (by rw [isAtEnd, hnil]; rfl)
        obtain ⟨p, rest, column, hp, hrest, rfl, rfl⟩ := stringItem_eq_some hne hitem
        obtain ⟨ps, column', hbody, rfl, hl'⟩ := scanStringBody_eq_some h
        have hbody : Body quote triple raw rest ps l'.rest := by
          simpa [advanceBy, moveTo, hrest] using hbody
        refine ⟨p :: ps, column', ?_, ?_, ?_⟩
        · rw [hrest]
          have hinside : l.atClosing quote triple = false := by simpa using hclose
          exact .piece (hrest ▸ hinside) hp hbody
        · rw [Piece.values_cons, List.append_assoc]
        · rw [hl', ← moveTo_piece]
          rfl

theorem scanStringBody_inside {fuel : Nat} (hne : l.rest ≠ [])
    (inside : closing quote triple l.rest = false) :
    scanStringBody quote triple raw (fuel + 1) value l = (do
      match ← l.stringItem raw with
      | none => .ok none
      | some (item, l) => scanStringBody quote triple raw fuel (value ++ item) l) := by
  have hclose : l.atClosing quote triple = false := inside
  rw [scanStringBody, if_neg (by simpa [isAtEnd] using hne), hclose]
  exact if_neg Bool.false_ne_true

theorem scanStringBody_piece {fuel : Nat} (hl : l.rest = p.text ++ rest)
    (inside : closing quote triple (p.text ++ rest) = false) (allowed : p.Allowed raw) :
    ∃ column, ((l.advanceBy p.text.length).moveTo (l.line + p.breaks) column).rest = rest ∧
      scanStringBody quote triple raw (fuel + 1) value l =
        scanStringBody quote triple raw fuel (value ++ p.value)
        ((l.advanceBy p.text.length).moveTo (l.line + p.breaks) column) := by
  obtain ⟨column, hitem⟩ := stringItem_of_piece allowed hl
  refine ⟨column, by simp [advanceBy, moveTo, hl], ?_⟩
  rw [scanStringBody_inside (by simp [hl, p.text_ne_nil]) (hl ▸ inside), hitem]
  rfl

theorem scanStringBody_of_body (hquote : quote ≠ 0) (h : Body quote triple raw rest ps out) :
    ∀ (fuel : Nat) (value : Bytes) (l : Lexer), l.rest = rest → rest.length ≤ fuel → ∃ column,
      scanStringBody quote triple raw fuel value l = .ok (some (value ++ Piece.values ps,
        (l.advanceBy (Piece.texts ps).length).moveTo (l.line + Piece.breaksIn ps) column)) := by
  induction h with
  | closed close =>
    rintro fuel value l rfl hfuel
    have hne : l.rest ≠ [] := by
      rintro hnil
      rw [hnil, closing, List.getD_nil] at close
      exact hquote (by simpa using (Bool.and_eq_true_iff.1 close).1 : (0 : UInt8) = quote).symm
    obtain ⟨fuel, rfl⟩ := Nat.exists_eq_add_of_lt (Nat.lt_of_lt_of_le (List.length_pos_iff.2 hne) hfuel)
    refine ⟨l.column, ?_⟩
    rw [Nat.zero_add, scanStringBody, if_neg (by simpa [isAtEnd] using hne),
      if_pos (show l.atClosing quote triple = true from close)]
    exact congrArg (fun v => Except.ok (some (v, l))) (List.append_nil value).symm
  | @piece p rest out ps inside allowed more ih =>
    rintro fuel value l hl hfuel
    have hlen := List.length_pos_iff.2 p.text_ne_nil
    rw [List.length_append] at hfuel
    obtain ⟨fuel, rfl⟩ := Nat.exists_eq_succ_of_ne_zero (show fuel ≠ 0 by omega)
    obtain ⟨column, hrest, hround⟩ := scanStringBody_piece hl inside allowed
    obtain ⟨column', hmore⟩ := ih fuel (value ++ p.value) _ hrest (by omega)
    refine ⟨column', ?_⟩
    rw [hround, hmore, ← moveTo_piece, Piece.values_cons, List.append_assoc]
    rfl

end Bodies

/-! ## 6. `scan_string` -/

def opensTriple (quote : UInt8) (rest : Bytes) : Bool :=
  rest.getD 0 0 = quote && rest.getD 1 0 = quote

-- what stands of the opening quotes behind the first one, and the closing quotes
def openLength (triple : Bool) : Nat := if triple then 2 else 0

def closeLength (triple : Bool) : Nat := if triple then 3 else 1

/-- `rest`, behind an opening quote, is the rest of a literal with these pieces, then `out`. -/
def IsLiteral (quote : UInt8) (raw : Bool) (rest : Bytes) (ps : List Piece) (out : Bytes) : Prop :=
  Body quote (opensTriple quote rest) raw (rest.drop (openLength (opensTriple quote rest))) ps out

def literalLength (quote : UInt8) (rest : Bytes) (ps : List Piece) : Nat :=
  openLength (opensTriple quote rest) + (Piece.texts ps).length + closeLength (opensTriple quote rest)

section Literals

variable {l l' : Lexer} {quote : UInt8} {type : TokenType} {raw : Bool} {ps : List Piece}
  {out : Bytes}

theorem opensTriple_eq (l : Lexer) (quote : UInt8) :
    opensTriple quote l.rest = (l.peek = quote && l.peekNext = quote) := rfl

theorem advance_openLength (l : Lexer) (triple : Bool) :
    (if triple = true then l.advanceBy 2 else l) = l.advanceBy (openLength triple) := by
  cases triple <;> rfl

theorem scanString_eq_ok (hquote : l.lexeme.headD 0 = quote) (h : l.scanString type raw = .ok l') :
    ∃ ps out column, IsLiteral quote raw l.rest ps out ∧
      l' = ((l.advanceBy (literalLength quote l.rest ps)).moveTo (l.line + Piece.breaksIn ps)
          column).addValue type
        (.text (Piece.values ps)) := by
  subst hquote
  rw [scanString] at h
  obtain ⟨r, hbody, h⟩ := bind_eq_ok.1 h
  rw [← opensTriple_eq, advance_openLength] at hbody
  cases r with
  | none => cases h
  | some r =>
    obtain ⟨v, l₁⟩ := r
    obtain ⟨ps, column, hps, rfl, rfl⟩ := scanStringBody_eq_some hbody
    cases h
    refine ⟨ps, _, column + closeLength (opensTriple (l.lexeme.headD 0) l.rest), hps, ?_⟩
    rw [literalLength, ← advanceBy_advanceBy, ← advanceBy_advanceBy]
    rfl

theorem scanString_of_literal (type : TokenType) (hquote : l.lexeme.headD 0 = quote)
    (hne : quote ≠ 0) (h : IsLiteral quote raw l.rest ps out) :
    ∃ column, l.scanString type raw =
      .ok (((l.advanceBy (literalLength quote l.rest ps)).moveTo (l.line + Piece.breaksIn ps)
          column).addValue type
        (.text (Piece.values ps))) := by
  subst hquote
  obtain ⟨column, hbody⟩ := scanStringBody_of_body hne h
    (l.advanceBy (openLength (opensTriple (l.lexeme.headD 0) l.rest))).rest.length []
    (l.advanceBy (openLength (opensTriple (l.lexeme.headD 0) l.rest))) rfl (Nat.le_refl _)
  refine ⟨column + closeLength (opensTriple (l.lexeme.headD 0) l.rest), ?_⟩
  rw [scanString, ← opensTriple_eq, advance_openLength, hbody, literalLength, ← advanceBy_advanceBy,
    ← advanceBy_advanceBy]
  rfl

theorem cons_of_getD {bs : Bytes} (hc : c ≠ 0) (h : bs.getD 0 0 = c) : bs = c :: bs.drop 1 := by
  cases bs with
  | nil => exact absurd h.symm hc
  | cons d bs => exact congrArg (· :: bs) h

theorem replicate_of_closing {triple : Bool} (hne : quote ≠ 0)
    (h : closing quote triple out = true) :
    ∃ out', out = List.replicate (closeLength triple) quote ++ out' := by
  simp only [closing, Bool.and_eq_true, Bool.or_eq_true, Bool.not_eq_true', decide_eq_true_eq] at h
  cases triple with
  | false => exact ⟨_, cons_of_getD hne h.1⟩
  | true =>
    obtain ⟨h0, h1, h2⟩ : out.getD 0 0 = quote ∧ out.getD 1 0 = quote ∧ out.getD 2 0 = quote := by
      simpa using h
    have e0 := cons_of_getD hne h0
    have e1 : out.drop 1 = _ := cons_of_getD hne (by simpa [List.getD_eq_getElem?_getD] using h1)
    have e2 : out.drop 2 = _ := cons_of_getD hne (by simpa [List.getD_eq_getElem?_getD] using h2)
    rw [List.drop_drop] at e1 e2
    exact ⟨out.drop 3, by rw [e0, e1, e2]; simp [closeLength, List.replicate]⟩

theorem replicate_of_opensTriple (rest : Bytes) (hne : quote ≠ 0) :
    rest = List.replicate (openLength (opensTriple quote rest)) quote ++
      rest.drop (openLength (opensTriple quote rest)) := by
  cases h : opensTriple quote rest with
  | false => rfl
  | true =>
    simp only [opensTriple, Bool.and_eq_true, decide_eq_true_eq] at h
    have e0 := cons_of_getD hne h.1
    have e1 : rest.drop 1 = _ := cons_of_getD hne (by simpa [List.getD_eq_getElem?_getD] using h.2)
    rw [List.drop_drop] at e1
    show rest = quote :: quote :: rest.drop 2
    rw [← e1, ← e0]

def quoted (quote : UInt8) (rest : Bytes) (ps : List Piece) : Bytes :=
  List.replicate (openLength (opensTriple quote rest)) quote ++ Piece.texts ps ++
    List.replicate (closeLength (opensTriple quote rest)) quote

theorem length_quoted : (quoted quote rest ps).length = literalLength quote rest ps := by
  simp only [quoted, literalLength, List.length_append, List.length_replicate]

theorem IsLiteral.eq_quoted (hne : quote ≠ 0) (h : IsLiteral quote raw rest ps out) :
    ∃ out', rest = quoted quote rest ps ++ out' := by
  obtain ⟨out', hout⟩ := replicate_of_closing hne h.closes
  refine ⟨out', ?_⟩
  have hopen := replicate_of_opensTriple rest hne
  rw [h.eq_append, hout] at hopen
  simpa only [quoted, List.append_assoc] using hopen

theorem quoted_eq_concat (quote : UInt8) (rest : Bytes) (ps : List Piece) :
    ∃ init, quoted quote rest ps = init ++ [quote] := by
  obtain ⟨n, hn⟩ : ∃ n, closeLength (opensTriple quote rest) = n + 1 := by
    cases opensTriple quote rest <;> exact ⟨_, rfl⟩
  rw [quoted, hn, List.replicate_succ', ← List.append_assoc]
  exact ⟨_, rfl⟩

theorem IsLiteral.take_eq (hne : quote ≠ 0) (h : IsLiteral quote raw rest ps out) :
    rest.take (literalLength quote rest ps) = quoted quote rest ps := by
  obtain ⟨out', hout⟩ := h.eq_quoted hne
  rw [← length_quoted]
  exact (List.prefix_iff_eq_take.1 ⟨out', hout.symm⟩).symm

end Literals

end Lexing
