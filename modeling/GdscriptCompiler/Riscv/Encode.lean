import GdscriptCompiler.Riscv.PatchFields

/-! # Encode — the instruction encoders -/

namespace Riscv

open Lib

/-! ## 1. The encoders -/

-- a field moved to its place
def placed {n : Nat} (field : BitVec n) (shift : Nat) : Word := field.setWidth 32 <<< shift

-- `(imm >> shift) & mask`
def immBits (imm : Word) (shift : Nat) (mask : Word) : Word := imm.sshiftRight shift &&& mask

section Encoders

variable (opcode : BitVec 7) (rd rs1 rs2 rs3 : BitVec 5) (funct3 : BitVec 3) (funct7 : BitVec 7)
  (funct2 : BitVec 2) (imm : Word)

def emitRType : Word :=
  placed opcode 0 ||| placed rd 7 ||| placed funct3 12 ||| placed rs1 15 ||| placed rs2 20 |||
    placed funct7 25

-- the bit fields of the union, from the low end
def emitR4Type : Word :=
  placed opcode 0 ||| placed rd 7 ||| placed funct3 12 ||| placed rs1 15 ||| placed rs2 20 |||
    placed funct2 25 |||
    placed rs3 27

def emitIType : Except String Word := do
  checkImmediate "I-type" (imm.signExtend 64) iTypeImmBits
  return placed opcode 0 ||| placed rd 7 ||| placed funct3 12 ||| placed rs1 15 |||
    ((imm &&& 0xFFF) <<< 20)

def emitSType : Except String Word := do
  checkImmediate "S-type (store)" (imm.signExtend 64) iTypeImmBits
  let immLo := imm &&& 0x1F
  let immHi := immBits imm 5 0x7F
  return placed opcode 0 ||| (immLo <<< 7) ||| placed funct3 12 ||| placed rs1 15 ||| placed rs2
    20 ||| (immHi <<< 25)

def emitBType : Except String Word := do
  checkDisplacement "B-type (branch)" (imm.signExtend 64) bTypeImmBits
  let imm12 := immBits imm 12 1
  let imm10_5 := immBits imm 5 0x3F
  let imm4_1 := immBits imm 1 0xF
  let imm11 := immBits imm 11 1
  return placed opcode 0 ||| (imm11 <<< 7) ||| (imm4_1 <<< 8) ||| placed funct3 12 ||| placed rs1
    15 ||| placed rs2 20 ||| (imm10_5 <<< 25) ||| (imm12 <<< 31)

def emitUType : Except String Word :=
  if imm &&& 0xFFF ≠ 0 then
    .error ("U-type immediate " ++ toString imm.toNat ++
      " has bits below bit 12, which the instruction cannot encode")
  else .ok (placed opcode 0 ||| placed rd 7 ||| (imm &&& 0xFFFFF000))

def emitJType : Except String Word := do
  checkDisplacement "J-type (jump)" (imm.signExtend 64) jTypeImmBits
  let imm20 := immBits imm 20 1
  let imm10_1 := immBits imm 1 0x3FF
  let imm11 := immBits imm 11 1
  let imm19_12 := immBits imm 12 0xFF
  return placed opcode 0 ||| placed rd 7 ||| (imm19_12 <<< 12) ||| (imm11 <<< 20) |||
    (imm10_1 <<< 21) ||| (imm20 <<< 31)

end Encoders

/-! ## 2. What they encode -/

inductive Encoding where
  | r (opcode : BitVec 7) (rd : BitVec 5) (funct3 : BitVec 3) (rs1 rs2 : BitVec 5) (funct7 : BitVec 7)
  | r4 (opcode : BitVec 7) (rd : BitVec 5) (funct3 : BitVec 3) (rs1 rs2 rs3 : BitVec 5)
    (funct2 : BitVec 2)
  | i (opcode : BitVec 7) (rd : BitVec 5) (funct3 : BitVec 3) (rs1 : BitVec 5) (imm : Word)
  | s (opcode : BitVec 7) (funct3 : BitVec 3) (rs1 rs2 : BitVec 5) (imm : Word)
  | b (opcode : BitVec 7) (funct3 : BitVec 3) (rs1 rs2 : BitVec 5) (imm : Word)
  | u (opcode : BitVec 7) (rd : BitVec 5) (imm : Word)
  | j (opcode : BitVec 7) (rd : BitVec 5) (imm : Word)

namespace Encoding

def encode : Encoding → Except String Word
  | r opcode rd funct3 rs1 rs2 funct7 => .ok (emitRType opcode rd rs1 rs2 funct3 funct7)
  | r4 opcode rd funct3 rs1 rs2 rs3 funct2 => .ok (emitR4Type opcode rd rs1 rs2 rs3 funct3 funct2)
  | i opcode rd funct3 rs1 imm => emitIType opcode rd rs1 funct3 imm
  | s opcode funct3 rs1 rs2 imm => emitSType opcode rs1 rs2 funct3 imm
  | b opcode funct3 rs1 rs2 imm => emitBType opcode rs1 rs2 funct3 imm
  | u opcode rd imm => emitUType opcode rd imm
  | j opcode rd imm => emitJType opcode rd imm

def Representable : Encoding → Prop
  | r .. | r4 .. => True
  | i _ _ _ _ imm | s _ _ _ _ imm => -2 ^ 11 ≤ imm.toInt ∧ imm.toInt < 2 ^ 11
  | b _ _ _ _ imm => 2 ∣ imm.toInt ∧ -2 ^ 12 ≤ imm.toInt ∧ imm.toInt < 2 ^ 12
  | j _ _ imm => 2 ∣ imm.toInt ∧ -2 ^ 20 ≤ imm.toInt ∧ imm.toInt < 2 ^ 20
  | u _ _ imm => 2 ^ 12 ∣ imm.toNat

-- imm[11:5] above the registers, imm[4:0] below them
def immS (w : Word) : BitVec 64 :=
  (w.extractLsb' 25 7 ++ w.extractLsb' 7 5 : BitVec 12).signExtend 64

/-- The decoding of a word in the format has these fields and this immediate. -/
def Decodes (w : Word) : Encoding → Prop
  | r opcode rd funct3 rs1 rs2 funct7 =>
    w.extractLsb' 0 7 = opcode ∧ rdOf w = rd ∧ funct3Of w = funct3 ∧ rs1Of w = rs1 ∧
      rs2Of w = rs2 ∧ w.extractLsb' 25 7 = funct7
  | r4 opcode rd funct3 rs1 rs2 rs3 funct2 =>
    w.extractLsb' 0 7 = opcode ∧ rdOf w = rd ∧ funct3Of w = funct3 ∧
      rs1Of w = rs1 ∧ rs2Of w = rs2 ∧ w.extractLsb' 27 5 = rs3 ∧ w.extractLsb' 25 2 = funct2
  | i opcode rd funct3 rs1 imm =>
    w.extractLsb' 0 7 = opcode ∧ rdOf w = rd ∧ funct3Of w = funct3 ∧ rs1Of w = rs1 ∧
      immI w = imm.signExtend 64
  | s opcode funct3 rs1 rs2 imm =>
    w.extractLsb' 0 7 = opcode ∧ funct3Of w = funct3 ∧ rs1Of w = rs1 ∧ rs2Of w = rs2 ∧
      immS w = imm.signExtend 64
  | b opcode funct3 rs1 rs2 imm =>
    w.extractLsb' 0 7 = opcode ∧ funct3Of w = funct3 ∧ rs1Of w = rs1 ∧ rs2Of w = rs2 ∧
      immB w = imm.signExtend 64
  | u opcode rd imm => w.extractLsb' 0 7 = opcode ∧ rdOf w = rd ∧ immU w = imm.signExtend 64
  | j opcode rd imm => w.extractLsb' 0 7 = opcode ∧ rdOf w = rd ∧ immJ w = imm.signExtend 64

end Encoding

/-! ## 3. Decoding -/

section Fields

variable (opcode : BitVec 7) (rd rs1 rs2 : BitVec 5) (funct3 : BitVec 3) (funct7 : BitVec 7)
  (imm : Word)

theorem emitRType_decodes :
    Encoding.Decodes (emitRType opcode rd rs1 rs2 funct3 funct7)
      (.r opcode rd funct3 rs1 rs2 funct7) := by
  unfold emitRType placed Encoding.Decodes rdOf funct3Of rs1Of rs2Of
  refine ⟨?_, ?_, ?_, ?_, ?_, ?_⟩ <;>
    exact BitVec.eq_of_getLsbD_eq fun i hi => by interval_cases i <;> simp

theorem extract_eq_of_opcodeOf {x y : Word} (h : opcodeOf x = opcodeOf y) :
    x.extractLsb' 0 7 = y.extractLsb' 0 7 := by
  refine BitVec.eq_of_getLsbD_eq fun i hi => ?_
  have hbit := congrArg (BitVec.getLsbD · i) h
  unfold opcodeOf at hbit
  interval_cases i <;> simpa using hbit

-- the other formats put bits of the immediate where an R-type has registers and functions
theorem iType_eq :
    placed opcode 0 ||| placed rd 7 ||| placed funct3 12 ||| placed rs1 15 |||
      ((imm &&& 0xFFF) <<< 20) =
      patchJalr (emitRType opcode rd rs1 0 funct3 0) (imm.signExtend 64) := by
  unfold emitRType placed patchJalr lowerField
  exact BitVec.eq_of_getLsbD_eq fun i hi => by interval_cases i <;> simp [BitVec.getElem_signExtend]

theorem sType_eq :
    placed opcode 0 ||| ((imm &&& 0x1F) <<< 7) ||| placed funct3 12 ||| placed rs1 15 |||
        placed rs2 20 ||| (immBits imm 5 0x7F <<< 25) =
      emitRType opcode (imm.extractLsb' 0 5) rs1 rs2 funct3 (imm.extractLsb' 5 7) := by
  unfold emitRType placed immBits
  exact BitVec.eq_of_getLsbD_eq fun i hi => by interval_cases i <;> simp [BitVec.getElem_sshiftRight]

theorem bType_eq :
    placed opcode 0 ||| (immBits imm 11 1 <<< 7) ||| (immBits imm 1 0xF <<< 8) |||
        placed funct3 12 ||| placed rs1 15 ||| placed rs2 20 ||| (immBits imm 5 0x3F <<< 25) |||
        (immBits imm 12 1 <<< 31) =
      patchBranch (emitRType opcode 0 rs1 rs2 funct3 0) (imm.signExtend 64) := by
  unfold emitRType placed immBits patchBranch offsetField instrField opcodeOf
  exact BitVec.eq_of_getLsbD_eq fun i hi => by
    interval_cases i <;> simp [BitVec.getElem_sshiftRight, BitVec.getElem_signExtend]

theorem jType_eq :
    placed opcode 0 ||| placed rd 7 ||| (immBits imm 12 0xFF <<< 12) |||
        (immBits imm 11 1 <<< 20) ||| (immBits imm 1 0x3FF <<< 21) ||| (immBits imm 20 1 <<< 31) =
      patchJal (emitRType opcode rd 0 0 0 0) (imm.signExtend 64) := by
  unfold emitRType placed immBits patchJal offsetField instrField opcodeOf
  exact BitVec.eq_of_getLsbD_eq fun i hi => by
    interval_cases i <;> simp [BitVec.getElem_sshiftRight, BitVec.getElem_signExtend]

theorem fits_iff_toInt (k : Nat) :
    fitsInSigned (imm.signExtend 64).toInt k = true ↔
      -2 ^ (k - 1) ≤ imm.toInt ∧ imm.toInt < 2 ^ (k - 1) := by
  rw [fitsInSigned, Bool.and_eq_true, decide_eq_true_iff, decide_eq_true_iff,
    BitVec.toInt_signExtend_of_le (by decide)]

theorem even_iff : imm.signExtend 64 &&& 1 = 0 ↔ 2 ∣ imm.toInt := by
  have hbit : imm.getLsbD 0 = false ↔ 2 ∣ imm.toInt := by
    rw [BitVec.getLsbD, Nat.testBit_zero, BitVec.toInt_eq_toNat_cond, decide_eq_false_iff_not]
    split <;> omega
  rw [← hbit]
  constructor
  · intro h
    simpa [BitVec.getElem_signExtend] using congrArg (BitVec.getLsbD · 0) h
  · intro h
    refine BitVec.eq_of_getLsbD_eq fun i hi => ?_
    rcases Nat.eq_zero_or_pos i with rfl | hpos
    · simpa [BitVec.getElem_signExtend] using h
    · simp [Nat.pos_iff_ne_zero.mp hpos]

end Fields

/-! ## 4. Faithful or refused -/

namespace Encoding

/-- The encoder made a word that decodes to what it was given, or refused what no word can hold. -/
inductive Answered (e : Encoding) : Except String Word → Prop
  | word {w : Word} (representable : e.Representable) (decodes : Decodes w e) : Answered e (.ok w)
  | refused {message : String} (unrepresentable : ¬ e.Representable) : Answered e (.error message)

variable {e : Encoding} {w : Word}

theorem answered_immediate {what : String} {imm : Word}
    (hfits : fitsInSigned (imm.signExtend 64).toInt iTypeImmBits = true ↔ e.Representable)
    (hdecodes : fitsInSigned (imm.signExtend 64).toInt iTypeImmBits = true → Decodes w e) :
    Answered e (do checkImmediate what (imm.signExtend 64) iTypeImmBits; return w) := by
  unfold checkImmediate
  split
  · rename_i h
    exact .word (hfits.mp h) (hdecodes h)
  · rename_i h
    exact .refused fun hrep => h (hfits.mpr hrep)

theorem answered_displacement {what : String} {imm : Word} {k : Nat}
    (hfits : 2 ∣ imm.toInt ∧ fitsInSigned (imm.signExtend 64).toInt k = true ↔ e.Representable)
    (hdecodes : imm.signExtend 64 &&& 1 = 0 → fitsInSigned (imm.signExtend 64).toInt k = true →
        Decodes w e) :
    Answered e (do checkDisplacement what (imm.signExtend 64) k; return w) := by
  unfold checkDisplacement
  by_cases heven : imm.signExtend 64 &&& 1 = 0
  · rw [if_neg (not_not.mpr heven)]
    split
    · rename_i h
      exact .word (hfits.mp ⟨(even_iff imm).mp heven, h⟩) (hdecodes heven h)
    · rename_i h
      exact .refused fun hrep => h (hfits.mpr hrep).2
  · rw [if_pos heven]
    exact .refused fun hrep => heven ((even_iff imm).mpr (hfits.mpr hrep).1)

theorem encode_answered (e : Encoding) : Answered e e.encode := by
  cases e with
  | r opcode rd funct3 rs1 rs2 funct7 => exact .word trivial (emitRType_decodes ..)
  | r4 opcode rd funct3 rs1 rs2 rs3 funct2 =>
    refine .word trivial ?_
    unfold emitR4Type placed Decodes rdOf funct3Of rs1Of rs2Of
    refine ⟨?_, ?_, ?_, ?_, ?_, ?_, ?_⟩ <;> exact BitVec.eq_of_getLsbD_eq fun i hi => by
      interval_cases i <;> simp
  | i opcode rd funct3 rs1 imm =>
    refine answered_immediate (fits_iff_toInt imm iTypeImmBits) fun hfits => ?_
    obtain ⟨hopcode, hrd, hfunct3, hrs1, -, -⟩ := emitRType_decodes opcode rd rs1 0 funct3 0
    obtain ⟨hopcode', hrd', hfunct3', hrs1'⟩ := fields_of_low
      (low_patchJalr (emitRType opcode rd rs1 0 funct3 0) (imm.signExtend 64))
    rw [iType_eq]
    refine ⟨(extract_eq_of_opcodeOf hopcode').trans hopcode, hrd'.trans hrd, hfunct3'.trans hfunct3,
      hrs1'.trans hrs1, ?_⟩
    rw [immI, imm_patchJalr]
    exact signExtend_extractLsb'_of_fits (by decide) (by decide) hfits
  | s opcode funct3 rs1 rs2 imm =>
    refine answered_immediate (fits_iff_toInt imm iTypeImmBits) fun hfits => ?_
    rw [sType_eq]
    obtain ⟨hopcode, hlow, hfunct3, hrs1, hrs2, hhigh⟩ :=
      emitRType_decodes opcode (imm.extractLsb' 0 5) rs1 rs2 funct3 (imm.extractLsb' 5 7)
    refine ⟨hopcode, hfunct3, hrs1, hrs2, ?_⟩
    unfold rdOf at hlow
    have hsame : imm.extractLsb' 0 12 = (imm.signExtend 64).extractLsb' 0 12 :=
      BitVec.eq_of_getLsbD_eq fun i hi => by interval_cases i <;> simp [BitVec.getElem_signExtend]
    rw [immS, hlow, hhigh, BitVec.extractLsb'_append_extractLsb'_eq_extractLsb' (by rfl), hsame]
    exact signExtend_extractLsb'_of_fits (by decide) (by decide) hfits
  | b opcode funct3 rs1 rs2 imm =>
    refine answered_displacement (and_congr_right' (fits_iff_toInt imm bTypeImmBits))
      fun heven hfits => ?_
    rw [bType_eq]
    obtain ⟨hopcode, -, hfunct3, hrs1, hrs2, -⟩ := emitRType_decodes opcode 0 rs1 rs2 funct3 0
    exact ⟨(extract_eq_of_opcodeOf (opcodeOf_patchBranch _ _)).trans hopcode,
      (funct3Of_patchBranch _ _).trans hfunct3,
      (rs1Of_patchBranch _ _).trans hrs1, (rs2Of_patchBranch _ _).trans hrs2,
      immB_patchBranch _ heven hfits⟩
  | u opcode rd imm =>
    have hlow : imm &&& 0xFFF = 0 ↔ 2 ^ 12 ∣ imm.toNat := by
      have hmask : (imm &&& 0xFFF).toNat = imm.toNat % 2 ^ 12 :=
        Nat.and_two_pow_sub_one_eq_mod imm.toNat 12
      rw [← BitVec.toNat_inj, hmask]
      exact (Nat.dvd_iff_mod_eq_zero ..).symm
    change Answered _ (emitUType opcode rd imm)
    unfold emitUType
    split
    · rename_i h
      exact .refused fun hrep => h (hlow.mpr hrep)
    · rename_i h
      refine .word (hlow.mp (not_not.mp h)) ?_
      have hhigh : (placed opcode 0 ||| placed rd 7 ||| (imm &&& 0xFFFFF000)).extractLsb' 12
        20 = imm.extractLsb' 12 20 := by
        unfold placed
        exact BitVec.eq_of_getLsbD_eq fun i hi => by interval_cases i <;> simp
      have hzero : 0#12 = imm.extractLsb' 0 12 := BitVec.eq_of_getLsbD_eq fun i hi => by
        have hbit := congrArg (BitVec.getLsbD · i) (not_not.mp h)
        interval_cases i <;> simpa using hbit.symm
      refine ⟨?_, ?_, congrArg (BitVec.signExtend 64) ?_⟩
      · unfold placed
        exact BitVec.eq_of_getLsbD_eq fun i hi => by interval_cases i <;> simp
      · unfold placed rdOf
        exact BitVec.eq_of_getLsbD_eq fun i hi => by interval_cases i <;> simp
      · rw [hhigh, hzero, BitVec.extractLsb'_append_extractLsb'_eq_extractLsb' (by rfl)]
        exact BitVec.extractLsb'_eq_self
  | j opcode rd imm =>
    refine answered_displacement (and_congr_right' (fits_iff_toInt imm jTypeImmBits))
      fun heven hfits => ?_
    rw [jType_eq]
    obtain ⟨hopcode, hrd, -⟩ := emitRType_decodes opcode rd 0 0 0 0
    exact ⟨(extract_eq_of_opcodeOf (opcodeOf_patchJal _ _)).trans hopcode, (rdOf_patchJal _ _).trans hrd,
      immJ_patchJal _ heven hfits⟩

theorem decodes_of_encode (h : e.encode = .ok w) : Decodes w e := by
  have hanswered := encode_answered e
  rw [h] at hanswered
  cases hanswered
  assumption

def SameFormat : Encoding → Encoding → Prop
  | r .., r .. | r4 .., r4 .. | i .., i .. | s .., s .. | b .., b .. | u .., u .. | j .., j .. => True
  | _, _ => False

theorem decodes_inj {e' : Encoding} (hformat : SameFormat e e') (h : Decodes w e)
    (h' : Decodes w e') :
    e = e' := by
  have himm : ∀ {a b : Word}, a.signExtend 64 = b.signExtend 64 → a = b := fun h =>
    BitVec.eq_of_toInt_eq (by
      rw [← BitVec.toInt_signExtend_of_le (v := 64) (by decide), h,
        BitVec.toInt_signExtend_of_le (by decide)])
  cases e <;> cases e' <;> try cases hformat
  all_goals
    simp only [Decodes] at h h'
    simp only [r.injEq, r4.injEq, i.injEq, s.injEq, b.injEq, u.injEq, j.injEq]
    grind

/-- Encoding is faithful, and so no two encodings of a format share a word. -/
theorem encode_faithful :
    (∀ e : Encoding, Answered e e.encode) ∧ ∀ {e e' : Encoding} {w : Word}, SameFormat e e' →
      e.encode = .ok w → e'.encode = .ok w → e = e' := by
  refine ⟨encode_answered, fun {e e' w} hformat h h' => ?_⟩
  exact decodes_inj hformat (decodes_of_encode h) (decodes_of_encode h')

end Encoding

end Riscv
