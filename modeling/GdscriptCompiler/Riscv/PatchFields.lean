import GdscriptCompiler.Riscv.Resolve
import Mathlib.Tactic.Common
import Mathlib.Tactic.IntervalCases

/-! # PatchFields — what the patched words of `resolve_labels` hold -/

namespace Riscv

open Lib

/-! ## 1. Fields of the patched words -/

section Fields

variable (instr next : Word) (d : BitVec 64)

theorem opcodeOf_patchBranch : opcodeOf (patchBranch instr d) = opcodeOf instr := by
  unfold patchBranch offsetField instrField opcodeOf
  apply BitVec.eq_of_getLsbD_eq
  intro i hi
  interval_cases i <;> simp

theorem funct3Of_patchBranch : funct3Of (patchBranch instr d) = funct3Of instr := by
  unfold patchBranch offsetField instrField opcodeOf funct3Of
  apply BitVec.eq_of_getLsbD_eq
  intro i hi
  interval_cases i <;> simp

theorem rs1Of_patchBranch : rs1Of (patchBranch instr d) = rs1Of instr := by
  unfold patchBranch offsetField instrField opcodeOf rs1Of
  apply BitVec.eq_of_getLsbD_eq
  intro i hi
  interval_cases i <;> simp

theorem rs2Of_patchBranch : rs2Of (patchBranch instr d) = rs2Of instr := by
  unfold patchBranch offsetField instrField opcodeOf rs2Of
  apply BitVec.eq_of_getLsbD_eq
  intro i hi
  interval_cases i <;> simp

theorem opcodeOf_patchJal : opcodeOf (patchJal instr d) = opcodeOf instr := by
  unfold patchJal offsetField instrField opcodeOf
  apply BitVec.eq_of_getLsbD_eq
  intro i hi
  interval_cases i <;> simp

theorem rdOf_patchJal : rdOf (patchJal instr d) = rdOf instr := by
  unfold patchJal offsetField instrField opcodeOf rdOf
  apply BitVec.eq_of_getLsbD_eq
  intro i hi
  interval_cases i <;> simp

theorem opcodeOf_patchAuipc : opcodeOf (patchAuipc instr d) = opcodeOf instr := by
  unfold patchAuipc instrField opcodeOf
  apply BitVec.eq_of_getLsbD_eq
  intro i hi
  interval_cases i <;> simp

theorem rdOf_patchAuipc : rdOf (patchAuipc instr d) = rdOf instr := by
  unfold patchAuipc instrField opcodeOf rdOf
  apply BitVec.eq_of_getLsbD_eq
  intro i hi
  interval_cases i <;> simp

-- JALR keeps its low twenty bits, so all of its fields at once
theorem low_patchJalr : (patchJalr next d).extractLsb' 0 20 = next.extractLsb' 0 20 := by
  unfold patchJalr lowerField
  apply BitVec.eq_of_getLsbD_eq
  intro i hi
  interval_cases i <;> simp

-- and so do LD and ADDI, put together from theirs
theorem low_patchLow :
    (patchLow (opcodeOf next) next d).extractLsb' 0 20 = next.extractLsb' 0 20 := by
  unfold patchLow lowerField instrField opcodeOf
  apply BitVec.eq_of_getLsbD_eq
  intro i hi
  interval_cases i <;> simp

theorem imm_patchJalr : (patchJalr next d).extractLsb' 20 12 = d.extractLsb' 0 12 := by
  unfold patchJalr lowerField
  apply BitVec.eq_of_getLsbD_eq
  intro i hi
  interval_cases i <;> simp

theorem imm_patchLow {op : Word} (hop : op = opLoad ∨ op = opImm) :
    (patchLow op next d).extractLsb' 20 12 = d.extractLsb' 0 12 := by
  unfold patchLow lowerField instrField
  apply BitVec.eq_of_getLsbD_eq
  intro i hi
  rcases hop with rfl | rfl
  · unfold opLoad
    interval_cases i <;> simp
  · unfold opImm
    interval_cases i <;> simp

theorem imm_patchAuipc :
    (patchAuipc instr d).extractLsb' 12 20 = (upperPart d).extractLsb' 0 20 := by
  unfold patchAuipc instrField opcodeOf
  generalize upperPart d = u
  apply BitVec.eq_of_getLsbD_eq
  intro i hi
  interval_cases i <;> simp

end Fields

-- The low twenty bits of a word hold every field but the I-type immediate.
theorem fields_of_low {x y : Word} (h : x.extractLsb' 0 20 = y.extractLsb' 0 20) :
    opcodeOf x = opcodeOf y ∧ rdOf x = rdOf y ∧ funct3Of x = funct3Of y ∧ rs1Of x = rs1Of y := by
  have hbit : ∀ i < 20, x.getLsbD i = y.getLsbD i := by
    intro i hi
    have hi' := congrArg (fun z => z.getLsbD i) h
    simpa [hi] using hi'
  refine ⟨?_, ?_, ?_, ?_⟩
  · unfold opcodeOf
    apply BitVec.eq_of_getLsbD_eq
    intro i hi
    by_cases hlow : i < 20
    · rw [BitVec.getLsbD_and, BitVec.getLsbD_and, hbit i hlow]
    · interval_cases i <;> simp
  · apply BitVec.eq_of_getLsbD_eq
    intro i hi
    simp only [rdOf, BitVec.getLsbD_extractLsb', hbit (7 + i) (by omega)]
  · apply BitVec.eq_of_getLsbD_eq
    intro i hi
    simp only [funct3Of, BitVec.getLsbD_extractLsb', hbit (12 + i) (by omega)]
  · apply BitVec.eq_of_getLsbD_eq
    intro i hi
    simp only [rs1Of, BitVec.getLsbD_extractLsb', hbit (15 + i) (by omega)]

/-! ## 2. What they decode to -/

variable {d : BitVec 64}

-- Sign-extending the low bits of a value that fits gives it back.
theorem signExtend_extractLsb'_of_fits {w : Nat} (hw : w ≤ 64) (hpos : 0 < w)
    (h : fitsInSigned d.toInt w = true) :
    (d.extractLsb' 0 w).signExtend 64 = d := by
  have hfit : -(2 ^ (w - 1) : Int) ≤ d.toInt ∧ d.toInt < 2 ^ (w - 1) := by
    simpa [fitsInSigned] using h
  have hpow : (2 : Int) ^ w = 2 * 2 ^ (w - 1) := by
    rw [← pow_succ', show w - 1 + 1 = w by omega]
  apply BitVec.eq_of_toInt_eq
  rw [BitVec.toInt_signExtend_of_le hw, BitVec.toInt_extractLsb', Nat.shiftRight_zero]
  have hmod : (d.toNat : Int).bmod (2 ^ w) = d.toInt.bmod (2 ^ w) := by
    rw [BitVec.toInt_eq_toNat_bmod, Int.bmod_bmod_of_dvd (pow_dvd_pow 2 hw)]
  rw [hmod]
  apply Int.bmod_eq_of_le
  · push_cast
    omega
  · push_cast
    omega

theorem zero_eq_low_bit (h : d &&& 1 = 0) : 0#1 = d.extractLsb' 0 1 := by
  have hbit := congrArg (fun x => x.getLsbD 0) h
  apply BitVec.eq_of_getLsbD_eq
  intro i hi
  interval_cases i
  simp at hbit ⊢
  exact hbit

theorem immB_patchBranch (instr : Word) (heven : d &&& 1 = 0)
    (hfit : fitsInSigned d.toInt bTypeImmBits = true) :
    immB (patchBranch instr d) = d := by
  have hfields : (patchBranch instr d).extractLsb' 31 1 = d.extractLsb' 12 1 ∧
      (patchBranch instr d).extractLsb' 7 1 = d.extractLsb' 11 1 ∧
      (patchBranch instr d).extractLsb' 25 6 = d.extractLsb' 5 6 ∧
      (patchBranch instr d).extractLsb' 8 4 = d.extractLsb' 1 4 := by
    unfold patchBranch offsetField instrField opcodeOf
    refine ⟨?_, ?_, ?_, ?_⟩ <;>
      exact BitVec.eq_of_getLsbD_eq fun i hi => by interval_cases i <;> simp [BitVec.getElem_sshiftRight]
  obtain ⟨h31, h7, h25, h8⟩ := hfields
  unfold immB
  rw [h31, h7, h25, h8, zero_eq_low_bit heven, BitVec.extractLsb'_append_extractLsb'_eq_extractLsb'
    (by rfl), BitVec.extractLsb'_append_extractLsb'_eq_extractLsb' (by rfl),
    BitVec.extractLsb'_append_extractLsb'_eq_extractLsb' (by rfl),
    BitVec.extractLsb'_append_extractLsb'_eq_extractLsb' (by rfl)]
  exact signExtend_extractLsb'_of_fits (by decide) (by decide) hfit

theorem immJ_patchJal (instr : Word) (heven : d &&& 1 = 0)
    (hfit : fitsInSigned d.toInt jTypeImmBits = true) :
    immJ (patchJal instr d) = d := by
  have hfields : (patchJal instr d).extractLsb' 31 1 = d.extractLsb' 20 1 ∧
      (patchJal instr d).extractLsb' 12 8 = d.extractLsb' 12 8 ∧
      (patchJal instr d).extractLsb' 20 1 = d.extractLsb' 11 1 ∧
      (patchJal instr d).extractLsb' 21 10 = d.extractLsb' 1 10 := by
    unfold patchJal offsetField instrField opcodeOf
    refine ⟨?_, ?_, ?_, ?_⟩ <;>
      exact BitVec.eq_of_getLsbD_eq fun i hi => by interval_cases i <;> simp [BitVec.getElem_sshiftRight]
  obtain ⟨h31, h12, h20, h21⟩ := hfields
  unfold immJ
  rw [h31, h12, h20, h21, zero_eq_low_bit heven,
    BitVec.extractLsb'_append_extractLsb'_eq_extractLsb' (by rfl),
    BitVec.extractLsb'_append_extractLsb'_eq_extractLsb' (by rfl),
    BitVec.extractLsb'_append_extractLsb'_eq_extractLsb' (by rfl),
    BitVec.extractLsb'_append_extractLsb'_eq_extractLsb' (by rfl)]
  exact signExtend_extractLsb'_of_fits (by decide) (by decide) hfit

/-- The displacements an AUIPC pair can reach. -/
def InPairRange (d : BitVec 64) : Prop :=
  -(2 ^ 31 + 2 ^ 11 : Int) ≤ d.toInt ∧ d.toInt < 2 ^ 31 - 2 ^ 11

/-- The immediates of a pair, added up as the machine does. -/
def pairValue (hi : BitVec 20) (lo : BitVec 12) : BitVec 64 :=
  (hi ++ 0#12 : BitVec 32).signExtend 64 + lo.signExtend 64

theorem toInt_pairValue (hi : BitVec 20) (lo : BitVec 12) :
    (pairValue hi lo).toInt = 2 ^ 12 * hi.toInt + lo.toInt := by
  have h1 := hi.le_toInt
  have h2 := hi.toInt_lt
  have h3 := lo.le_toInt
  have h4 := lo.toInt_lt
  unfold pairValue
  rw [BitVec.toInt_add, BitVec.toInt_signExtend_of_le (by decide), BitVec.toInt_append_zero,
    BitVec.toInt_signExtend_of_le (by decide)]
  apply Int.bmod_eq_of_le
  · omega
  · omega

-- Whatever the two immediates are, their sum stays in range.
theorem inPairRange_pairValue (hi : BitVec 20) (lo : BitVec 12) :
    InPairRange (pairValue hi lo) := by
  have h1 := hi.le_toInt
  have h2 := hi.toInt_lt
  have h3 := lo.le_toInt
  have h4 := lo.toInt_lt
  unfold InPairRange
  rw [toInt_pairValue]
  omega

theorem toInt_upperPart (hlo : -(2 ^ 62 : Int) ≤ d.toInt) (hhi : d.toInt < 2 ^ 62) :
    (upperPart d).toInt = (d.toInt + 2048) / 4096 := by
  have hsum : (d + 0x800).toInt = d.toInt + 2048 := by
    rw [BitVec.toInt_add]
    apply Int.bmod_eq_of_le
    · change _ ≤ d.toInt + 2048
      omega
    · change d.toInt + 2048 < _
      omega
  unfold upperPart
  rw [BitVec.toInt_sshiftRight, hsum, Int.shiftRight_eq_div_pow]
  rfl

-- In range, rounding to a page and adding the low bits back is exact.
theorem pairValue_split (h : InPairRange d) :
    pairValue ((upperPart d).extractLsb' 0 20) (d.extractLsb' 0 12) = d := by
  obtain ⟨hlo, hhi⟩ := h
  have hupper := toInt_upperPart (d := d) (by omega) (by omega)
  have hfit : fitsInSigned (upperPart d).toInt 20 = true := by
    rw [hupper]
    simp only [fitsInSigned, Bool.and_eq_true, decide_eq_true_eq]
    omega
  have hhigh : ((upperPart d).extractLsb' 0 20).toInt = (d.toInt + 2048) / 4096 := by
    rw [← hupper, ← BitVec.toInt_signExtend_of_le (show 20 ≤ 64 by decide),
      signExtend_extractLsb'_of_fits (by decide) (by decide) hfit]
  have hlow : (d.extractLsb' 0 12).toInt = d.toInt.bmod 4096 := by
    rw [BitVec.toInt_extractLsb', Nat.shiftRight_zero, BitVec.toInt_eq_toNat_bmod,
      Int.bmod_bmod_of_dvd (by decide)]
  apply BitVec.eq_of_toInt_eq
  rw [toInt_pairValue, hhigh, hlow]
  unfold Int.bmod
  dsimp only
  split <;> omega

end Riscv
