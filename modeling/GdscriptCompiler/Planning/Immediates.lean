import GdscriptCompiler.Ir.Opcode
import GdscriptCompiler.Lib.Comparison
import GdscriptCompiler.Riscv.Relax
import Mathlib.Data.Nat.Log
import Mathlib.Data.Nat.Bitwise

/-!
# Immediates — constants in the immediate field of a typed integer instruction

An operation has two instruction sequences: one over two registers, one over a register and the
constant.
-/

namespace Plan

open Ir Riscv Lib

/-! ## 1. Which constants fit -/

def intOpIsCommutative : Opcode → Bool
  | .add | .mul | .bitAnd | .bitOr | .bitXor => true
  | _ => false

def intOpTakesImmediate (op : Opcode) (value : Int64) : Bool :=
  match op with
  | .add | .bitAnd | .bitOr | .bitXor => fitsInSigned value.toInt iTypeImmBits
  | .sub => fitsInSigned (-value).toInt iTypeImmBits
  | .shl | .shr => 0 ≤ value ∧ value < 64
  | .mul => 0 < value ∧ value.toBitVec &&& (value.toBitVec - 1) = 0
  | _ => false

def mirrored : Opcode → Opcode
  | .cmpLt => .cmpGt
  | .cmpLte => .cmpGte
  | .cmpGt => .cmpLt
  | .cmpGte => .cmpLte
  | .branchLt => .branchGt
  | .branchLte => .branchGte
  | .branchGt => .branchLt
  | .branchGte => .branchLte
  | op => op

def intCompareTakesImmediate (op : Opcode) (value : Int64) (constantOnLeft : Bool) : Bool :=
  match if constantOnLeft then mirrored op else op with
  | .cmpEq | .cmpNeq | .branchEq | .branchNeq => -2047 ≤ value ∧ value ≤ 2048
  | .cmpLt | .cmpGte | .branchLt | .branchGte => fitsInSigned value.toInt iTypeImmBits
  | .cmpLte | .cmpGt | .branchLte | .branchGt =>
    value ≠ Int64.maxValue && fitsInSigned (value + 1).toInt iTypeImmBits
  | _ => false

/-! ## 2. The two forms -/

abbrev Word64 := BitVec 64

/-- `emit_typed_int_binary_op`, `emit_typed_int_comparison` and `emit_int_fused_branch`: both
operands in registers. A shift takes the low six bits of its count. -/
def intRegisters (op : Opcode) (lhs rhs : Word64) : Option Word64 :=
  match op with
  | .add => some (lhs + rhs)
  | .sub => some (lhs - rhs)
  | .mul => some (lhs * rhs)
  | .div => some (if rhs = 0 then -1 else lhs.sdiv rhs)
  | .mod => some (if rhs = 0 then lhs else lhs.srem rhs)
  | .bitAnd => some (lhs &&& rhs)
  | .bitOr => some (lhs ||| rhs)
  | .bitXor => some (lhs ^^^ rhs)
  | .shl => some (lhs <<< (rhs.toNat % 64))
  | .shr => some (lhs.sshiftRight (rhs.toNat % 64))
  | .cmpEq => some (flag (lhs ^^^ rhs = 0))
  | .cmpNeq => some (flag (lhs ^^^ rhs ≠ 0))
  | .cmpLt => some (flag (lhs.slt rhs))
  | .cmpLte => some (flag (rhs.slt lhs) ^^^ 1)
  | .cmpGt => some (flag (rhs.slt lhs))
  | .cmpGte => some (flag (lhs.slt rhs) ^^^ 1)
  | .branchEq => some (flag (lhs = rhs))
  | .branchNeq => some (flag (lhs ≠ rhs))
  | .branchLt => some (flag (lhs.slt rhs))
  | .branchLte => some (flag !(rhs.slt lhs))
  | .branchGt => some (flag (rhs.slt lhs))
  | .branchGte => some (flag !(lhs.slt rhs))
  | _ => none

/-- The immediate field of an I-type instruction, as the instruction reads it. -/
def immField (value : Int64) : Word64 := (value.toBitVec.setWidth iTypeImmBits).signExtend 64

/-- `emit_typed_int_binary_op_imm`. -/
def intOpImmediate (op : Opcode) (value : Word64) (imm : Int64) : Option Word64 :=
  match op with
  | .add => some (value + immField imm)
  | .sub => some (value + immField (-imm))
  -- the shift counts the halvings down to one
  | .mul => some (value <<< Nat.log2 imm.toBitVec.toNat)
  | .bitAnd => some (value &&& immField imm)
  | .bitOr => some (value ||| immField imm)
  | .bitXor => some (value ^^^ immField imm)
  | .shl => some (value <<< imm.toBitVec.toNat)
  | .shr => some (value.sshiftRight imm.toBitVec.toNat)
  | _ => none

/-- `emit_int_compare_imm` and `emit_int_fused_branch_imm`; the branch loads the whole constant. -/
def intCompareImmediate (op : Opcode) (value : Word64) (imm : Int64) (constantOnLeft : Bool) :
    Option Word64 :=
  match if constantOnLeft then mirrored op else op with
  | .cmpEq => some (flag (value + immField (-imm) = 0))
  | .cmpNeq => some (flag (value + immField (-imm) ≠ 0))
  | .cmpLt => some (flag (value.slt (immField imm)))
  | .cmpGte => some (flag (value.slt (immField imm)) ^^^ 1)
  | .cmpLte => some (flag (value.slt (immField (imm + 1))))
  | .cmpGt => some (flag (value.slt (immField (imm + 1))) ^^^ 1)
  | .branchEq => some (flag (value = imm.toBitVec))
  | .branchNeq => some (flag (value ≠ imm.toBitVec))
  | .branchLt => some (flag (value.slt imm.toBitVec))
  | .branchLte => some (flag !(imm.toBitVec.slt value))
  | .branchGt => some (flag (imm.toBitVec.slt value))
  | .branchGte => some (flag !(value.slt imm.toBitVec))
  | _ => none

/-! ## 3. They agree -/

theorem fits_iff {value : Int} :
    fitsInSigned value iTypeImmBits = true ↔ -2048 ≤ value ∧ value < 2048 := by
  rw [fitsInSigned, Bool.and_eq_true, decide_eq_true_iff, decide_eq_true_iff]
  exact Iff.rfl

theorem immField_eq {value : Int64} (h : fitsInSigned value.toInt iTypeImmBits = true) :
    immField value = value.toBitVec := by
  obtain ⟨hlow, hhigh⟩ := fits_iff.mp h
  apply BitVec.eq_of_toInt_eq
  have hlow12 : ((value.toBitVec.toNat : Int).bmod (2 ^ 64)).bmod (2 ^ iTypeImmBits) =
      (value.toBitVec.toNat : Int).bmod (2 ^ iTypeImmBits) :=
    Int.bmod_bmod_of_dvd (Nat.pow_dvd_pow 2 (by decide))
  rw [immField, BitVec.toInt_signExtend_of_le (by decide), BitVec.toInt_setWidth, ← hlow12,
    ← BitVec.toInt_eq_toNat_bmod]
  exact Int.bmod_eq_of_le hlow hhigh

theorem eq_twoPow_log2 {w : Word64} (hpos : 0 < w.toInt) (h : w &&& (w - 1) = 0) :
    w = BitVec.twoPow 64 (Nat.log2 w.toNat) := by
  have hne : w.toNat ≠ 0 := by
    intro hzero
    rw [BitVec.eq_of_toNat_eq (y := 0#64) hzero] at hpos
    exact absurd hpos (by decide)
  have hnat : w.toNat &&& (w.toNat - 1) = 0 := by
    have hpred : (w - 1).toNat = w.toNat - 1 := by
      have := w.isLt
      have hone : (1 : Word64).toNat = 1 := rfl
      rw [BitVec.toNat_sub, hone]
      omega
    have := congrArg BitVec.toNat h
    rwa [BitVec.toNat_and, hpred] at this
  obtain ⟨k, hk⟩ := (Nat.and_sub_one_eq_zero_iff_isPowerOfTwo hne).mp hnat
  apply BitVec.eq_of_toNat_eq
  have hlt := w.isLt
  rw [hk] at hlt ⊢
  rw [Nat.log2_two_pow, BitVec.toNat_twoPow, Nat.mod_eq_of_lt hlt]

variable {v : Int64}

theorem toNat_lt_of_shift (h : 0 ≤ v ∧ v < 64) : v.toBitVec.toNat < 64 := by
  have hlow : 0 ≤ v.toBitVec.toInt := Int64.le_iff_toInt_le.mp h.1
  have hhigh : v.toBitVec.toInt < 64 := Int64.lt_iff_toInt_lt.mp h.2
  have := v.toBitVec.isLt
  rw [BitVec.toInt_eq_toNat_cond] at hlow hhigh
  split at hlow <;> omega

theorem toInt_succ (h : v ≠ Int64.maxValue) : (v + 1).toBitVec.toInt = v.toBitVec.toInt + 1 := by
  have hlt : v.toInt < 2 ^ 63 - 1 := by
    have := v.toInt_lt
    have hne : v.toInt ≠ 2 ^ 63 - 1 := fun heq => h (Int64.toInt_inj.mp heq)
    omega
  have hge := v.le_toInt
  change (v + 1).toInt = v.toInt + 1
  rw [Int64.toInt_add]
  change (v.toInt + 1).bmod (2 ^ 64) = _
  exact Int.bmod_eq_of_le (by omega) (by omega)

variable {a : Word64}

theorem slt_succ (h : v ≠ Int64.maxValue) : a.slt (v + 1).toBitVec = !(v.toBitVec.slt a) := by
  rw [Bool.eq_iff_iff, Bool.not_eq_true', ← Bool.not_eq_true, BitVec.slt_iff_toInt_lt,
    BitVec.slt_iff_toInt_lt, toInt_succ h]
  omega

theorem xor_eq_zero {b : Word64} : a ^^^ b = 0 ↔ a = b := BitVec.xor_eq_zero_iff

theorem add_neg_eq_zero_iff {b : Word64} : a + -b = 0 ↔ a = b := by
  constructor
  · intro h
    bv_omega
  · rintro rfl
    bv_omega

def comparesInts (op : Opcode) : Bool := hasEffect op .comparison || hasEffect op .fusedBranch

variable {op : Opcode}

theorem intRegisters_mirrored (h : comparesInts op = true) (a b : Word64) :
    intRegisters (mirrored op) a b = intRegisters op b a := by
  have hxor : a ^^^ b = b ^^^ a := BitVec.xor_comm a b
  cases op <;> first | exact absurd h (by decide) | simp [mirrored, intRegisters, hxor, eq_comm (a := a)]

variable {imm : Int64}

theorem comparesInts_of_takes (h : intCompareTakesImmediate op imm false = true) :
    comparesInts op = true := by
  cases op <;> first | rfl | cases h

theorem fits_neg (h : -2047 ≤ imm ∧ imm ≤ 2048) :
    fitsInSigned (-imm).toInt iTypeImmBits = true := by
  have hlow := Int64.le_iff_toInt_le.mp h.1
  have hhigh := Int64.le_iff_toInt_le.mp h.2
  change -2047 ≤ imm.toInt at hlow
  change imm.toInt ≤ 2048 at hhigh
  rw [fits_iff, Int64.toInt_neg, Int.bmod_eq_of_le (by omega) (by omega)]
  omega

theorem immField_neg (h : -2047 ≤ imm ∧ imm ≤ 2048) : immField (-imm) = -imm.toBitVec := by
  rw [immField_eq (fits_neg h), Int64.toBitVec_neg]

-- the constant on the right; the other side is the mirrored comparison
theorem intCompareImmediate_right (h : intCompareTakesImmediate op imm false = true)
    (value : Word64) :
    intCompareImmediate op value imm false = intRegisters op value imm.toBitVec := by
  unfold intCompareTakesImmediate at h
  unfold intCompareImmediate intRegisters
  rw [if_neg Bool.false_ne_true] at h ⊢
  split at h
  all_goals try dsimp only
  · rw [immField_neg (of_decide_eq_true h)]
    simp only [add_neg_eq_zero_iff, xor_eq_zero]
  · rw [immField_neg (of_decide_eq_true h)]
    simp only [ne_eq, add_neg_eq_zero_iff, xor_eq_zero]
  · rw [immField_eq h]
  · rw [immField_eq h]
  · rw [Bool.and_eq_true, decide_eq_true_eq] at h
    rw [immField_eq h.2, slt_succ h.1, flag_not]
  · rw [Bool.and_eq_true, decide_eq_true_eq] at h
    rw [immField_eq h.2, slt_succ h.1, flag_not, Bool.not_not]
  · cases h

theorem intCompareImmediate_eq {constantOnLeft : Bool}
    (h : intCompareTakesImmediate op imm constantOnLeft = true) (value : Word64) :
    intCompareImmediate op value imm constantOnLeft =
      if constantOnLeft then intRegisters op imm.toBitVec value
      else intRegisters op value imm.toBitVec := by
  cases constantOnLeft with
  | false => exact intCompareImmediate_right h value
  | true =>
    have hright : intCompareTakesImmediate (mirrored op) imm false = true := h
    have hcompares : comparesInts op = true := by
      have hmirrored := comparesInts_of_takes hright
      cases op <;> first | rfl | cases hmirrored
    exact (intCompareImmediate_right hright value).trans (intRegisters_mirrored hcompares _ _)

theorem intOpImmediate_eq (h : intOpTakesImmediate op imm = true) (value : Word64) :
    intOpImmediate op value imm = intRegisters op value imm.toBitVec := by
  unfold intOpTakesImmediate at h
  unfold intOpImmediate intRegisters
  split at h
  all_goals try dsimp only
  · rw [immField_eq h]
  · rw [immField_eq h]
  · rw [immField_eq h]
  · rw [immField_eq h]
  · rw [immField_eq h, Int64.toBitVec_neg, BitVec.sub_eq_add_neg]
  · rw [Nat.mod_eq_of_lt (toNat_lt_of_shift (of_decide_eq_true h))]
  · rw [Nat.mod_eq_of_lt (toNat_lt_of_shift (of_decide_eq_true h))]
  · obtain ⟨hpos, hpow⟩ := of_decide_eq_true h
    have hpow := eq_twoPow_log2 (Int64.lt_iff_toInt_lt.mp hpos) hpow
    generalize Nat.log2 imm.toBitVec.toNat = k at hpow ⊢
    rw [hpow, BitVec.mul_twoPow_eq_shiftLeft]
  · cases h

end Plan
