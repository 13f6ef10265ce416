import GdscriptCompiler.Lib.Bytes

/-!
# Decode — fields and immediates of RV64 instruction words

The ISA's own reading of a word, independent of how the back end puts it together.
-/

namespace Riscv

open Lib

/-- The low seven bits select the instruction format. -/
def opcodeOf (instr : Word) : Word := instr &&& 0x7F

def opBranch : Word := 0x63
def opJal : Word := 0x6F
def opAuipc : Word := 0x17
def opJalr : Word := 0x67
def opLoad : Word := 0x03
def opImm : Word := 0x13

def rdOf (instr : Word) : BitVec 5 := instr.extractLsb' 7 5
def funct3Of (instr : Word) : BitVec 3 := instr.extractLsb' 12 3
def rs1Of (instr : Word) : BitVec 5 := instr.extractLsb' 15 5
def rs2Of (instr : Word) : BitVec 5 := instr.extractLsb' 20 5

-- imm[11:0]
def immI (instr : Word) : BitVec 64 := (instr.extractLsb' 20 12).signExtend 64

-- imm[12|10:5] above the registers, imm[4:1|11] below them
def immB (instr : Word) : BitVec 64 :=
  (instr.extractLsb' 31 1 ++ instr.extractLsb' 7 1 ++ instr.extractLsb' 25 6 ++
    instr.extractLsb' 8 4 ++ 0#1 : BitVec 13).signExtend 64

-- imm[20|10:1|11|19:12]
def immJ (instr : Word) : BitVec 64 :=
  (instr.extractLsb' 31 1 ++ instr.extractLsb' 12 8 ++ instr.extractLsb' 20 1 ++
    instr.extractLsb' 21 10 ++ 0#1 : BitVec 21).signExtend 64

-- imm[31:12], the low twelve bits zero
def immU (instr : Word) : BitVec 64 := (instr.extractLsb' 12 20 ++ 0#12 : BitVec 32).signExtend 64

/-- The condition a branch tests; `none` for the two reserved encodings. -/
def branchCond (funct3 : BitVec 3) (x y : BitVec 64) : Option Bool :=
  match funct3.toNat with
  | 0 => some (x == y)
  | 1 => some (!(x == y))
  | 4 => some (x.slt y)
  | 5 => some (!(x.slt y))
  | 6 => some (x.ult y)
  | 7 => some (!(x.ult y))
  | _ => none

/-- Flipping the low bit of funct3 negates the condition. -/
theorem branchCond_flip (funct3 : BitVec 3) (x y : BitVec 64) :
    branchCond (funct3 ^^^ 1) x y = (branchCond funct3 x y).map (! ·) := by
  have hcases : ∀ f : BitVec 3, f = 0 ∨ f = 1 ∨ f = 2 ∨ f = 3 ∨ f = 4 ∨ f = 5 ∨ f = 6 ∨ f = 7 := by
    decide
  rcases hcases funct3 with rfl | rfl | rfl | rfl | rfl | rfl | rfl | rfl <;> simp [branchCond]

end Riscv
