import GdscriptCompiler.Riscv.Relax

/-!
# Resolve — `RISCVCodeGen::resolve_labels`

Displacements are `int64_t` throughout; the two immediates of a pair are the displacement rounded to
a page and its low twelve bits.
-/

namespace Riscv

open Lib Ir

-- `check_immediate`
def checkImmediate (what : String) (value : BitVec 64) (bits : Nat) : Except String Unit :=
  if fitsInSigned value.toInt bits then .ok ()
  else .error (what ++ " immediate " ++ toString value.toInt ++ " does not fit in " ++
    toString bits ++ " signed bits (" ++ toString (-(2 ^ (bits - 1) : Int)) ++ " to " ++
    toString ((2 ^ (bits - 1) : Int) - 1) ++ ")")

-- `check_displacement`
def checkDisplacement (what : String) (offset : BitVec 64) (bits : Nat) : Except String Unit :=
  if offset &&& 1 ≠ 0 then
    .error (what ++ " displacement " ++ toString offset.toInt ++ " is not even")
  else if fitsInSigned offset.toInt bits then .ok ()
  else .error (what ++ " displacement " ++ toString offset.toInt ++ " is out of reach (" ++
    toString bits ++ " signed bits). The function is too large for a single branch to span.")

-- `(offset >> shift) & mask`, as a `uint32_t`
def offsetField (offset : BitVec 64) (shift : Nat) (mask : BitVec 64) : Word :=
  ((offset.sshiftRight shift) &&& mask).setWidth 32

-- `(instr >> shift) & mask`
def instrField (instr : Word) (shift : Nat) (mask : Word) : Word := (instr >>> shift) &&& mask

def patchBranch (instr : Word) (offset : BitVec 64) : Word :=
  let funct3 := instrField instr 12 0x7
  let rs1 := instrField instr 15 0x1F
  let rs2 := instrField instr 20 0x1F
  let imm12 := offsetField offset 12 1
  let imm10_5 := offsetField offset 5 0x3F
  let imm4_1 := offsetField offset 1 0xF
  let imm11 := offsetField offset 11 1
  opcodeOf instr ||| (imm11 <<< 7) ||| (imm4_1 <<< 8) ||| (funct3 <<< 12) ||| (rs1 <<< 15) |||
    (rs2 <<< 20) ||| (imm10_5 <<< 25) ||| (imm12 <<< 31)

def patchJal (instr : Word) (offset : BitVec 64) : Word :=
  let rd := instrField instr 7 0x1F
  let imm20 := offsetField offset 20 1
  let imm10_1 := offsetField offset 1 0x3FF
  let imm11 := offsetField offset 11 1
  let imm19_12 := offsetField offset 12 0xFF
  opcodeOf instr ||| (rd <<< 7) ||| (imm19_12 <<< 12) ||| (imm11 <<< 20) ||| (imm10_1 <<< 21) |||
    (imm20 <<< 31)

-- `(offset + 0x800) >> 12`
def upperPart (offset : BitVec 64) : BitVec 64 := (offset + 0x800).sshiftRight 12

/-- The AUIPC of a pair. The LD and ADDI paths narrow the upper part to an `int32_t` first, which
leaves the twenty bits they keep as they were. -/
def patchAuipc (instr : Word) (offset : BitVec 64) : Word :=
  let rd := instrField instr 7 0x1F
  opcodeOf instr ||| (rd <<< 7) ||| ((((upperPart offset).setWidth 32) &&& 0xFFFFF) <<< 12)

-- `(uint32_t(offset) & 0xFFF) << 20`
def lowerField (offset : BitVec 64) : Word := ((offset.setWidth 32) &&& 0xFFF) <<< 20

def patchJalr (next : Word) (offset : BitVec 64) : Word :=
  (next &&& 0x000FFFFF) ||| lowerField offset

/-- The LD or ADDI of a pair, put together again from its fields. -/
def patchLow (opcode next : Word) (offset : BitVec 64) : Word :=
  opcode ||| (instrField next 7 0x1F <<< 7) ||| (instrField next 12 0x7 <<< 12) |||
    (instrField next 15 0x1F <<< 15) ||| lowerField offset

namespace CodeBuffer

-- `static_cast<int64_t>(target_offset) - static_cast<int64_t>(use_offset) + use.addend`
def displacement (target : Nat) (use : LabelUse) : BitVec 64 :=
  BitVec.ofNat 64 target - BitVec.ofNat 64 use.codeOffset + BitVec.ofInt 64 use.addend

def resolveUse (b : CodeBuffer) (code : List Byte) (use : LabelUse) : Except String (List Byte) :=
  let label := StringTable.nameOf b.labelNames use.label
  match b.labelOffset use.label with
  | none => .error ("Undefined label: " ++ label)
  | some target =>
    let offset := displacement target use
    let instr := loadWord code use.codeOffset
    let opcode := opcodeOf instr
    if opcode = opBranch then do
      checkDisplacement ("B-type (branch) to '" ++ label ++ "'") offset bTypeImmBits
      return storeWord code use.codeOffset (patchBranch instr offset)
    else if opcode = opJal then do
      checkDisplacement ("J-type (jump) to '" ++ label ++ "'") offset jTypeImmBits
      return storeWord code use.codeOffset (patchJal instr offset)
    else if opcode = opAuipc then
      let next := loadWord code (use.codeOffset + 4)
      if opcodeOf next = opJalr then do
        checkDisplacement ("AUIPC/JALR to '" ++ label ++ "'") offset 32
        checkImmediate ("AUIPC to '" ++ label ++ "'") (upperPart offset) 20
        let code := storeWord code (use.codeOffset + 4) (patchJalr next offset)
        return storeWord code use.codeOffset (patchAuipc instr offset)
      else if opcodeOf next = opLoad then
        let code := storeWord code use.codeOffset (patchAuipc instr offset)
        .ok (storeWord code (use.codeOffset + 4) (patchLow opLoad next offset))
      else if opcodeOf next = opImm ∧ instrField next 15 0x1F = instrField instr 7 0x1F ∧
          instrField next 12 0x7 = 0 then
        let code := storeWord code use.codeOffset (patchAuipc instr offset)
        .ok (storeWord code (use.codeOffset + 4) (patchLow opImm next offset))
      else .ok (storeWord code use.codeOffset instr)
    else .ok (storeWord code use.codeOffset instr)

def resolveLabels (b : CodeBuffer) : Except String CodeBuffer := do
  let code ← b.labelUses.foldlM b.resolveUse b.code
  return { b with code }

end CodeBuffer

end Riscv
