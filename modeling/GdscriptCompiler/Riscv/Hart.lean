import GdscriptCompiler.Lib.Comparison
import GdscriptCompiler.Riscv.Encode

/-!
# Hart — what emitted words do

A sequence of calls of encoders runs word by word; one that throws leaves no code to run.
-/

namespace Riscv

open Lib

structure Hart where
  pc : BitVec 64
  x : BitVec 5 → BitVec 64
  f : BitVec 5 → BitVec 64
  mem : BitVec 64 → Byte

namespace Hart

/-! ## 1. Registers and memory -/

-- x0 reads as zero
def get (h : Hart) (r : BitVec 5) : BitVec 64 := if r = 0 then 0 else h.x r

/-- The end of an instruction that writes `rd`. -/
def write (h : Hart) (rd : BitVec 5) (v : BitVec 64) : Hart :=
  { h with pc := h.pc + 4, x := fun r => if r = rd then v else h.x r }

def writeFloat (h : Hart) (rd : BitVec 5) (v : BitVec 64) : Hart :=
  { h with pc := h.pc + 4, f := fun r => if r = rd then v else h.f r }

def load (mem : BitVec 64 → Byte) : (n : Nat) → BitVec 64 → BitVec (8 * n)
  | 0, _ => 0
  | n + 1, a => (load mem n (a + 1) ++ mem a).cast (by omega)

def store (mem : BitVec 64 → Byte) (n : Nat) (a v : BitVec 64) : BitVec 64 → Byte := fun b =>
  if (b - a).toNat < n then v.extractLsb' (8 * (b - a).toNat) 8 else mem b

/-! ## 2. Instructions -/

/-- OP: division by zero and the overflow have results of their own, a shift takes six bits of its
count. -/
def op (funct7 : BitVec 7) (funct3 : BitVec 3) (a b : BitVec 64) : Option (BitVec 64) :=
  match funct7.toNat, funct3.toNat with
  | 0x00, 0 => some (a + b)
  | 0x20, 0 => some (a - b)
  | 0x00, 1 => some (a <<< (b.toNat % 64))
  | 0x00, 2 => some (flag (a.slt b))
  | 0x00, 3 => some (flag (a.ult b))
  | 0x00, 4 => some (a ^^^ b)
  | 0x20, 5 => some (a.sshiftRight (b.toNat % 64))
  | 0x00, 6 => some (a ||| b)
  | 0x00, 7 => some (a &&& b)
  | 0x01, 0 => some (a * b)
  | 0x01, 4 => some (if b = 0 then -1 else a.sdiv b)
  | 0x01, 6 => some (if b = 0 then a else a.srem b)
  | _, _ => none

/-- OP-IMM; a shift has six more bits of function above its count. -/
def opImm (funct3 : BitVec 3) (a b : BitVec 64) : Option (BitVec 64) :=
  match funct3.toNat with
  | 0 => some (a + b)
  | 1 => if b.toNat / 64 % 64 = 0 then some (a <<< (b.toNat % 64)) else none
  | 2 => some (flag (a.slt b))
  | 3 => some (flag (a.ult b))
  | 4 => some (a ^^^ b)
  | 5 => if b.toNat / 64 % 64 = 16 then some (a.sshiftRight (b.toNat % 64)) else none
  | 6 => some (a ||| b)
  | _ => some (a &&& b)

/-- A load of the address into `rd`; FLW leaves a boxed float. -/
def loadInto (h : Hart) (opcode : BitVec 7) (funct3 : BitVec 3) (rd : BitVec 5) (a : BitVec 64) :
    Option Hart :=
  match opcode.toNat, funct3.toNat with
  | 0x03, 0 => some (h.write rd ((load h.mem 1 a).signExtend 64))
  | 0x03, 1 => some (h.write rd ((load h.mem 2 a).signExtend 64))
  | 0x03, 2 => some (h.write rd ((load h.mem 4 a).signExtend 64))
  | 0x03, 3 => some (h.write rd (load h.mem 8 a))
  | 0x03, 4 => some (h.write rd ((load h.mem 1 a).setWidth 64))
  | 0x03, 5 => some (h.write rd ((load h.mem 2 a).setWidth 64))
  | 0x03, 6 => some (h.write rd ((load h.mem 4 a).setWidth 64))
  | 0x07, 2 => some (h.writeFloat rd ((-1 : BitVec 32) ++ load h.mem 4 a))
  | 0x07, 3 => some (h.writeFloat rd (load h.mem 8 a))
  | _, _ => none

def storeSize (opcode : BitVec 7) (funct3 : BitVec 3) : Option Nat :=
  match opcode.toNat, funct3.toNat with
  | 0x23, 0 => some 1
  | 0x23, 1 => some 2
  | 0x23, 2 | 0x27, 2 => some 4
  | 0x23, 3 | 0x27, 3 => some 8
  | _, _ => none

def storeAt (h : Hart) (opcode : BitVec 7) (funct3 : BitVec 3) (rs2 : BitVec 5) (a : BitVec 64) :
    Option Hart :=
  (storeSize opcode funct3).map fun n =>
    { h with pc := h.pc + 4, mem := store h.mem n a (if opcode = 0x27 then h.f rs2 else h.get rs2) }

def exec (h : Hart) : Encoding → Option Hart
  | .r _ rd funct3 rs1 rs2 funct7 => (op funct7 funct3 (h.get rs1) (h.get rs2)).map (h.write rd)
  | .i opcode rd funct3 rs1 imm =>
    let b := imm.signExtend 64
    match opcode.toNat with
    | 0x13 => (opImm funct3 (h.get rs1) b).map (h.write rd)
    | 0x1b =>
      if funct3 = 0 then some (h.write rd (((h.get rs1 + b).setWidth 32).signExtend 64)) else none
    | _ => h.loadInto opcode funct3 rd (h.get rs1 + b)
  | .s opcode funct3 rs1 rs2 imm => h.storeAt opcode funct3 rs2 (h.get rs1 + imm.signExtend 64)
  | .b _ funct3 rs1 rs2 imm => (branchCond funct3 (h.get rs1) (h.get rs2)).map fun taken =>
      { h with pc := h.pc + if taken then imm.signExtend 64 else 4 }
  | .u opcode rd imm => some (h.write rd (imm.signExtend 64 + if opcode = 0x17 then h.pc else 0))
  | _ => none

/-- The instruction of a word with one of these opcodes. -/
def decode (w : Word) : Option Encoding :=
  let opcode := w.extractLsb' 0 7
  match opcode.toNat with
  | 0x33 => some (.r opcode (rdOf w) (funct3Of w) (rs1Of w) (rs2Of w) (w.extractLsb' 25 7))
  | 0x13 | 0x1b | 0x03 | 0x07 => some (.i opcode (rdOf w) (funct3Of w) (rs1Of w) ((immI w).setWidth 32))
  | 0x23 | 0x27 => some (.s opcode (funct3Of w) (rs1Of w) (rs2Of w) ((Encoding.immS w).setWidth 32))
  | 0x63 => some (.b opcode (funct3Of w) (rs1Of w) (rs2Of w) ((immB w).setWidth 32))
  | 0x37 | 0x17 => some (.u opcode (rdOf w) ((immU w).setWidth 32))
  | _ => none

/-- The words in order; the code is there only when no encoder threw. -/
def run (h : Hart) : List (Except String Word) → Option Hart
  | [] => some h
  | .ok w :: rest => ((decode w).bind h.exec).bind (run · rest)
  | .error _ :: _ => none

/-! ## 3. Running emitted code -/

theorem get_write (h : Hart) (rd : BitVec 5) (v : BitVec 64) (r : BitVec 5) :
    (h.write rd v).get r = if r = rd ∧ r ≠ 0 then v else h.get r := by
  unfold get write
  grind

/-- The formats, each with its opcodes, that `decode` knows. -/
def Decoded : Encoding → Prop
  | .r opcode .. => opcode = 0x33
  | .i opcode .. => opcode = 0x13 ∨ opcode = 0x1b ∨ opcode = 0x03 ∨ opcode = 0x07
  | .s opcode .. => opcode = 0x23 ∨ opcode = 0x27
  | .b opcode .. => opcode = 0x63
  | .u opcode .. => opcode = 0x37 ∨ opcode = 0x17
  | _ => False

theorem setWidth_signExtend (imm : Word) : (imm.signExtend 64).setWidth 32 = imm :=
  BitVec.eq_of_getLsbD_eq fun i hi => by
    simp [BitVec.getElem_signExtend, hi, Nat.lt_of_lt_of_le hi (by decide : 32 ≤ 64)]

theorem decode_of_decodes {w : Word} {e : Encoding} (hdecoded : Decoded e)
    (hdecodes : Encoding.Decodes w e) :
    decode w = some e := by
  have himm := setWidth_signExtend
  unfold decode
  cases e with
  | r opcode rd funct3 rs1 rs2 funct7 =>
    obtain ⟨hopcode, hrd, hfunct3, hrs1, hrs2, hfunct7⟩ := hdecodes
    cases hdecoded
    rw [hopcode, hrd, hfunct3, hrs1, hrs2, hfunct7]
    rfl
  | i opcode rd funct3 rs1 imm =>
    obtain ⟨hopcode, hrd, hfunct3, hrs1, himmediate⟩ := hdecodes
    rw [hopcode, hrd, hfunct3, hrs1, himmediate, himm]
    rcases hdecoded with rfl | rfl | rfl | rfl <;> rfl
  | s opcode funct3 rs1 rs2 imm =>
    obtain ⟨hopcode, hfunct3, hrs1, hrs2, himmediate⟩ := hdecodes
    rw [hopcode, hfunct3, hrs1, hrs2, himmediate, himm]
    rcases hdecoded with rfl | rfl <;> rfl
  | b opcode funct3 rs1 rs2 imm =>
    obtain ⟨hopcode, hfunct3, hrs1, hrs2, himmediate⟩ := hdecodes
    cases hdecoded
    rw [hopcode, hfunct3, hrs1, hrs2, himmediate, himm]
    rfl
  | u opcode rd imm =>
    obtain ⟨hopcode, hrd, himmediate⟩ := hdecodes
    rw [hopcode, hrd, himmediate, himm]
    rcases hdecoded with rfl | rfl <;> rfl
  | r4 | j => exact hdecoded.elim

theorem run_encode (h : Hart) {e : Encoding} (hdecoded : Decoded e)
    (hrepresentable : e.Representable) (rest : List (Except String Word)) :
    run h (e.encode :: rest) = (h.exec e).bind (run · rest) := by
  cases hw : e.encode with
  | ok w => rw [run, decode_of_decodes hdecoded (Encoding.decodes_of_encode hw), Option.bind_some]
  | error message =>
    have hanswered := Encoding.encode_answered e
    rw [hw] at hanswered
    cases hanswered with
    | refused unrepresentable => exact absurd hrepresentable unrepresentable

theorem run_append (h : Hart) (code rest : List (Except String Word)) :
    run h (code ++ rest) = (run h code).bind (run · rest) := by
  induction code generalizing h with
  | nil => rfl
  | cons w code ih =>
    cases w with
    | error message => rfl
    | ok w =>
      cases hstep : (decode w).bind h.exec with
      | none => rw [List.cons_append, run, run, hstep]; rfl
      | some h' => rw [List.cons_append, run, run, hstep]; exact ih h'

end Hart

end Riscv
