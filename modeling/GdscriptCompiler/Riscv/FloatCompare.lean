import GdscriptCompiler.Ir.Opcode
import GdscriptCompiler.Lib.Comparison

/-!
# FloatCompare — the sequences emitted for FLOAT comparisons and branches

Doubles are any domain with the three comparisons of the D extension; the Variant slot of the result
is the byte that `sb` writes and `lbu` reads back.
-/

namespace Riscv

open Lib Ir

def regT2 : Nat := 7
def regFa0 : Nat := 0
def regFa1 : Nat := 1

inductive FloatInstr where
  | feq (rd lhs rhs : Nat)
  | flt (rd lhs rhs : Nat)
  | fle (rd lhs rhs : Nat)
  | xori (rd rs : Nat) (imm : BitVec 64)
  | sb (rs : Nat)
  | lbu (rd : Nat)
  -- branches to the label under discussion, on a register being zero or not
  | beqz (rs : Nat)
  | bnez (rs : Nat)

structure FloatMachine (α : Type) where
  x : Nat → BitVec 64
  f : Nat → α
  slot : BitVec 8
  taken : Bool

namespace FloatMachine

variable {α : Type}

def setX (m : FloatMachine α) (rd : Nat) (v : BitVec 64) : FloatMachine α :=
  { m with x := fun r => if r = rd then v else m.x r }

@[simp] theorem setX_x (m : FloatMachine α) (rd : Nat) (v : BitVec 64) :
    (m.setX rd v).x rd = v := by
  simp [setX]

def exec (C : Comparison α) (m : FloatMachine α) : FloatInstr → FloatMachine α
  | .feq rd lhs rhs => m.setX rd (flag (C.eq (m.f lhs) (m.f rhs)))
  | .flt rd lhs rhs => m.setX rd (flag (C.lt (m.f lhs) (m.f rhs)))
  | .fle rd lhs rhs => m.setX rd (flag (C.le (m.f lhs) (m.f rhs)))
  | .xori rd rs imm => m.setX rd (m.x rs ^^^ imm)
  | .sb rs => { m with slot := (m.x rs).setWidth 8 }
  | .lbu rd => m.setX rd (m.slot.setWidth 64)
  | .beqz rs => { m with taken := m.x rs = 0 }
  | .bnez rs => { m with taken := m.x rs ≠ 0 }

def run (C : Comparison α) (m : FloatMachine α) (code : List FloatInstr) : FloatMachine α :=
  code.foldl (exec C) m

end FloatMachine

/-- `emit_double_compare`; `none` is its exception. -/
def emitDoubleCompare (rd : Nat) (op : Opcode) (lhs rhs : Nat) : Option (List FloatInstr) :=
  match op with
  | .cmpEq | .branchEq => some [.feq rd lhs rhs]
  | .cmpNeq | .branchNeq => some [.feq rd lhs rhs, .xori rd rd 1]
  | .cmpLt | .branchLt => some [.flt rd lhs rhs]
  | .cmpLte | .branchLte => some [.fle rd lhs rhs]
  | .cmpGt | .branchGt => some [.flt rd rhs lhs]
  | .cmpGte | .branchGte => some [.fle rd rhs lhs]
  | _ => none

/-- `emit_typed_float_comparison`, result to its stack slot. -/
def emitTypedFloatComparison (op : Opcode) : Option (List FloatInstr) :=
  (emitDoubleCompare regT2 op regFa0 regFa1).map (· ++ [.sb regT2])

def emitBoolBranch (op : Opcode) : Option (List FloatInstr) :=
  match op with
  | .branchZero => some [.lbu regT2, .beqz regT2]
  | .branchNotZero => some [.lbu regT2, .bnez regT2]
  | _ => none

def emitTypedFloatFusedBranch (op : Opcode) : Option (List FloatInstr) :=
  (emitDoubleCompare regT2 op regFa0 regFa1).map (· ++ [.bnez regT2])

end Riscv
