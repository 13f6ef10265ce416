import GdscriptCompiler.Riscv.RelaxInvariant
import Mathlib.Logic.Function.Basic
import Mathlib.Tactic.Common

/-!
# Symbolic — running a code buffer before its labels are resolved

A label use is read as its label, whatever displacement the word holds; the instructions that touch
neither the program counter nor a label are a parameter.
-/

namespace Riscv

open Lib

/-- The integer registers and whatever else the machine has. -/
structure Machine (μ : Type*) where
  regs : BitVec 5 → BitVec 64
  rest : μ

section Registers

variable {μ : Type*}

/-- x0 reads as zero. -/
def Machine.read (m : Machine μ) (r : BitVec 5) : BitVec 64 := if r = 0 then 0 else m.regs r

def Machine.write (m : Machine μ) (r : BitVec 5) (v : BitVec 64) : Machine μ :=
  { m with regs := fun r' => if r' = r ∧ r ≠ 0 then v else m.regs r' }

end Registers

/-- What addresses stand for. `page` is what the AUIPC of a far jump leaves in its register, on the
way to an offset. -/
structure Symbols where
  address : Nat → BitVec 64
  place : BitVec 64 → Option Nat
  data : Nat → BitVec 64
  page : Nat → BitVec 64

/-- The rest of the instruction set: a word that neither jumps nor reads the program counter, and an
AUIPC together with the word behind it, given the address the two reach. -/
structure Core (μ : Type*) where
  exec : Word → Machine μ → Option (Machine μ)
  pair : Word → Word → BitVec 64 → Machine μ → Option (Machine μ)

namespace CodeBuffer

def useAt (b : CodeBuffer) (pos : Nat) : Option LabelUse :=
  b.labelUses.find? fun use => use.codeOffset == pos

/-- The table whose dispatch starts here. -/
def tableAt (b : CodeBuffer) (pos : Nat) : Option DenseJumpTable :=
  b.denseJumpTables.find? fun table => 0 < table.count && b.useOffset table.firstUse == pos + 12

/-- The offset a branch or jump use goes to. -/
def target (b : CodeBuffer) (use : LabelUse) : Option Nat :=
  (b.labelOffset use.label).map fun off => ((off : Int) + use.addend).toNat

/-- The address an AUIPC use reaches: code labels move with the code, data labels come later. -/
def reach (sym : Symbols) (b : CodeBuffer) (use : LabelUse) : BitVec 64 :=
  (match b.labelOffset use.label with
    | some off => sym.address off
    | none => sym.data use.label) + BitVec.ofInt 64 use.addend

end CodeBuffer

/-- The scale and index register of `shNadd t0, index, t1`. -/
def dispatchScale (instr : Word) : Option (Nat × BitVec 5) :=
  if instr = shAdd 4 (rs1Of instr) then some (2, rs1Of instr)
  else if instr = shAdd 6 (rs1Of instr) then some (3, rs1Of instr)
  else none

section Step

variable {μ : Type*} (core : Core μ) (sym : Symbols) (b : CodeBuffer)

/-- `auipc t1, 0; shNadd t0, index, t1; jalr zero, 12(t0)` in front of a table. -/
def stepTable (table : DenseJumpTable) (pos : Nat) (m : Machine μ) : Option (Nat × Machine μ) :=
  if loadWord b.code pos = auipcTable ∧ loadWord b.code (pos + 8) = jalrTable then
    match dispatchScale (loadWord b.code (pos + 4)) with
    | none => none
    | some (scale, index) =>
      let m := m.write 6 (sym.address pos)
      let k := (m.read index).toNat
      -- the guard in front of the dispatch keeps the index below the table's size
      if k < table.count then
        let entry := pos + 12 + k * 2 ^ scale
        some (entry, m.write 5 (sym.address entry - 12))
      else none
  else none

/-- A word with a label use. -/
def stepUse (use : LabelUse) (pos : Nat) (m : Machine μ) : Option (Nat × Machine μ) :=
  let instr := loadWord b.code pos
  if opcodeOf instr = opBranch then
    match branchCond (funct3Of instr) (m.read (rs1Of instr)) (m.read (rs2Of instr)) with
    | none => none
    | some false => some (pos + 4, m)
    | some true => (b.target use).map fun off => (off, m)
  else if opcodeOf instr = opJal then
    (b.target use).map fun off => (off, m.write (rdOf instr) (sym.address (pos + 4)))
  else if opcodeOf instr = opAuipc then
    let next := loadWord b.code (pos + 4)
    if opcodeOf next = opJalr then
      if rs1Of next = rdOf instr then
        (b.target use).map fun off =>
          (off, (m.write (rdOf instr) (sym.page off)).write (rdOf next) (sym.address (pos + 8)))
      else none
    else (core.pair instr next (b.reach sym use) m).map fun m => (pos + 8, m)
  else none

/-- A word without one: jumps here have their displacement filled in or go through a register. -/
def stepPlain (pos : Nat) (m : Machine μ) : Option (Nat × Machine μ) :=
  let instr := loadWord b.code pos
  if opcodeOf instr = opBranch then
    match branchCond (funct3Of instr) (m.read (rs1Of instr)) (m.read (rs2Of instr)) with
    | none => none
    | some false => some (pos + 4, m)
    | some true => some (((pos : Int) + (immB instr).toInt).toNat, m)
  else if opcodeOf instr = opJal then
    some (((pos : Int) + (immJ instr).toInt).toNat, m.write (rdOf instr) (sym.address (pos + 4)))
  else if opcodeOf instr = opJalr then
    (sym.place ((m.read (rs1Of instr) + immI instr) &&& ~~~1)).map fun off =>
      (off, m.write (rdOf instr) (sym.address (pos + 4)))
  else (core.exec instr m).map fun m => (pos + 4, m)

def step (pos : Nat) (m : Machine μ) : Option (Nat × Machine μ) :=
  if pos % 4 = 0 ∧ pos + 4 ≤ b.code.length then
    match b.tableAt pos with
    | some table => stepTable sym b table pos m
    | none =>
      match b.useAt pos with
      | some use => stepUse core sym b use pos m
      | none => stepPlain core sym b pos m
  else none

def steps : (k : Nat) → Nat → Machine μ → Option (Nat × Machine μ)
  | 0, pos, m => some (pos, m)
  | k + 1, pos, m => (step core sym b pos m).bind fun next => steps k next.1 next.2

end Step

/-- The symbols of the same program moved by `φ`. -/
structure Symbols.Moved (sym sym' : Symbols) (φ : Nat → Nat) : Prop where
  address : ∀ off, sym'.address (φ off) = sym.address off
  place : ∀ a, sym'.place a = (sym.place a).map φ
  data : ∀ id, sym'.data id = sym.data id

/-- Every register but t6 agrees, and so does everything else. -/
def SameButScratch {μ : Type*} (m m' : Machine μ) : Prop :=
  (∀ r, r ≠ 31 → m'.regs r = m.regs r) ∧ m'.rest = m.rest

theorem SameButScratch.refl {μ : Type*} (m : Machine μ) : SameButScratch m m :=
  ⟨fun _ _ => rfl, rfl⟩

end Riscv
