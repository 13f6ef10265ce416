import GdscriptCompiler.Lib.Rounds
import GdscriptCompiler.Lib.Splice
import GdscriptCompiler.Riscv.CodeBuffer
import GdscriptCompiler.Riscv.Decode

/-!
# Relax — `RISCVCodeGen::relax_branches`

One round marks the B-type and J-type words whose displacement does not fit: a branch becomes the
inverted branch over a JAL, a JAL becomes AUIPC/JALR through t6.
-/

namespace Riscv

open Lib

def iTypeImmBits : Nat := 12
def bTypeImmBits : Nat := 13
def jTypeImmBits : Nat := 21

/-- `REG_WIDE_SCRATCH`, t6. -/
def regWideScratch : BitVec 5 := 31

def fitsInSigned (value : Int) (bits : Nat) : Bool :=
  decide (-(2 ^ (bits - 1) : Int) ≤ value) && decide (value < 2 ^ (bits - 1))

/-- Does the first loop of a round mark this use? -/
def outOfReach (b : CodeBuffer) (use : LabelUse) : Bool :=
  if use.codeOffset + 4 > b.code.length then false
  else
    match b.labelOffset use.label with
    | none => false
    | some target =>
      let opcode := opcodeOf (loadWord b.code use.codeOffset)
      if opcode ≠ opBranch ∧ opcode ≠ opJal then false
      else
        let displacement : Int := (target : Int) - use.codeOffset + use.addend
        !fitsInSigned displacement (if opcode = opBranch then bTypeImmBits else jTypeImmBits)

/-- The dispatch word `sh2add` turned into `sh3add`: entries are two words apart now. -/
def widenDispatch (instr : Word) : Word :=
  (instr &&& ~~~((7 : Word) <<< 12)) ||| ((6 : Word) <<< 12)

/-- The second loop: one entry of a dense table out of reach relaxes the whole table. -/
def widenTable (uses : List LabelUse) (acc : List Bool × List Byte) (table : DenseJumpTable) :
    List Bool × List Byte :=
  let (relax, code) := acc
  if ((relax.drop table.firstUse).take table.count).contains true then
    let filled := relax.take table.firstUse ++ List.replicate table.count true ++
      relax.drop (table.firstUse + table.count)
    match uses[table.firstUse]? with
    | none => (filled, code)
    | some use =>
      let dispatch := use.codeOffset - 8
      (filled, storeWord code dispatch (widenDispatch (loadWord code dispatch)))
  else acc

/-- A branch on the opposite condition: the displacement cleared, the low bit of funct3 flipped. -/
def invertBranch (instr : Word) : Word := (instr &&& 0x01FFF07F) ^^^ ((1 : Word) <<< 12)

def rdField (instr : Word) : Word := (instr >>> 7) &&& 0x1F

/-- `auipc t6, 0`. -/
def auipcScratch : Word := opAuipc ||| (regWideScratch.setWidth 32 <<< 7)

/-- `jalr rd, t6, 0`. -/
def jalrScratch (rd : Word) : Word :=
  opJalr ||| (rd <<< 7) ||| (regWideScratch.setWidth 32 <<< 15)

def skipLabel (i : Nat) : String := ".relax_skip" ++ toString i

/-- What the third loop has gathered so far. -/
structure RelaxAcc where
  buf : CodeBuffer
  insertions : List (Nat × Word)
  relaxedBranches : List Nat

def relaxUse (acc : RelaxAcc) (i : Nat) : RelaxAcc :=
  match acc.buf.labelUses[i]? with
  | none => acc
  | some use =>
    let instr := loadWord acc.buf.code use.codeOffset
    if opcodeOf instr = opBranch then
      let (named, skip) := acc.buf.labelId (skipLabel i)
      let marked := (named.setLabel skip (use.codeOffset + 4)).markLabelUse skip use.codeOffset 0
      { buf := { marked with code := storeWord marked.code use.codeOffset (invertBranch instr) }
        insertions := acc.insertions ++ [(use.codeOffset + 4, opJal)]
        relaxedBranches := acc.relaxedBranches ++ [i] }
    else
      { buf := { acc.buf with code := storeWord acc.buf.code use.codeOffset auipcScratch }
        insertions := acc.insertions ++ [(use.codeOffset + 4, jalrScratch (rdField instr))]
        relaxedBranches := acc.relaxedBranches }

/-- `std::sort` on (point, word) pairs. -/
def sortInsertions (ins : List (Nat × Word)) : List (Nat × Word) :=
  ins.mergeSort fun a b => a.1 < b.1 || (a.1 == b.1 && a.2.toNat ≤ b.2.toNat)

/-- The offset a round leaves a line-table row at; addresses are 32-bit. -/
def shiftLine (shift : Nat → Nat) (entry : LineTableEntry) : LineTableEntry :=
  { entry with address := shift entry.address % 2 ^ 32 }

/-- The rebuilding half of a round: splice the words in and move every recorded offset. -/
def applyInsertions (acc : RelaxAcc) : CodeBuffer :=
  let insertions := sortInsertions acc.insertions
  let b := acc.buf
  let shift := shiftBy 4 (insertions.map Prod.fst)
  let shifted := b.labelUses.map fun use => { use with codeOffset := shift use.codeOffset }
  { b with
    code := spliceFrom b.code 0 (insertions.map fun e => (e.1, wordBytes e.2))
    labelOffsets := b.labelOffsets.map (Option.map shift)
    functions := b.functions.map fun entry => (entry.1, shift entry.2)
    instanceInitOffset :=
      if b.instanceInitOffset ≠ 0 then shift b.instanceInitOffset else b.instanceInitOffset
    lineTable := b.lineTable.map (shiftLine shift)
    -- a relaxed branch's use follows the JAL that now carries its target
    labelUses := shifted.mapIdx fun i use =>
      if i ∈ acc.relaxedBranches then { use with codeOffset := use.codeOffset + 4 } else use }

/-- The uses one round rewrites, and the code with the tables it rescales already widened. -/
def markRelaxed (b : CodeBuffer) : List Bool × List Byte :=
  b.denseJumpTables.foldl (widenTable b.labelUses) (b.labelUses.map (outOfReach b), b.code)

def relaxMarked (b : CodeBuffer) (relax : List Bool) (code : List Byte) : RelaxAcc :=
  (List.range relax.length).foldl
    (fun acc i => if relax.getD i false then relaxUse acc i else acc)
    ⟨{ b with code }, [], []⟩

/-- One round of the loop; `none` when nothing was out of reach. -/
def relaxRound (b : CodeBuffer) : Option CodeBuffer :=
  let (relax, code) := markRelaxed b
  let acc := relaxMarked b relax code
  if acc.insertions.isEmpty then none else some (applyInsertions acc)

/-- `relax_branches`, run for at most `tries` rounds: `none` when they do not suffice. -/
def relaxBranches (tries : Nat) (b : CodeBuffer) : Option CodeBuffer := rounds relaxRound tries b

end Riscv
