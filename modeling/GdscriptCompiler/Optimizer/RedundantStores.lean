import GdscriptCompiler.Optimizer.Meaning
import Mathlib.Data.List.Sort

/-!
# RedundantStores — `IROptimizer::eliminate_redundant_stores`

Loads and moves into a register are held back until the register is read; one that is overwritten
before that is never emitted.
-/

namespace Optimizer

open Ir Lib

/-! ## 1. The pass -/

/-- `ir_instruction_is_pure`: for a GLOBAL_CALL the function decides. -/
def instructionIsPure (table : GlobalFunctions) (instr : IRInstruction) : Except Fault Bool :=
  if !isPure instr.opcode then .ok false
  else
    match instr.opcode, instr.operands with
    | .globalCall, _ :: .imm fn :: _ => (table.globalFunction fn).map fun g => !g.impure
    | _, _ => .ok true

-- `pending_stores`: a register and the index of the load held back for it
abbrev Pending := List (Int × Nat)

def Pending.erase (pending : Pending) (reg : Int) : Pending := pending.filter fun p => p.1 ≠ reg

def Pending.record (pending : Pending) (reg : Int) (i : Nat) : Pending :=
  pending.erase reg ++ [(reg, i)]

structure StoreState where
  out : List IRInstruction := []
  pending : Pending := []

/-- `flush_pending`: in the order of the text. -/
def StoreState.flush (f : IRFunction) (st : StoreState) : StoreState where
  out := st.out ++ (st.pending.insertionSort fun a b => a.2 < b.2).filterMap fun p =>
    f.instructions[p.2]?
  pending := []

def readsPendingStore (instr : IRInstruction) (pending : Pending) : Bool :=
  instr.collectReadRegisters.any fun r => pending.any fun p => p.1 = r

def sameLoaded : Option IRValue → Option IRValue → Bool
  | some (.imm v), some (.imm v') => v = v'
  | some (.fimm d), some (.fimm d') => d == d'
  | some (.reg r), some (.reg r') => r = r'
  | _, _ => false

/-- `is_identical`: the opcode and the second operand. -/
def isIdentical (prev instr : IRInstruction) : Bool :=
  prev.opcode = instr.opcode && prev.operands.length = instr.operands.length &&
    (instr.operands.length < 2 || sameLoaded instr.operands[1]? prev.operands[1]?)

section Pass

variable (table : GlobalFunctions) (f : IRFunction)

def holdLoad (st : StoreState) (i : Nat) (instr : IRInstruction) (dst : Int) : StoreState :=
  match st.pending.lookup dst with
  | some prev =>
    if f.instructions[prev]?.any fun p => isIdentical p instr then st
    else { st with pending := st.pending.record dst i }
  | none => { st with pending := st.pending.record dst i }

def emitPure (st : StoreState) (instr : IRInstruction) : StoreState where
  out := st.out ++ [instr]
  -- written without being read in between: the load was dead
  pending := if 0 ≤ instr.destinationRegister then st.pending.erase instr.destinationRegister else
    st.pending

/-- What a pure instruction that reads nothing pending does. -/
def storePure (st : StoreState) (i : Nat) (instr : IRInstruction) : StoreState :=
  match hasEffect instr.opcode .simpleLoad, instr.operands with
  | true, .reg dst :: _ => holdLoad f st i instr dst
  | _, _ => emitPure st instr

def storeStep (st : StoreState) (i : Nat) (instr : IRInstruction) : Except Fault StoreState := do
  if ← instructionIsPure table instr then
    let st := if readsPendingStore instr st.pending then st.flush f else st
    return storePure f st i instr
  else
    let st := st.flush f
    return { st with out := st.out ++ [instr] }

def storeFrom (i : Nat) (st : StoreState) : List IRInstruction → Except Fault StoreState
  | [] => .ok st
  | instr :: rest => do storeFrom (i + 1) (← storeStep table f st i instr) rest

def eliminateRedundantStores : Except Fault IRFunction := do
  let st ← storeFrom table f 0 {} f.instructions
  return { f with instructions := (st.flush f).out }

end Pass

/-! ## 2. Pure instructions -/

section Pure

variable {instr : IRInstruction}

theorem not_label_of_isPure (h : isPure instr.opcode = true) : instr.opcode ≠ .label := by
  intro hop
  rw [hop] at h
  cases h

theorem isPure_of_instructionIsPure {table : GlobalFunctions}
    (h : instructionIsPure table instr = .ok true) :
    isPure instr.opcode = true := by
  unfold instructionIsPure at h
  split at h
  · cases h
  · rename_i hpure
    exact Bool.not_eq_false _ ▸ fun hfalse => hpure (by rw [hfalse]; rfl)

-- every opcode without side effects writes its first operand
theorem hasRow_of_isPure {op : Opcode} (h : isPure op = true) : hasRow op [.dst] = true := by
  revert h
  cases op <;> decide

theorem pure_destination (hfits : Fits instr) (hpure : isPure instr.opcode = true) :
    ∃ dst rest, instr.operands = .reg dst :: rest ∧ instr.destinationRegister = dst := by
  have hrow := hasRow_of_isPure hpure
  obtain ⟨first, rest, hops, hfirst⟩ := hfits.row [.dst] hrow
  obtain _ | ⟨hdst, _ | _⟩ := hfirst
  obtain ⟨dst, rfl⟩ := exists_reg (.inl rfl) hdst
  exact ⟨dst, rest, hops, destination_of_index (destinationOperandIndex_of_hasRow hrow)
    (by rw [hops]; rfl)⟩

end Pure

end Optimizer
