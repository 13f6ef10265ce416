import GdscriptCompiler.Ir.Instruction
import GdscriptCompiler.Lib.Worklist
import Mathlib.Data.Finset.Basic
import Mathlib.Data.Finset.Card

/-!
# Verifier — `ir_verify`

The two path-sensitive checks run a worklist over the basic blocks.
-/

namespace Ir

open Lib

/-- What `fail` throws: the instruction it names, if any, and its message. -/
structure VerifyError where
  instrIdx : Option Nat
  message : String

abbrev Check := Except VerifyError Unit

def failAt {α : Type} (message : String) (instrIdx : Nat) : Except VerifyError α :=
  throw ⟨some instrIdx, message⟩

def failFunction {α : Type} (message : String) : Except VerifyError α := throw ⟨none, message⟩

-- `if (c) { fail(message, i); }`
def failIf (c : Prop) [Decidable c] (message : String) (instrIdx : Nat) : Check :=
  if c then failAt message instrIdx else pure ()

def failFunctionIf (c : Prop) [Decidable c] (message : String) : Check :=
  if c then failFunction message else pure ()

-- `for (size_t i = 0; i < m_func.instructions.size(); i++)`
def IRFunction.forInstructions (f : IRFunction) (check : IRInstruction → Nat → Check) : Check :=
  f.instructions.zipIdx.forM fun (instr, i) => check instr i

/-! ## 1. Registers and operands -/

def checkRegister (maxRegisters : Int) (operand : IRValue) (i : Nat) : Check :=
  match operand with
  | .reg r =>
    if r < 0 then failAt ("negative register number r" ++ toString r) i
    else failIf (r ≥ maxRegisters) ("register r" ++ toString r ++ " is outside max_registers (" ++
      toString maxRegisters ++ ")") i
  | _ => pure ()

def checkRegisterRange (f : IRFunction) : Check := do
  failFunctionIf (f.maxRegisters < 0) "max_registers is negative"
  failFunctionIf (f.maxRegisters < f.parameters.length)
    ("max_registers (" ++ toString f.maxRegisters ++ ") does not cover the " ++
      toString f.parameters.length ++ " parameter registers")
  f.forInstructions fun instr i => instr.operands.forM fun operand =>
    checkRegister f.maxRegisters operand i

def operandMatches (operand : IRValue) (kind : OperandKind) : Bool :=
  match kind, operand with
  | .dst, .reg _ => true
  | .inout, .reg _ => true
  | .src, .reg _ => true
  | .srcList, .reg _ => true
  | .imm, .imm _ => true
  | .cnt, .imm _ => true
  | .cnt2, .imm _ => true
  | .fimm, .fimm _ => true
  | .str, .str _ => true
  | .lbl, .label _ => true
  | .lblList, .label _ => true
  | .argList, .reg _ => true
  | .argList, .imm _ => true
  | _, _ => false

/-- `check_argument_count`: CNT and CNT2 give the length of the tail, in `size_t` arithmetic. -/
def checkArgumentCount (instr : IRInstruction) (i : Nat) : Check :=
  let signature := instr.signature
  let fixed := fixedCount signature
  (List.range fixed).forM fun j =>
    let kind := signature.getD j .none
    if kind ≠ .cnt ∧ kind ≠ .cnt2 then pure ()
    else
      match instr.operands[j]? with
      | some (.imm declared) =>
        if declared < 0 then failAt ("negative argument count " ++ toString declared) i
        else
          let multiplier := if kind = .cnt2 then 2 else 1
          let expected := (fixed + declared.toInt.toNat * multiplier) % 2 ^ 64
          failIf (instr.operands.length ≠ expected)
            (opcodeName instr.opcode ++ " declares " ++ toString declared ++
              (if multiplier = 2 then " pairs" else " arguments") ++ " but has " ++
              toString instr.operands.length ++ " operands, not " ++ toString expected) i
      | _ => pure ()

/-- `check_call_destination`: the back end overwrites DST before it reads the arguments. -/
def checkCallDestination (instr : IRInstruction) (i : Nat) : Check :=
  if !hasEffect instr.opcode .call then pure ()
  else
    let dst := instr.destinationRegister
    if dst < 0 then pure ()
    else
      failIf (dst ∈ instr.collectReadRegisters) (opcodeName instr.opcode ++ " defines r" ++
        toString dst ++ " and also reads it as an argument") i

def checkOperandsOf (instr : IRInstruction) (i : Nat) : Check := do
  let signature := instr.signature
  let size := instr.operands.length
  failIf (size < fixedCount signature)
    (opcodeName instr.opcode ++ " needs at least " ++ toString (fixedCount signature) ++
      " operands but has " ++ toString size) i
  failIf (!isVariadic signature ∧ size > signature.length)
    (opcodeName instr.opcode ++ " takes " ++ toString signature.length ++ " operands but has " ++
      toString size) i
  instr.operands.zipIdx.forM fun (operand, j) =>
    failIf (!operandMatches operand (kindAt signature j))
      (opcodeName instr.opcode ++ " operand " ++ toString j ++ ": expected " ++
        operandKindName (kindAt signature j) ++ ", got " ++ operand.toString none) i
  checkArgumentCount instr i
  checkCallDestination instr i

def checkOperands (f : IRFunction) : Check := f.forInstructions checkOperandsOf

def checkCoroutine (f : IRFunction) : Check :=
  if f.isCoroutine then pure ()
  else f.forInstructions fun instr i =>
    failIf (instr.opcode = .await) "AWAIT in a function that is not marked as a coroutine" i

/-! ## 2. Labels -/

def IRInstruction.definesLabel (strings : Option StringTable) (instr : IRInstruction) :
    Option String :=
  if hasEffect instr.opcode .label then instr.operands.head?.map (·.nameOf strings) else none

def IRInstruction.labelTargets (strings : Option StringTable) (instr : IRInstruction) :
    List String :=
  if hasEffect instr.opcode .label then []
  else
    instr.operands.filterMap fun
      | .label id => some ((IRValue.label id).nameOf strings)
      | _ => none

/-- `m_label_index`: a later definition replaces an earlier one. -/
def IRFunction.labelIndex (strings : Option StringTable) (f : IRFunction) (name : String) :
    Option Nat :=
  (f.instructions.zipIdx.reverse.find? fun (instr, _) =>
    instr.definesLabel strings = some name).map Prod.snd

def checkLabels (strings : Option StringTable) (f : IRFunction) : Check := do
  f.forInstructions fun instr i =>
    match instr.definesLabel strings with
    | none => pure ()
    | some name =>
      -- the index of the labels seen before this one
      failIf ((f.instructions.take i).any fun earlier => earlier.definesLabel strings = some name)
        ("label '" ++ name ++ "' is defined more than once") i
  f.forInstructions fun instr i => (instr.labelTargets strings).forM fun name =>
    failIf ((f.labelIndex strings name).isNone) ("branch target '" ++ name ++ "' has no label") i

/-! ## 3. Basic blocks -/

structure BasicBlock where
  start : Nat
  stop : Nat
  successors : List Nat

def IRInstruction.endsBlock (instr : IRInstruction) : Bool :=
  hasEffect instr.opcode .branch || hasEffect instr.opcode .terminator

/-- The first instruction, a label, and whatever follows a branch or a terminator. -/
def IRFunction.isLeader (f : IRFunction) (i : Nat) : Bool :=
  i = 0 ||
    (f.instructions[i]?.any fun instr => hasEffect instr.opcode .label) ||
    (f.instructions[i - 1]?.any fun instr => instr.endsBlock)

def IRFunction.leaders (f : IRFunction) : List Nat :=
  (List.range f.instructions.length).filter f.isLeader

-- `block_of_instruction[i]`, which is `m_blocks.size() - 1` when the loop has come to `i`
def IRFunction.blockOf (f : IRFunction) (i : Nat) : Nat :=
  (List.range (i + 1)).countP f.isLeader - 1

def IRFunction.successorsOf (strings : Option StringTable) (f : IRFunction) (b : Nat)
    (last : IRInstruction) : List Nat :=
  (last.labelTargets strings).filterMap (fun name => (f.labelIndex strings name).map f.blockOf) ++
    if !hasEffect last.opcode .terminator && b + 1 < f.leaders.length then [b + 1] else []

/-- `build_blocks`: a block runs from its leader to the next one. -/
def IRFunction.blocks (strings : Option StringTable) (f : IRFunction) : List BasicBlock :=
  f.leaders.zipIdx.map fun (start, b) =>
    let stop := f.leaders.getD (b + 1) f.instructions.length
    { start, stop,
      successors := (f.instructions[stop - 1]?.map (f.successorsOf strings b)).getD [] }

def BasicBlock.instructions (f : IRFunction) (block : BasicBlock) : List (IRInstruction × Nat) :=
  (f.instructions.zipIdx.take block.stop).drop block.start

/-! ## 4. Definedness and types -/

-- top of the type lattice; paths that disagree merge to it
def typeUnknown : TypeHint := -2

structure RegisterState where
  defined : List Bool
  type : List TypeHint
  deriving DecidableEq

/-- Where types disagree nothing is known. -/
def mergeType (mine other : TypeHint) : TypeHint :=
  if mine ≠ typeUnknown ∧ mine ≠ other then typeUnknown else mine

/-- `RegisterState::merge_from`, with whether it changed anything. -/
def RegisterState.mergeFrom (state other : RegisterState) : RegisterState × Bool :=
  let merged : RegisterState :=
    ⟨List.zipWith (· && ·) state.defined other.defined,
      List.zipWith mergeType state.type other.type⟩
  (merged, merged ≠ state)

def resultType (instr : IRInstruction) (state : RegisterState) : TypeHint :=
  match instr.opcode with
  | .loadImm => Variant.int
  | .loadFloatImm => Variant.float
  | .loadBool => Variant.bool
  | .loadString => Variant.string
  | .convert => instr.typeHint
  | .coerce => instr.typeHint
  | .move =>
    match instr.operands with
    | _ :: .reg src :: _ => if src < 0 then typeUnknown else state.type.getD src.toNat typeUnknown
    | _ => typeUnknown
  | .makeVector2 => Variant.vector2
  | .makeVector3 => Variant.vector3
  | .makeVector4 => Variant.vector4
  | .makeVector2i => Variant.vector2i
  | .makeVector3i => Variant.vector3i
  | .makeVector4i => Variant.vector4i
  | .makeColor => Variant.color
  | .makeArray => Variant.array
  | .makeDictionary => Variant.dictionary
  | .makeDictionaryKeyed => Variant.dictionary
  | .dictHasConst => Variant.bool
  | .structCheck => Variant.bool
  | op =>
    -- a comparison's hint is about its operands
    if hasEffect op .comparison then Variant.bool
    else if hasEffect op .arithmetic && instr.typeHint ≠ typeHintNone then instr.typeHint
    else typeUnknown

def RegisterState.apply (state : RegisterState) (instr : IRInstruction) : RegisterState :=
  let dst := instr.destinationRegister
  if 0 ≤ dst ∧ dst.toNat < state.defined.length then
    ⟨state.defined.set dst.toNat true, state.type.set dst.toNat (resultType instr state)⟩
  else state

/-- One operand of `check_type_hint`; the number counts the operands read so far. -/
def checkOperandHint (instr : IRInstruction) (state : RegisterState) (i readIndex : Nat)
    (operand : IRValue) (operandIndex : Nat) : Except VerifyError Nat :=
  match operand with
  | .reg r =>
    if !instr.readsOperand operandIndex then pure readIndex
    else if r < 0 ∨ r.toNat ≥ state.type.length then pure readIndex
    else
      let known := state.type.getD r.toNat typeUnknown
      if known = typeUnknown then pure (readIndex + 1)
      else
        let expected :=
          if readIndex = 0 ∧ instr.lhsTypeHint ≠ typeHintNone then instr.lhsTypeHint
          else if readIndex = 1 ∧ instr.rhsTypeHint ≠ typeHintNone then instr.rhsTypeHint
          else instr.typeHint
        if known ≠ expected then
          failAt (opcodeName instr.opcode ++ " is hinted " ++ variantTypeName expected ++
            " but r" ++ toString r ++ " holds " ++ variantTypeName known) i
        else pure (readIndex + 1)
  | _ => pure readIndex

def checkTypeHint (instr : IRInstruction) (state : RegisterState) (i : Nat) : Check :=
  if instr.opcode = .convert then
    failIf (instr.typeHint = typeHintNone) "CONVERT does not say what it converts to" i
  else if instr.opcode = .coerce then
    failIf (instr.typeHint = typeHintNone) "COERCE does not say what it coerces to" i
  else if instr.typeHint = typeHintNone then pure ()
  else if !hasEffect instr.opcode .arithmetic then pure ()
  else do
    let _ ← instr.operands.zipIdx.foldlM
      (fun readIndex (operand, j) => checkOperandHint instr state i readIndex operand j) 0

/-- The part of `transfer` that runs when it reports. -/
def checkReads (instr : IRInstruction) (state : RegisterState) (i : Nat) : Check :=
  -- the implicit read of a bare RETURN is not checked
  if instr.isBareReturn then pure ()
  else do
    instr.collectReadRegisters.forM fun r =>
      failIf (0 ≤ r ∧ r.toNat < state.defined.length ∧ !state.defined.getD r.toNat false)
        ("r" ++ toString r ++
          " is read but is not defined on every path that reaches this instruction") i
    checkTypeHint instr state i

def transfer (f : IRFunction) (block : BasicBlock) (state : RegisterState) : RegisterState :=
  (block.instructions f).foldl (fun state (instr, _) => state.apply instr) state

/-- `transfer` with `report`. -/
def reportBlock (f : IRFunction) (block : BasicBlock) (state : RegisterState) : Check := do
  let _ ← (block.instructions f).foldlM (fun state (instr, i) => do
    checkReads instr state i
    return state.apply instr) state

def IRFunction.registerCount (f : IRFunction) : Nat := f.maxRegisters.toNat

/-- Parameters are defined on entry. -/
def IRFunction.entryState (f : IRFunction) : RegisterState :=
  ⟨(List.range f.registerCount).map (· < f.parameters.length),
    List.replicate f.registerCount typeUnknown⟩

def IRFunction.definednessFlow (strings : Option StringTable) (f : IRFunction) :
    Flow RegisterState where
  succs b := ((f.blocks strings)[b]?.map BasicBlock.successors).getD []
  transfer b state := ((f.blocks strings)[b]?.map fun block => transfer f block state).getD state
  merge := RegisterState.mergeFrom

/-- The state on entry to each reachable block: forward joins first, no block queued twice. -/
def IRFunction.definedness (strings : Option StringTable) (f : IRFunction) :
    Nat → Option RegisterState :=
  match (f.definednessFlow strings).solve .smallest f.leaders.length (2 * f.registerCount)
      f.entryState with
  | some work => work.entry
  | none => fun _ => none

/-- `check_definedness_and_types`; blocks no path reaches are not errors. -/
def checkDefinednessAndTypes (strings : Option StringTable) (f : IRFunction) : Check :=
  let entries := f.definedness strings
  (f.blocks strings).zipIdx.forM fun (block, b) =>
    match entries b with
    | none => pure ()
    | some state => reportBlock f block state

/-! ## 5. Scope marks -/

-- the scope a SCOPE_MARK or SCOPE_RELEASE names
def IRInstruction.scopeId (instr : IRInstruction) : Int64 :=
  match instr.operands.head? with
  | some (.imm id) => id
  | _ => 0

def applyScope (marked : Finset Int64) (instr : IRInstruction) : Finset Int64 :=
  if instr.opcode = .scopeMark then insert instr.scopeId marked else marked

def IRFunction.scopeFlow (strings : Option StringTable) (f : IRFunction) : Flow (Finset Int64) where
  succs b := ((f.blocks strings)[b]?.map BasicBlock.successors).getD []
  transfer b marked := ((f.blocks strings)[b]?.map fun block =>
    (block.instructions f).foldl (fun marked (instr, _) => applyScope marked instr) marked).getD marked
  merge entry out := (entry ∩ out, entry ∩ out ≠ entry)

def IRFunction.scopeMarks (strings : Option StringTable) (f : IRFunction) :
    Nat → Option (Finset Int64) :=
  match (f.scopeFlow strings).solve .fifo f.leaders.length f.instructions.length ∅ with
  | some work => work.entry
  | none => fun _ => none

def reportScopes (f : IRFunction) (block : BasicBlock) (marked : Finset Int64) : Check := do
  let _ ← (block.instructions f).foldlM (fun marked (instr, i) => do
    failIf (instr.opcode = .scopeRelease ∧ instr.scopeId ∉ marked)
      ("scope " ++ toString instr.scopeId ++ " is released on a path where it was never marked") i
    return applyScope marked instr) marked

def checkScopeMarks (strings : Option StringTable) (f : IRFunction) : Check :=
  let entries := f.scopeMarks strings
  (f.blocks strings).zipIdx.forM fun (block, b) =>
    match entries b with
    | none => pure ()
    | some marked => reportScopes f block marked

def irVerify (strings : Option StringTable) (f : IRFunction) : Check := do
  checkRegisterRange f
  checkOperands f
  checkLabels strings f
  checkCoroutine f
  checkDefinednessAndTypes strings f
  checkScopeMarks strings f

end Ir
