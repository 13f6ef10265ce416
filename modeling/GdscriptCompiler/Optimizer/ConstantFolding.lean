import GdscriptCompiler.Optimizer.Analysis
import GdscriptCompiler.Optimizer.FoldBinary

/-!
# ConstantFolding — `IROptimizer::constant_folding`

Past a fixed number of visits the analysis is given up and every block but the first starts from
nothing.
-/

namespace Optimizer

open Ir Lib

/-! ## 1. Constants -/

namespace Constant

variable {F : Type}

def boolValue : Constant F → Bool
  | bool b => b
  | _ => false

-- `truthiness`; a STRING is undecidable
def truthiness : Constant Float → Option Bool
  | int v => some (v ≠ 0)
  | bool b => some b
  | float d => some (d != 0.0)
  | string _ => none

end Constant

/-- `ConstantMap`. -/
abbrev Constants := List (Int × Constant Float)

namespace Constants

def find? (C : Constants) (r : Int) : Option (Constant Float) := C.lookup r

def invalidate (C : Constants) (r : Int) : Constants := C.filter fun p => p.1 ≠ r

/-- `set_register_constant`. -/
def set (C : Constants) (r : Int) (c : Constant Float) : Constants := (r, c) :: C.invalidate r

/-- `meet_constants`, and whether it dropped anything. Doubles are compared as bit patterns. -/
def meet (into other : Constants) : Constants × Bool :=
  let kept := into.filter fun p => other.find? p.1 = some p.2
  (kept, kept.length ≠ into.length)

end Constants

/-- What `fold_instruction` leaves in `m_constants`, and what it emits. -/
structure Folding where
  constants : Constants
  emitted : List IRInstruction

-- `folded = true`
def Constants.folded (C : Constants) (dst : Int) (c : Constant Float) (load : IRInstruction) :
    Folding :=
  ⟨C.set dst c, [load]⟩

-- `if (!folded)`
def Constants.unknown (C : Constants) (dst : Int) (instr : IRInstruction) : Folding :=
  ⟨C.invalidate dst, [instr]⟩

def loadImm (dst : Int) (v : Int64) : IRInstruction where
  opcode := .loadImm
  operands := [.reg dst, .imm v]
  typeHint := Variant.int

def loadFloatImm (dst : Int) (d : Float) : IRInstruction where
  opcode := .loadFloatImm
  operands := [.reg dst, .fimm d]
  typeHint := Variant.float

def loadBool (dst : Int) (b : Bool) : IRInstruction where
  opcode := .loadBool
  operands := [.reg dst, .imm (if b then 1 else 0)]

-- a number, by its type
def loadNumber (dst : Int) : Constant Float → IRInstruction
  | .float d => loadFloatImm dst d
  | c => loadImm dst c.intValue

def loadTruth (dst : Int) (c : Constant Float) : IRInstruction := loadBool dst c.boolValue

/-! ## 2. The instructions that fold -/

section Fold

variable (table : GlobalFunctions) (C : Constants) (instr : IRInstruction)

/-- CONVERT, NEG and NOT: `compute` is `none` where they do not fold. -/
def foldUnary (compute : Constant Float → Option (Constant Float))
    (load : Int → Constant Float → IRInstruction) : Except Fault Folding :=
  match instr.operands with
  | .reg dst :: .reg src :: _ =>
    match (C.find? src).bind compute with
    | some c => .ok (C.folded dst c (load dst c))
    | none => .ok (C.unknown dst instr)
  | _ => .error .malformed

/-- Arithmetic, comparisons, AND and OR. -/
def foldBinary (compute : Constant Float → Constant Float → Option (Constant Float))
    (load : Int → Constant Float → IRInstruction) : Except Fault Folding :=
  match instr.operands with
  | .reg dst :: .reg lhs :: .reg rhs :: _ =>
    match C.find? lhs, C.find? rhs with
    | some l, some r =>
      match compute l r with
      | some c => .ok (C.folded dst c (load dst c))
      | none => .ok (C.unknown dst instr)
    | _, _ => .ok (C.unknown dst instr)
  | .reg dst :: _ => .ok (C.unknown dst instr)
  | _ => .ok ⟨C, [instr]⟩

def convertConstant (hint : TypeHint) (c : Constant Float) : Option (Constant Float) :=
  if hint = Variant.float then
    match c with
    | .int v => some (.float v.toFloat)
    | .bool b => some (.float (if b then 1.0 else 0.0))
    | _ => none
  else if hint = Variant.int then
    match c with
    | .bool b => some (.int (if b then 1 else 0))
    | .float d =>
      if d.isFinite && d ≥ int64Min.toFloat && d < -int64Min.toFloat then some (.int d.toInt64) else none
    | _ => none
  else none

def negConstant : Constant Float → Option (Constant Float)
  | .int v => some (.int (0 - v))
  | .float d => some (.float (-d))
  | _ => none

def notConstant : Constant Float → Option (Constant Float)
  | .bool b => some (.bool !b)
  | _ => none

def logicalConstant (op : Opcode) : Constant Float → Constant Float → Option (Constant Float)
  | .bool l, .bool r => some (.bool (if op = .and then l && r else l || r))
  | _, _ => none

def foldBranch : Folding :=
  match instr.operands with
  | .reg cond :: target :: _ =>
    match (C.find? cond).bind Constant.truthiness with
    | some truth =>
      let taken := if instr.opcode = .branchZero then !truth else truth
      ⟨C, if taken then [{ opcode := .jump, operands := [target] }] else []⟩
    | none => ⟨C, [instr]⟩
  | _ => ⟨C, [instr]⟩

def intArgument : Constant Float → Option Int64
  | .int v => some v
  | .bool b => some (if b then 1 else 0)
  | _ => none

def floatArgument : Constant Float → Option Float
  | .float d => some d
  | .int v => some v.toFloat
  | .bool b => some (if b then 1.0 else 0.0)
  | _ => none

-- the arguments, if all of them are known
def knownArguments {α : Type} (read : Constant Float → Option α) (operands : List IRValue) :
    Option (List α) :=
  operands.mapM fun
    | .reg r => (C.find? r).bind read
    | _ => none

def foldGlobalFunction (info : GlobalFunction) (operands : List IRValue) :
    Except Fault (Option (Constant Float)) :=
  match info.kind with
  | .intOp =>
    match knownArguments C intArgument operands with
    | some ints => do
        let value ← table.evalGlobalInt info.fn ints
        match info.result with
        | .bool => return some (.bool (value ≠ 0))
        | .int => return some (.int value)
        | _ => return none
    | none => .ok none
  | .floatOp =>
    match knownArguments C floatArgument operands with
    | some floats => do
        let value ← table.evalGlobalFloat info.fn floats
        match info.result with
        | .bool => return some (.bool (value != 0.0))
        | .float => return some (.float value)
        | _ => return none
    | none => .ok none
  | _ => .ok none

def loadResult (dst : Int) (c : Constant Float) : IRInstruction :=
  match c with
  | .bool b => loadBool dst b
  | c => loadNumber dst c

def foldGlobalCall : Except Fault Folding :=
  let dst := instr.destinationRegister
  match decide (0 ≤ dst), instr.operands with
  | true, _ :: .imm fn :: _ :: .imm count :: operands => do
      let info ← table.globalFunction fn
      if !info.impure && count.toUInt64.toNat ≤ 3 && operands.length = count.toUInt64.toNat then
        match ← foldGlobalFunction table C info operands with
        | some c => return C.folded dst c (loadResult dst c)
        | none => return C.unknown dst instr
      else return C.unknown dst instr
  | _, _ => .ok (C.unknown dst instr)

def foldInstruction : Except Fault Folding :=
  match instr.opcode with
  | .label | .breakpoint | .scopeMark | .scopeRelease => .ok ⟨C, [instr]⟩
  | .loadImm =>
    match instr.operands with
    | .reg dst :: .imm v :: _ => .ok ⟨C.set dst (.int v), [instr]⟩
    | _ => .error .malformed
  | .loadFloatImm =>
    match instr.operands with
    | .reg dst :: .fimm d :: _ => .ok ⟨C.set dst (.float d), [instr]⟩
    | _ => .error .malformed
  | .loadBool =>
    match instr.operands with
    | .reg dst :: .imm v :: _ => .ok ⟨C.set dst (.bool (v ≠ 0)), [instr]⟩
    | _ => .error .malformed
  | .loadString | .loadStringAs =>
    match instr.operands with
    | .reg dst :: _ => .ok (C.unknown dst instr)
    | _ => .error .malformed
  | .move =>
    match instr.operands with
    | .reg dst :: .reg src :: _ =>
      match C.find? src with
      | some c => .ok ⟨C.set dst c, [instr]⟩
      | none => .ok (C.unknown dst instr)
    | _ => .error .malformed
  | .convert => foldUnary C instr (convertConstant instr.typeHint) loadNumber
  | .add | .sub | .mul | .div | .mod | .bitAnd | .bitOr | .bitXor | .shl | .shr =>
    foldBinary C instr (tryFoldBinaryOp (floatOps table.fmod) instr.opcode instr.typeHint) loadNumber
  | .cmpEq | .cmpNeq | .cmpLt | .cmpLte | .cmpGt | .cmpGte =>
    foldBinary C instr (tryFoldBinaryOp (floatOps table.fmod) instr.opcode instr.typeHint) loadTruth
  | .neg => foldUnary C instr negConstant loadNumber
  | .not => foldUnary C instr notConstant loadTruth
  | .and | .or => foldBinary C instr (logicalConstant instr.opcode) loadTruth
  | .branchZero | .branchNotZero => .ok (foldBranch C instr)
  | .branchEq | .branchGt | .branchGte | .branchLt | .branchLte | .branchNeq => .ok ⟨C, [instr]⟩
  | .globalCall => foldGlobalCall table C instr
  | .arraySet | .dictSet | .dictSetConst | .dictSetConstStr => .ok ⟨C, [instr]⟩
  | .arrayAppend | .arrayGet | .dictGetConst | .dictHasConst | .structCheck | .print | .vcall
  | .vget | .vset | .variantSet | .callSyscall | .getNode | .loadResource | .loadResourceVar
  | .makeCallable | .construct | .await | .call | .callHosted =>
    -- for a CALL that is the name of the callee
    match instr.operands with
    | .reg r :: _ => .ok (C.unknown r instr)
    | _ => .ok ⟨C, [instr]⟩
  | _ =>
    if 0 ≤ instr.destinationRegister then .ok (C.unknown instr.destinationRegister instr)
    else .ok ⟨C, [instr]⟩

end Fold

/-! ## 3. The pass -/

section Pass

variable (table : GlobalFunctions) (f : IRFunction)

def foldBlock (C : Constants) : List IRInstruction → Except Fault Folding
  | [] => .ok ⟨C, []⟩
  | instr :: rest => do
      let head ← foldInstruction table C instr
      let tail ← foldBlock head.constants rest
      return ⟨tail.constants, head.emitted ++ tail.emitted⟩

-- the dataflow problem; where `fold_instruction` throws there is no result to speak of
def constantsFlow : Flow Constants where
  succs := blockSuccessors f
  transfer b C := ((foldBlock table C (blockCode f b)).toOption.map Folding.constants).getD C
  merge := Constants.meet

/-- The loop over `worklist`, for at most `visits` turns; whether it converged. -/
def solveConstants : Nat → Work Constants → Except Fault (Bool × Work Constants)
  | 0, w => .ok (w.queue.isEmpty, w)
  | visits + 1, w =>
    match Discipline.lifo.pop w.queue with
    | none => .ok (true, w)
    | some (index, queue) =>
      match w.entry index with
      | none => solveConstants visits { w with queue }
      | some C => do
          let out ← foldBlock table C (blockCode f index)
          solveConstants visits ((blockSuccessors f index).foldl
            ((constantsFlow table f).arrive .lifo out.constants) { w with queue })

def entryConstants : Except Fault (Nat → Constants) := do
  let (converged, w) ← solveConstants table f ((analysisBlocks f).length * 16 + 1024)
    ⟨Function.update (fun _ => none) 0 (some []), [0]⟩
  return fun b => if converged || b = 0 then (w.entry b).getD [] else []

def constantFolding : Except Fault IRFunction := do
  let entry ← entryConstants table f
  let folded ← (analysisBlocks f).zipIdx.mapM fun (block, b) => foldBlock table (entry b)
    (codeOf f block)
  return { f with instructions := folded.flatMap Folding.emitted }

/-- `m_constants` when the pass comes to instruction `k`. -/
def constantsBefore (k : Nat) : Except Fault Constants := do
  let entry ← entryConstants table f
  return (← foldBlock table (entry (f.blockOf k)) (codeBefore f k)).constants

end Pass

end Optimizer
