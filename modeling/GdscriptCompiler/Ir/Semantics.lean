import GdscriptCompiler.Ir.Interpreter
import GdscriptCompiler.Lib.LabelledCode

/-!
# Semantics — what an instruction does, as a function of the values it reads

The interpreter with everything a program transformation may not depend on taken out: no log, no
exception texts, jumps by label name.
-/

namespace Ir

open Lib

/-- What the execution of one function is relative to. -/
structure Env where
  program : IRProgram
  table : GlobalFunctions
  call : Callee
  -- only in exception texts
  name : String

-- a function of that name
def Env.function (E : Env) : IRFunction where
  name := E.name
  parameters := []
  instructions := []
  maxRegisters := 0

structure Frame where
  registers : Int → Option Value
  globals : List Value

inductive Observation where
  | store (index : Int64) (value : Value)
  | call (name : String) (args : List Value)

namespace Frame

-- a register nothing wrote reads as NIL
def value (fr : Frame) (r : Int) : Value := (fr.registers r).getD .nil

/-- Reading a register that is not there creates it. -/
def touch (fr : Frame) (rs : List Int) : Frame :=
  { fr with registers := fun r => if r ∈ rs then some (fr.value r) else fr.registers r }

def assign (fr : Frame) (r : Int) (v : Value) : Frame :=
  { fr with registers := fun r' => if r' = r then some v else fr.registers r' }

def write (fr : Frame) (r : Int) : Option Value → Frame
  | some v => fr.assign r v
  | none => fr

end Frame

/-- An operand as the instruction sees it. -/
inductive Arg where
  | hole
  | val (v : Value)
  | imm (v : Int64)
  | fimm (d : Float)
  | label (id : Nat)
  | var (id : Nat)
  | str (id : Nat)

namespace Arg

-- a register is a value where it is read, a hole where it is only written
def ofOperand (value : Int → Value) (kind : OperandKind) : IRValue → Arg
  | .reg r => if kind = .dst then .hole else .val (value r)
  | .imm v => .imm v
  | .fimm d => .fimm d
  | .label id => .label id
  | .var id => .var id
  | .str id => .str id

def value? : Arg → Option Value
  | val v => some v
  | _ => none

end Arg

def argsFrom (value : Int → Value) (signature : List OperandKind) (j : Nat) :
    List IRValue → List Arg
  | [] => []
  | operand :: rest =>
    .ofOperand value (kindAt signature j) operand :: argsFrom value signature (j + 1) rest

def IRInstruction.args (instr : IRInstruction) (value : Int → Value) : List Arg :=
  argsFrom value instr.signature 0 instr.operands

-- the values of the first `count` arguments
def argumentValues (count : Int64) (rest : List Arg) : Option (List Value) :=
  let n := count.toInt32.toInt.toNat
  if rest.length < n then none else (rest.take n).mapM Arg.value?

/-- What an instruction yields: observations, the result for its destination, the globals it leaves
and where control goes. -/
structure Effects where
  observed : List Observation := []
  result : Option Value := none
  globals : List Value
  flow : Exit String Value := .next

section Denote

variable (E : Env) (globals : List Value)

def yields (result : Except Fault Value) : Option Effects :=
  match result with
  | .ok v => some { result := some v, globals }
  | .error _ => none

def jumps (taken : Bool) (id : Nat) : Effects :=
  if taken then { globals, flow := .goto (E.program.strings.nameOf id) } else { globals }

def denoteUnary (op : Value → Except Fault Value) : List Arg → Option Effects
  | [.hole, .val v] => yields globals (op v)
  | _ => none

def denoteBinary (op : Value → Value → Except Fault Value) : List Arg → Option Effects
  | [.hole, .val l, .val r] => yields globals (op l r)
  | _ => none

-- the second operand counts only when the first does not decide
def denoteLogical (short : Bool) : List Arg → Option Effects :=
  denoteBinary globals fun l r =>
    .ok (intOfBool (if l.getBool = short then short else r.getBool))

def denoteTest (op : Opcode) : List Arg → Option Effects
  | [.hole, .val v, .imm tested] => yields globals (.ok (typeTest op tested v))
  | _ => none

def denoteLoad (pool : List Value) : List Arg → Option Effects
  | [.hole, .imm index] =>
    if index < 0 then none
    else pool[index.toInt.toNat]?.map fun v => { result := some v, globals }
  | _ => none

def denoteBranch (taken : Bool) : List Arg → Option Effects
  | [.val v, .label id] => some (jumps E globals (v.getBool = taken) id)
  | _ => none

def denoteFused (op : Opcode) : List Arg → Option Effects
  | [.val l, .val r, .label id] =>
    match fusedBranchTaken l r op with
    | .ok taken => some (jumps E globals taken id)
    | .error _ => none
  | _ => none

def denoteSwitch : List Arg → Option Effects
  | .val (.int value) :: .imm base :: .imm count :: labels =>
    if value < base ∨ value ≥ base + count then some { globals }
    else
      match labels[(value - base).toInt.toNat]? with
      | some (.label id) => some (jumps E globals true id)
      | _ => none
  | .val _ :: .imm _ :: .imm _ :: _ => some { globals }
  | _ => none

def denoteCall : List Arg → Option Effects
  | .str id :: .hole :: .imm count :: rest => do
      let args ← argumentValues count rest
      let name := E.program.strings.nameOf id
      if (E.program.findFunction name).isNone then none
      else
        match E.call name args globals with
        | (.ok v, globals) => some { observed := [.call name args], result := some v, globals }
        | (.error _, _) => none
  | _ => none

def denoteGlobalCall : List Arg → Option Effects
  | .hole :: .imm fn :: .imm _ :: .imm count :: rest => do
      let args ← argumentValues count rest
      yields globals (evalGlobal E.table E.function fn args)
  | _ => none

def denoteStore : List Arg → Option Effects
  | [.imm index, .val v] =>
    if index < 0 ∨ index.toInt.toNat ≥ globals.length then none
    else some { observed := [.store index v], globals := globals.set index.toInt.toNat v }
  | _ => none

/-- The opcodes the interpreter executes; `none` is an exception. -/
def denote (op : Opcode) (hint : TypeHint) (args : List Arg) : Option Effects :=
  match op with
  | .loadImm =>
    match args with
    | [.hole, .imm v] => some { result := some (.int v), globals }
    | _ => none
  | .scopeMark | .scopeRelease =>
    match args with
    | [.imm _] => some { globals }
    | _ => none
  | .loadNil =>
    match args with
    | [.hole] => some { result := some .nil, globals }
    | _ => none
  | .loadBool =>
    match args with
    | [.hole, .imm v] => some { result := some (.bool (v ≠ 0)), globals }
    | _ => none
  | .loadFloatImm =>
    match args with
    | [.hole, .fimm d] => some { result := some (.float d), globals }
    | _ => none
  | .loadString => denoteLoad globals (E.program.stringConstants.map Value.string) args
  | .loadGlobal => denoteLoad globals globals args
  | .storeGlobal => denoteStore globals args
  | .convert =>
    match args with
    | [.hole, .val v, .imm _] =>
      yields globals (convertTo { opcode := op, operands := [], typeHint := hint } v)
    | _ => none
  | .coerce => denoteUnary globals (convertTo { opcode := op, operands := [], typeHint := hint }) args
  | .move => denoteUnary globals .ok args
  | .add | .sub | .mul | .div | .mod | .bitAnd | .bitOr | .bitXor | .shl | .shr =>
    denoteBinary globals (fun l r => binaryOp E.table.fmod l r op) args
  | .typeTest | .typeTestMask => denoteTest globals op args
  | .typeOf => denoteUnary globals (fun v => .ok (.int v.tag)) args
  | .neg | .not | .bitNot => denoteUnary globals (fun v => unaryOp v op) args
  | .cmpEq | .cmpNeq | .cmpLt | .cmpLte | .cmpGt | .cmpGte =>
    denoteBinary globals (fun l r => compareOp l r op) args
  | .and => denoteLogical globals false args
  | .or => denoteLogical globals true args
  | .label =>
    match args with
    | [.label _] => some { globals }
    | _ => none
  | .breakpoint =>
    match args with
    | [] => some { globals }
    | _ => none
  | .jump =>
    match args with
    | [.label id] => some (jumps E globals true id)
    | _ => none
  | .branchZero => denoteBranch E globals false args
  | .branchNotZero => denoteBranch E globals true args
  | .branchEq | .branchNeq | .branchLt | .branchLte | .branchGt | .branchGte =>
    denoteFused E globals op args
  | .switch => denoteSwitch E globals args
  | .call => denoteCall E globals args
  | .globalCall => denoteGlobalCall E globals args
  | _ => none

end Denote

/-! ## What each opcode can do -/

-- the opcodes that do nothing to the state of a run
def quietOpcodes : List Opcode := [.scopeMark, .scopeRelease, .label, .breakpoint]

def branchOpcodes : List Opcode :=
  [.jump, .branchZero, .branchNotZero, .branchEq, .branchNeq, .branchLt, .branchLte, .branchGt,
  .branchGte,
    .switch]

inductive Denoted (globals : List Value) (op : Opcode) : Effects → Prop
  | computes (v : Value) (h : op ∉ .storeGlobal :: .call :: quietOpcodes ++ branchOpcodes) :
      Denoted globals op { result := some v, globals }
  | quiet (h : op ∈ quietOpcodes) : Denoted globals op { globals }
  | falls (h : op ∈ branchOpcodes) : Denoted globals op { globals }
  | goes (l : String) (h : op ∈ branchOpcodes) : Denoted globals op { globals, flow := .goto l }
  | stores (index : Int64) (v : Value) (h : op = .storeGlobal) :
      Denoted globals op { observed := [.store index v], globals := globals.set index.toInt.toNat v }
  | calls (name : String) (args : List Value) (v : Value) (left : List Value) (h : op = .call) :
      Denoted globals op { observed := [.call name args], result := some v, globals := left }

section Denoted

variable {E : Env} {globals : List Value} {op : Opcode} {args : List Arg} {e : Effects}

theorem denoted_of_yields {result : Except Fault Value}
    (hop : op ∉ .storeGlobal :: .call :: quietOpcodes ++ branchOpcodes)
    (h : yields globals result = some e) :
    Denoted globals op e := by
  cases result with
  | error _ => cases h
  | ok v =>
    cases h
    exact .computes v hop

theorem denoted_of_jumps (taken : Bool) (id : Nat) (hop : op ∈ branchOpcodes) :
    Denoted globals op (jumps E globals taken id) := by
  cases taken with
  | false => exact .falls hop
  | true => exact .goes _ hop

section

variable (hop : op ∉ .storeGlobal :: .call :: quietOpcodes ++ branchOpcodes)
include hop

theorem denoted_of_denoteUnary {run : Value → Except Fault Value}
    (h : denoteUnary globals run args = some e) :
    Denoted globals op e := by
  unfold denoteUnary at h
  split at h
  · exact denoted_of_yields hop h
  · cases h

theorem denoted_of_denoteBinary {run : Value → Value → Except Fault Value}
    (h : denoteBinary globals run args = some e) :
    Denoted globals op e := by
  unfold denoteBinary at h
  split at h
  · exact denoted_of_yields hop h
  · cases h

theorem denoted_of_denoteLoad {pool : List Value} (h : denoteLoad globals pool args = some e) :
    Denoted globals op e := by
  unfold denoteLoad at h
  split at h
  · split at h
    · cases h
    · obtain ⟨v, -, rfl⟩ := Option.map_eq_some_iff.mp h
      exact .computes v hop
  · cases h

end

section

variable (hop : op ∈ branchOpcodes)
include hop

theorem denoted_of_denoteBranch {taken : Bool} (h : denoteBranch E globals taken args = some e) :
    Denoted globals op e := by
  unfold denoteBranch at h
  split at h
  · cases h
    exact denoted_of_jumps _ _ hop
  · cases h

theorem denoted_of_denoteFused {cmp : Opcode} (h : denoteFused E globals cmp args = some e) :
    Denoted globals op e := by
  unfold denoteFused at h
  split at h
  · split at h
    · cases h
      exact denoted_of_jumps _ _ hop
    · cases h
  · cases h

theorem denoted_of_denoteSwitch (h : denoteSwitch E globals args = some e) :
    Denoted globals op e := by
  unfold denoteSwitch at h
  split at h
  · split at h
    · cases h
      exact .falls hop
    · split at h
      · cases h
        exact denoted_of_jumps _ _ hop
      · cases h
  · cases h
    exact .falls hop
  · cases h

end

theorem denoted_of_denoteCall (h : denoteCall E globals args = some e) :
    Denoted globals .call e := by
  unfold denoteCall at h
  split at h
  · obtain ⟨values, -, h⟩ := Option.bind_eq_some_iff.mp h
    dsimp only at h
    split at h
    · cases h
    · split at h
      · cases h
        exact .calls _ _ _ _ rfl
      · cases h
  · cases h

theorem denoted_of_denoteStore (h : denoteStore globals args = some e) :
    Denoted globals .storeGlobal e := by
  unfold denoteStore at h
  split at h
  · split at h
    · cases h
    · cases h
      exact .stores _ _ rfl
  · cases h

theorem denoted_of_denote {hint : TypeHint} (h : denote E globals op hint args = some e) :
    Denoted globals op e := by
  unfold denote at h
  cases op
  case loadImm | loadBool | loadNil | loadFloatImm =>
    dsimp only at h
    split at h
    · cases h
      exact .computes _ (by decide)
    · cases h
  case scopeMark | scopeRelease | label | breakpoint =>
    dsimp only at h
    split at h
    · cases h
      exact .quiet (by decide)
    · cases h
  case loadString | loadGlobal => exact denoted_of_denoteLoad (by decide) h
  case storeGlobal => exact denoted_of_denoteStore h
  case convert =>
    dsimp only at h
    split at h
    · exact denoted_of_yields (by decide) h
    · cases h
  case typeTest | typeTestMask =>
    dsimp only [denoteTest] at h
    split at h
    · exact denoted_of_yields (by decide) h
    · cases h
  case globalCall =>
    dsimp only [denoteGlobalCall] at h
    split at h
    · obtain ⟨values, -, h⟩ := Option.bind_eq_some_iff.mp h
      exact denoted_of_yields (by decide) h
    · cases h
  case coerce | move | typeOf | neg | not | bitNot => exact denoted_of_denoteUnary (by decide) h
  case add | sub | mul | div | mod | bitAnd | bitOr | bitXor | shl | shr | cmpEq | cmpNeq | cmpLt
      | cmpLte | cmpGt | cmpGte | and | or => exact denoted_of_denoteBinary (by decide) h
  case jump =>
    dsimp only at h
    split at h
    · cases h
      exact denoted_of_jumps _ _ (by decide)
    · cases h
  case branchZero | branchNotZero => exact denoted_of_denoteBranch (by decide) h
  case branchEq | branchNeq | branchLt | branchLte | branchGt | branchGte =>
    exact denoted_of_denoteFused (by decide) h
  case switch => exact denoted_of_denoteSwitch (by decide) h
  case call => exact denoted_of_denoteCall h
  all_goals cases h

end Denoted

/-! ## The machine -/

-- the registers of the first `count` arguments
def argumentRegisters (count : Int64) (rest : List IRValue) : List Int :=
  (rest.take count.toInt32.toInt.toNat).filterMap fun
    | .reg r => some r
    | _ => none

/-- The registers an execution reads: a short-circuited operand and the return register are not
touched. -/
def IRInstruction.touched (instr : IRInstruction) (value : Int → Value) : List Int :=
  match instr.opcode, instr.operands with
  | .returnOp, _ => []
  | .and, [_, .reg src1, .reg src2] => if (value src1).getBool then [src1, src2] else [src1]
  | .or, [_, .reg src1, .reg src2] => if (value src1).getBool then [src1] else [src1, src2]
  | .call, _ :: _ :: .imm count :: rest => argumentRegisters count rest
  | .globalCall, _ :: _ :: _ :: .imm count :: rest => argumentRegisters count rest
  | _, _ => instr.collectReadRegisters

/-- RETURN: r0 when it is there, else integer zero. -/
def Frame.returned (fr : Frame) : Value := (fr.registers 0).getD (.int 0)

def IRInstruction.finish (instr : IRInstruction) (fr : Frame) (e : Effects) :
    List Observation × Frame × Exit String Value :=
  (e.observed,
    { fr.touch (instr.touched fr.value) with globals := e.globals }.write instr.destinationRegister
    e.result, e.flow)

def execute (E : Env) (instr : IRInstruction) (fr : Frame) :
    Option (List Observation × Frame × Exit String Value) :=
  if instr.opcode = .returnOp then
    if instr.operands.isEmpty then some ([], fr, .ret fr.returned) else none
  else
    (denote E fr.globals instr.opcode instr.typeHint (instr.args fr.value)).map (instr.finish fr)

def IRInstruction.labelName (strings : StringTable) (instr : IRInstruction) : Option String :=
  match instr.opcode, instr.operands with
  | .label, .label id :: _ => some (strings.nameOf id)
  | _, _ => none

/-- `execute_function` as a machine on labelled code. -/
def machine (E : Env) : Machine IRInstruction Frame String Observation Value where
  labelOf := IRInstruction.labelName E.program.strings
  exec := execute E

end Ir
