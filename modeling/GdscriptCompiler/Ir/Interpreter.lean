import GdscriptCompiler.Ir.Instruction

/-!
# Interpreter — `IRInterpreter`

The context also carries a log of what was touched, which nothing reads back. Library globals
(`globals.cpp`) are a parameter: a table of rows and the two evaluators behind it.
-/

namespace Ir

inductive Value where
  | nil
  | int (v : Int64)
  | float (d : Float)
  | string (s : String)
  | bool (b : Bool)

/-- A `CompilerException`, or (`malformed`) operands that do not fit the opcode, which the source
reads unchecked. -/
inductive Fault where
  | missingLabel (op : Opcode) (label : String)
  | malformed
  | other (message : String)

def Fault.message : Fault → String
  | missingLabel op label => opcodeName op ++ " targets a label that does not exist: " ++ label
  | malformed => ""
  | other message => message

inductive GlobalKind where
  | print | numeric | intOp | floatOp | syscall | syscallInt | cast | host
  deriving DecidableEq

inductive GlobalResult where
  | nil | bool | int | float | string | numeric | variant

structure GlobalFunction where
  name : String
  fn : Int64
  kind : GlobalKind
  result : GlobalResult
  intForm : Int64
  floatForm : Int64
  impure : Bool

/-- `globals.cpp` and the one `libm` function the interpreter calls itself. -/
structure GlobalFunctions where
  str : Int64
  toInt : Int64
  toFloat : Int64
  toBool : Int64
  globalFunction : Int64 → Except Fault GlobalFunction
  evalGlobalInt : Int64 → List Int64 → Except Fault Int64
  evalGlobalIntSyscall : Int64 → List Int64 → Except Fault Int64
  evalGlobalFloat : Int64 → List Float → Except Fault Float
  fmod : Float → Float → Float

inductive InitType where
  | none | int (v : Int64) | float (d : Float) | string (s : String) | bool (b : Bool) | nullVal
  | emptyArray | emptyDict | runtime

structure IRProgram where
  functions : List IRFunction
  strings : StringTable
  stringConstants : List String
  globals : List InitType
  globalInit : Option IRFunction := none
  memberInit : Option IRFunction := none

-- `m_function_map`: the last function of a name
def IRProgram.findFunction (program : IRProgram) (name : String) : Option IRFunction :=
  program.functions.reverse.find? (·.name = name)

/-! ## 1. Values -/

namespace Value

def getInt : Value → Int64
  | int v => v
  | float d => d.toInt64
  | bool b => if b then 1 else 0
  | _ => 0

def getDouble : Value → Float
  | float d => d
  | int v => v.toFloat
  | bool b => if b then 1.0 else 0.0
  | _ => 0.0

def getBool : Value → Bool
  | bool b => b
  | int v => v ≠ 0
  | float d => d != 0.0
  | string s => !s.isEmpty
  | nil => false

def isFloat : Value → Bool
  | float _ => true
  | _ => false

def isString : Value → Bool
  | string _ => true
  | _ => false

def isNil : Value → Bool
  | nil => true
  | _ => false

def getString : Value → String
  | string s => s
  | _ => ""

-- the Variant type tag
def tag : Value → Int64
  | nil => 0
  | bool _ => 1
  | int _ => 2
  | float _ => 3
  | string _ => 4

end Value

def int64Min : Int64 := Int64.minValue

/-- `binary_op`: strings concatenate, a float operand makes it a float operation, integers wrap. -/
def binaryOp (fmod : Float → Float → Float) (left right : Value) (op : Opcode) :
    Except Fault Value :=
  if left.isString || right.isString then
    if op = .add && left.isString && right.isString then
      .ok (.string (left.getString ++ right.getString))
    else .error (.other ("Operator " ++ opcodeName op ++ " is not defined on strings"))
  else
    let l := left.getInt
    let r := right.getInt
    match op with
    | .bitAnd => .ok (.int (l &&& r))
    | .bitOr => .ok (.int (l ||| r))
    | .bitXor => .ok (.int (l ^^^ r))
    | .shl => .ok (.int (l <<< (r &&& 63)))
    | .shr => .ok (.int (l >>> (r &&& 63)))
    | _ =>
      if left.isFloat || right.isFloat then
        let l := left.getDouble
        let r := right.getDouble
        match op with
        | .add => .ok (.float (l + r))
        | .sub => .ok (.float (l - r))
        | .mul => .ok (.float (l * r))
        | .div => .ok (.float (l / r))
        | .mod => .ok (.float (fmod l r))
        | _ => .error (.other ("Operator " ++ opcodeName op ++ " is not a float binary operation"))
      else
        match op with
        | .add => .ok (.int (l + r))
        | .sub => .ok (.int (l - r))
        | .mul => .ok (.int (l * r))
        -- division by zero gives zero, and the one overflow wraps
        | .div =>
          if r = 0 then .ok (.int 0)
          else if r = -1 ∧ l = int64Min then .ok (.int int64Min)
          else .ok (.int (l / r))
        | .mod =>
          if r = 0 then .ok (.int 0)
          else if r = -1 ∧ l = int64Min then .ok (.int 0)
          else .ok (.int (l % r))
        | _ =>
          .error (.other ("Operator " ++ opcodeName op ++ " is not an integer binary operation"))

def unaryOp (operand : Value) (op : Opcode) : Except Fault Value :=
  match op with
  | .neg => .ok (if operand.isFloat then .float (-operand.getDouble) else .int (0 - operand.getInt))
  | .not => .ok (.bool !operand.getBool)
  | .bitNot => .ok (.int (~~~operand.getInt))
  | _ => .error (.other ("Operator " ++ opcodeName op ++ " is not a unary operation"))

-- the six comparisons of an ordered type; any other opcode leaves `result` false
def compareBy {α : Type} (eq lt le : α → α → Bool) (l r : α) (op : Opcode) : Bool :=
  match op with
  | .cmpEq => eq l r
  | .cmpNeq => !eq l r
  | .cmpLt => lt l r
  | .cmpLte => le l r
  | .cmpGt => lt r l
  | .cmpGte => le r l
  | _ => false

def compareStrings : String → String → Opcode → Bool :=
  compareBy (· == ·) (fun l r => l < r) (fun l r => l < r || l == r)

def compareFloats : Float → Float → Opcode → Bool :=
  compareBy (· == ·) (fun l r => l < r) (fun l r => l ≤ r)

def compareInts : Int64 → Int64 → Opcode → Bool :=
  compareBy (· == ·) (fun l r => l < r) (fun l r => l ≤ r)

-- `result ? int64_t(1) : int64_t(0)`
def intOfBool (b : Bool) : Value := .int (if b then 1 else 0)

@[simp] theorem getBool_intOfBool (b : Bool) : (intOfBool b).getBool = b := by
  cases b <;> rfl

/-- `compare_op`: the result is the integer 0 or 1. -/
def compareOp (left right : Value) (op : Opcode) : Except Fault Value :=
  if left.isNil || right.isNil then
    if op = .cmpEq then .ok (intOfBool (left.isNil && right.isNil))
    else if op = .cmpNeq then .ok (intOfBool !(left.isNil && right.isNil))
    else .error (.other "Ordered comparison involving null")
  else if left.isString || right.isString then
    if !left.isString || !right.isString then
      if op = .cmpEq then .ok (.int 0)
      else if op = .cmpNeq then .ok (.int 1)
      else .error (.other "Ordered comparison between a String and a non-String")
    else .ok (intOfBool (compareStrings left.getString right.getString op))
  else if left.isFloat || right.isFloat then
    .ok (intOfBool (compareFloats left.getDouble right.getDouble op))
  else .ok (intOfBool (compareInts left.getInt right.getInt op))

def fusedBranchTaken (left right : Value) (op : Opcode) : Except Fault Bool := do
  let cmp ← match op with
    | .branchEq => .ok Opcode.cmpEq
    | .branchNeq => .ok .cmpNeq
    | .branchLt => .ok .cmpLt
    | .branchLte => .ok .cmpLte
    | .branchGt => .ok .cmpGt
    | .branchGte => .ok .cmpGte
    | _ => .error (.other (opcodeName op ++ " is not a fused branch"))
  return (← compareOp left right cmp).getBool

/-! ## 2. Contexts -/

inductive Event where
  | read (r : Int)
  | write (r : Int)
  | jump (label : String)
  | mark (scope : Int64)
  | release (scope : Int64)
  -- an operand read that does not fit the opcode
  | stray

/-- `ExecutionContext` with the globals of the interpreter and the log, newest first. -/
structure Context where
  registers : Int → Option Value
  pc : Nat
  returned : Bool
  returnValue : Value
  globals : List Value
  log : List Event

abbrev Exec := ExceptT Fault (StateM Context)

-- callee, arguments and globals to result and globals
abbrev Callee := String → List Value → List Value → Except Fault Value × List Value

def Context.note (ctx : Context) (event : Event) : Context := { ctx with log := event :: ctx.log }

def Context.assign (ctx : Context) (r : Int) (v : Value) : Context :=
  { ctx with registers := fun r' => if r' = r then some v else ctx.registers r' }

def note (event : Event) : Exec Unit := fun ctx => (.ok (), ctx.note event)

/-- `get_register`: a register nothing wrote becomes NIL. -/
def getRegister (r : Int) : Exec Value := fun ctx =>
  match ctx.registers r with
  | some v => (.ok v, ctx.note (.read r))
  | none => (.ok .nil, (ctx.note (.read r)).assign r .nil)

-- `ctx.registers[r] = v`
def setRegister (r : Int) (v : Value) : Exec Unit := fun ctx =>
  (.ok (), (ctx.note (.write r)).assign r v)

def ofExcept {α : Type} (x : Except Fault α) : Exec α := fun ctx => (x, ctx)

def raise {α : Type} (message : String) : Exec α := ofExcept (.error (.other message))

def malformed {α : Type} : Exec α := fun ctx => (.error .malformed, ctx.note .stray)

def getGlobals : Exec (List Value) := fun ctx => (.ok ctx.globals, ctx)

def setGlobals (globals : List Value) : Exec Unit := fun ctx => (.ok (), { ctx with globals })

/-- `ctx.labels`, filled before the first step. -/
def IRFunction.runLabels (strings : StringTable) (f : IRFunction) (name : String) : Option Nat :=
  (f.instructions.zipIdx.reverse.find? fun (instr, _) =>
    match instr.opcode, instr.operands with
    | .label, .label id :: _ => strings.nameOf id = name
    | _, _ => false).map Prod.snd

def jumpToLabel (strings : StringTable) (f : IRFunction) (op : Opcode) (label : String) :
    Exec Unit :=
  fun ctx =>
    match f.runLabels strings label with
    | none => (.error (.missingLabel op label), ctx.note (.jump label))
    | some target => (.ok (), { ctx.note (.jump label) with pc := target })

def readOperand : IRValue → Exec Value
  | .reg r => getRegister r
  | _ => malformed

/-- The argument registers of a call; the count is narrowed to an `int` first. -/
def readArguments (count : Int64) (operands : List IRValue) : Exec (List Value) :=
  let n := count.toInt32.toInt.toNat
  if operands.length < n then malformed else (operands.take n).mapM readOperand

/-! ## 3. Instructions -/

-- `operands[0]` is written with the function of `operands[1]`
def unary (instr : IRInstruction) (op : Value → Except Fault Value) : Exec Unit :=
  match instr.operands with
  | .reg dst :: .reg src :: _ => do
      let value ← getRegister src
      let result ← ofExcept (op value)
      setRegister dst result
  | _ => malformed

def binary (instr : IRInstruction) (op : Value → Value → Except Fault Value) : Exec Unit :=
  match instr.operands with
  | .reg dst :: .reg src1 :: .reg src2 :: _ => do
      let val1 ← getRegister src1
      let val2 ← getRegister src2
      let result ← ofExcept (op val1 val2)
      setRegister dst result
  | _ => malformed

/-- AND and OR read their second operand only when the first does not decide (`short`). -/
def logical (instr : IRInstruction) (short : Bool) : Exec Unit :=
  match instr.operands with
  | .reg dst :: .reg src1 :: .reg src2 :: _ => do
      let first ← getRegister src1
      if first.getBool = short then setRegister dst (intOfBool short)
      else
        let second ← getRegister src2
        setRegister dst (intOfBool second.getBool)
  | _ => malformed

/-- CONVERT and COERCE; only COERCE has a BOOL form. -/
def convertTo (instr : IRInstruction) (value : Value) : Except Fault Value :=
  if instr.typeHint = Variant.float then .ok (.float value.getDouble)
  else if instr.typeHint = Variant.int then .ok (.int value.getInt)
  else if instr.opcode = .coerce ∧ instr.typeHint = Variant.bool then .ok (.bool value.getBool)
  else .error (.other (opcodeName instr.opcode ++ " to " ++ variantTypeName instr.typeHint ++
    " is not implemented in the interpreter"))

def typeTest (op : Opcode) (tested : Int64) (value : Value) : Value :=
  .bool (if op = .typeTest then value.tag = tested else (tested >>> value.tag) &&& 1 ≠ 0)

-- a constant of the program loaded into `operands[0]`
def loadFrom (instr : IRInstruction) (pool : List Value) (message : String) : Exec Unit :=
  match instr.operands with
  | .reg dst :: .imm index :: _ =>
    if index < 0 then raise message
    else
      match pool[index.toInt.toNat]? with
      | some v => setRegister dst v
      | none => raise message
  | _ => malformed

def branchOn (strings : StringTable) (f : IRFunction) (instr : IRInstruction) (taken : Bool) :
    Exec Unit :=
  match instr.operands with
  | .reg r :: .label id :: _ => do
      let value ← getRegister r
      if value.getBool = taken then jumpToLabel strings f instr.opcode (strings.nameOf id)
  | _ => malformed

def fusedBranch (strings : StringTable) (f : IRFunction) (instr : IRInstruction) : Exec Unit :=
  match instr.operands with
  | .reg lhs :: .reg rhs :: .label id :: _ => do
      let left ← getRegister lhs
      let right ← getRegister rhs
      let taken ← ofExcept (fusedBranchTaken left right instr.opcode)
      if taken then jumpToLabel strings f instr.opcode (strings.nameOf id)
  | _ => malformed

/-- SWITCH: only an integer dispatches. -/
def switchOn (strings : StringTable) (f : IRFunction) (instr : IRInstruction) : Exec Unit :=
  match instr.operands with
  | .reg r :: .imm base :: .imm count :: labels => do
      let subject ← getRegister r
      match subject with
      | .int value =>
        if value < base ∨ value ≥ base + count then pure ()
        else
          match labels[(value - base).toInt.toNat]? with
          | some (.label id) => jumpToLabel strings f instr.opcode (strings.nameOf id)
          | _ => malformed
      | _ => pure ()
  | _ => malformed

def callFunction (program : IRProgram) (call : Callee) (instr : IRInstruction) : Exec Unit :=
  match instr.operands with
  | .str name :: .reg dst :: .imm count :: operands => do
      let args ← readArguments count operands
      let name := program.strings.nameOf name
      if (program.findFunction name).isNone then
        raise ("Call to a function the interpreter does not know: " ++ name)
      else
        let outcome := call name args (← getGlobals)
        setGlobals outcome.2
        setRegister dst (← ofExcept outcome.1)
  | _ => malformed

def evalGlobal (table : GlobalFunctions) (f : IRFunction) (fn : Int64) (args : List Value) :
    Except Fault Value := do
  let info ← table.globalFunction fn
  if fn = table.str ∧ args ≠ [] ∧ args.all Value.isString then
    return .string (String.join (args.map Value.getString))
  if info.kind = .host then
    throw (.other (info.name ++ "() needs the host Variant API and is not available" ++
      " in the IR interpreter (in function '" ++ f.name ++ "')"))
  if info.impure then
    throw (.other (info.name ++ "() needs the host's random number generator" ++
      " and is not available in the IR interpreter (in function '" ++ f.name ++ "')"))
  if info.kind = .cast then
    match args with
    | [] => throw (.other "std::out_of_range")
    | value :: _ =>
      if value.isString ∧ fn ≠ table.toBool then
        throw (.other (info.name ++ "() of a String needs the host Variant API and is" ++
          " not available in the IR interpreter (in function '" ++ f.name ++ "')"))
      else if fn = table.toInt then return .int value.getInt
      else if fn = table.toFloat then return .float value.getDouble
      else return .bool value.getBool
  else
    -- `resolve_numeric_form`
    let info ← if info.kind = .numeric then
        let allInteger := args.all fun
          | .int _ => true
          | _ => false
        table.globalFunction (if allInteger then info.intForm else info.floatForm)
      else pure info
    if info.kind = .intOp then return .int (← table.evalGlobalInt info.fn (args.map Value.getInt))
    else if info.kind = .syscallInt then
      return .int (← table.evalGlobalIntSyscall info.fn (args.map Value.getInt))
    else
      let result ← table.evalGlobalFloat info.fn (args.map Value.getDouble)
      match info.result with
      | .bool => return .bool (result != 0.0)
      | .int => return .int result.toInt64
      | _ => return .float result

def globalCall (table : GlobalFunctions) (f : IRFunction) (instr : IRInstruction) : Exec Unit :=
  match instr.operands with
  | .reg dst :: .imm fn :: _ :: .imm count :: operands => do
      let args ← readArguments count operands
      setRegister dst (← ofExcept (evalGlobal table f fn args))
  | _ => malformed

/-- RETURN: r0 when it is there, else integer zero. -/
def returnFrom : Exec Unit := fun ctx =>
  match ctx.registers 0 with
  | some v => (.ok (), { ctx.note (.read 0) with returned := true, returnValue := v })
  | none => (.ok (), { ctx with returned := true, returnValue := .int 0 })

def executeInstruction (program : IRProgram) (table : GlobalFunctions) (call : Callee)
    (f : IRFunction) (instr : IRInstruction) : Exec Unit :=
  match instr.opcode with
  | .loadImm =>
    match instr.operands with
    | .reg dst :: .imm v :: _ => setRegister dst (.int v)
    | _ => malformed
  | .scopeMark =>
    match instr.operands with
    | .imm scope :: _ => note (.mark scope)
    | _ => malformed
  | .scopeRelease =>
    match instr.operands with
    | .imm scope :: _ => note (.release scope)
    | _ => malformed
  | .loadNil =>
    match instr.operands with
    | .reg dst :: _ => setRegister dst .nil
    | _ => malformed
  | .loadBool =>
    match instr.operands with
    | .reg dst :: .imm v :: _ => setRegister dst (.bool (v ≠ 0))
    | _ => malformed
  | .loadFloatImm =>
    match instr.operands with
    | .reg dst :: .fimm d :: _ => setRegister dst (.float d)
    | _ => malformed
  | .loadString =>
    loadFrom instr (program.stringConstants.map Value.string) "String constant index out of range"
  | .loadGlobal => do loadFrom instr (← getGlobals) "Global index out of range"
  | .storeGlobal =>
    match instr.operands with
    | .imm index :: .reg src :: _ => do
        let globals ← getGlobals
        if index < 0 ∨ index.toInt.toNat ≥ globals.length then raise "Global index out of range"
        else
          let value ← getRegister src
          setGlobals (globals.set index.toInt.toNat value)
    | _ => malformed
  | .convert => unary instr (convertTo instr)
  | .coerce => unary instr (convertTo instr)
  | .move => unary instr .ok
  | .add => binary instr fun l r => binaryOp table.fmod l r .add
  | .sub => binary instr fun l r => binaryOp table.fmod l r .sub
  | .mul => binary instr fun l r => binaryOp table.fmod l r .mul
  | .div => binary instr fun l r => binaryOp table.fmod l r .div
  | .mod => binary instr fun l r => binaryOp table.fmod l r .mod
  | .bitAnd => binary instr fun l r => binaryOp table.fmod l r .bitAnd
  | .bitOr => binary instr fun l r => binaryOp table.fmod l r .bitOr
  | .bitXor => binary instr fun l r => binaryOp table.fmod l r .bitXor
  | .shl => binary instr fun l r => binaryOp table.fmod l r .shl
  | .shr => binary instr fun l r => binaryOp table.fmod l r .shr
  | .typeTest =>
    match instr.operands with
    | _ :: _ :: .imm tested :: _ => unary instr fun v => .ok (typeTest .typeTest tested v)
    | _ => malformed
  | .typeTestMask =>
    match instr.operands with
    | _ :: _ :: .imm tested :: _ => unary instr fun v => .ok (typeTest .typeTestMask tested v)
    | _ => malformed
  | .typeOf => unary instr fun v => .ok (.int v.tag)
  | .neg => unary instr fun v => unaryOp v .neg
  | .not => unary instr fun v => unaryOp v .not
  | .bitNot => unary instr fun v => unaryOp v .bitNot
  | .cmpEq => binary instr fun l r => compareOp l r .cmpEq
  | .cmpNeq => binary instr fun l r => compareOp l r .cmpNeq
  | .cmpLt => binary instr fun l r => compareOp l r .cmpLt
  | .cmpLte => binary instr fun l r => compareOp l r .cmpLte
  | .cmpGt => binary instr fun l r => compareOp l r .cmpGt
  | .cmpGte => binary instr fun l r => compareOp l r .cmpGte
  | .and => logical instr false
  | .or => logical instr true
  | .label => pure ()
  | .breakpoint => pure ()
  | .jump =>
    match instr.operands with
    | .label id :: _ => jumpToLabel program.strings f .jump (program.strings.nameOf id)
    | _ => malformed
  | .branchZero => branchOn program.strings f instr false
  | .branchNotZero => branchOn program.strings f instr true
  | .branchEq => fusedBranch program.strings f instr
  | .branchNeq => fusedBranch program.strings f instr
  | .branchLt => fusedBranch program.strings f instr
  | .branchLte => fusedBranch program.strings f instr
  | .branchGt => fusedBranch program.strings f instr
  | .branchGte => fusedBranch program.strings f instr
  | .switch => switchOn program.strings f instr
  | .call => callFunction program call instr
  | .globalCall => globalCall table f instr
  | .returnOp => returnFrom
  | .pow =>
    raise ("'**' is evaluated by the host through Variant::evaluate() and is not" ++
      " available in the IR interpreter (in function '" ++ f.name ++ "')")
  | .inOp =>
    raise ("'in' needs the host Variant API and is not available in the IR" ++
      " interpreter (in function '" ++ f.name ++ "')")
  | .await =>
    raise ("'await' suspends into the host and is not available in the IR" ++
      " interpreter (in function '" ++ f.name ++ "')")
  | .callHosted =>
    raise ("a call to a coroutine re-enters through the host and is not available" ++
      " in the IR interpreter (in function '" ++ f.name ++ "')")
  -- every other opcode works on host Variants
  | op =>
    raise ("Opcode " ++ opcodeName op ++
      " needs the host Variant API and is not available in the IR interpreter" ++
      " (in function '" ++ f.name ++ "')")

/-! ## 4. Functions and programs -/

def maxSteps : Nat := 20000000

def maxCallDepth : Nat := 256

section Run

variable (program : IRProgram) (table : GlobalFunctions) (call : Callee) (f : IRFunction)

/-- The condition of the loop in `execute_function`. -/
def Context.running (ctx : Context) : Bool := ctx.pc < f.instructions.length && !ctx.returned

/-- The body of the loop: a branch that was taken has moved `pc` already. -/
def stepOnce (ctx : Context) : Option Fault × Context :=
  match f.instructions[ctx.pc]? with
  | none => (none, ctx)
  | some instr =>
    match executeInstruction program table call f instr ctx with
    | (.error fault, after) => (some fault, after)
    | (.ok (), after) =>
      if !after.returned && after.pc = ctx.pc then (none, { after with pc := after.pc + 1 })
      else (none, after)

def runSteps : Nat → Context → Option Fault × Context
  | 0, ctx => (none, ctx)
  | k + 1, ctx =>
    if ctx.running f then
      match stepOnce program table call f ctx with
      | (some fault, after) => (some fault, after)
      | (none, after) => runSteps k after
    else (none, ctx)

/-- `execute_function`, after its depth check. -/
def executeFunction (ctx : Context) : Option Fault × Context :=
  match runSteps program table call f maxSteps ctx with
  | (some fault, after) => (some fault, after)
  | (none, after) =>
    if after.running f then
      (some (.other ("IR interpreter step limit exceeded in function '" ++ f.name ++ "'")), after)
    else (none, after)

/-- A fresh context: arguments in the first registers, as many as there are parameters. -/
def startContext (args globals : List Value) : Context where
  registers r := if r < 0 ∨ f.parameters.length ≤ r.toNat then none else args[r.toNat]?
  pc := 0
  returned := false
  returnValue := .nil
  globals := globals
  log := []

end Run

/-- `call`, with as many nested calls left as the number says. -/
def callAt (program : IRProgram) (table : GlobalFunctions) : Nat → Callee
  | depth, name, args, globals =>
    match program.findFunction name with
    | none => (.ok (.int 0), globals)
    | some f =>
      match depth with
      | 0 => (.error (.other ("IR interpreter call depth exceeded in function '" ++ f.name ++
          "'")), globals)
      | depth + 1 =>
        match executeFunction program table (callAt program table depth) f
            (startContext f args globals) with
        | (some fault, after) => (.error fault, after.globals)
        | (none, after) => (.ok (if after.returned then after.returnValue else .nil), after.globals)

def initialValue : InitType → Value
  | .int v => .int v
  | .float d => .float d
  | .string s => .string s
  | .bool b => .bool b
  | _ => .nil

-- `global_init` and `member_init` run on the globals as they stand
def runInit (program : IRProgram) (table : GlobalFunctions) (init : Option IRFunction)
    (globals : List Value) : Except Fault (List Value) :=
  match init with
  | none => .ok globals
  | some f =>
    match executeFunction program table (callAt program table (maxCallDepth - 1)) f
        (startContext f [] globals) with
    | (some fault, _) => .error fault
    | (none, after) => .ok after.globals

def initializeGlobals (program : IRProgram) (table : GlobalFunctions) : Except Fault (List Value) :=
  do
  let globals ← runInit program table program.globalInit (program.globals.map initialValue)
  runInit program table program.memberInit globals

/-- A new `IRInterpreter` and one `call` on it: the result and the globals it leaves. -/
def callProgram (program : IRProgram) (table : GlobalFunctions) (name : String)
    (args : List Value) : Except Fault (Value × List Value) := do
  let globals ← initializeGlobals program table
  let outcome := callAt program table maxCallDepth name args globals
  let result ← outcome.1
  return (result, outcome.2)

end Ir
