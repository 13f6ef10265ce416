import Mathlib.Algebra.Order.Ring.Int
import Mathlib.Data.List.Basic

/-!
# Opcode — the IR opcode table

`ir_opcodes.def`, row by row.
-/

namespace Ir

inductive Opcode where
  | loadImm | loadFloatImm | loadBool | loadString | loadStringAs | loadGlobal | storeGlobal
  | move | convert | coerce | typeTest | typeTestMask | traitTest | makeScoped | batchGet
  | codepointGet | scopeMark | scopeRelease | breakpoint | typeOf | loadNil | add | sub | mul
  | div | mod | neg | pow | cmpEq | cmpNeq | cmpLt | cmpLte | cmpGt | cmpGte | and | or | not
  | bitAnd | bitOr | bitXor | bitNot | shl | shr | inOp | label | jump | branchZero
  | branchNotZero | branchEq | branchNeq | branchLt | branchLte | branchGt | branchGte | switch
  | call | callHosted | callSyscall | getNode | makeCallable | loadResource | loadResourceVar
  | returnOp | vcall | vget | vset | variantSet | print | throwOp | globalCall | makeVector2
  | makeVector3 | makeVector4 | makeVector2i | makeVector3i | makeVector4i | makeColor
  | makeRect2 | makeRect2i | makePlane | construct | arrayGet | arraySet | arrayAppend | dictSet
  | dictGetConst | dictSetConst | dictSetConstStr | dictHasConst | structCheck | makeArray
  | makeDictionary | makeDictionaryKeyed | makePackedByteArray | makePackedInt32Array
  | makePackedInt64Array | makePackedFloat32Array | makePackedFloat64Array
  | makePackedStringArray | makePackedVector2Array | makePackedVector3Array
  | makePackedColorArray | makePackedVector4Array | await | vgetInline | vsetInline
  deriving Repr, DecidableEq

inductive OperandKind where
  | none | dst | inout | src | imm | fimm | str | lbl | cnt | cnt2 | srcList | argList | lblList
  deriving Repr, DecidableEq

-- `IR_PURE` is the empty mask.
inductive Effect where
  | sideEffects | branch | fusedBranch | terminator | label | call | readsGlobal | writesGlobal
  | arithmetic | comparison | simpleLoad
  deriving Repr, DecidableEq

structure OpcodeInfo where
  mnemonic : String
  signature : List OperandKind
  effects : List Effect

def opcodeInfo : Opcode → OpcodeInfo
  | .loadImm => ⟨"LOAD_IMM", [.dst, .imm], [.simpleLoad]⟩
  | .loadFloatImm => ⟨"LOAD_FLOAT_IMM", [.dst, .fimm], [.simpleLoad]⟩
  | .loadBool => ⟨"LOAD_BOOL", [.dst, .imm], [.simpleLoad]⟩
  | .loadString => ⟨"LOAD_STRING", [.dst, .imm], [.simpleLoad]⟩
  | .loadStringAs => ⟨"LOAD_STRING_AS", [.dst, .imm, .imm], [.simpleLoad]⟩
  | .loadGlobal => ⟨"LOAD_GLOBAL", [.dst, .imm], [.readsGlobal]⟩
  | .storeGlobal => ⟨"STORE_GLOBAL", [.imm, .src], [.sideEffects, .writesGlobal]⟩
  | .move => ⟨"MOVE", [.dst, .src], [.simpleLoad]⟩
  | .convert => ⟨"CONVERT", [.dst, .src, .imm], []⟩
  | .coerce => ⟨"COERCE", [.dst, .src], []⟩
  | .typeTest => ⟨"TYPE_TEST", [.dst, .src, .imm], []⟩
  | .typeTestMask => ⟨"TYPE_TEST_MASK", [.dst, .src, .imm], []⟩
  | .traitTest => ⟨"TRAIT_TEST", [.dst, .src, .imm], [.sideEffects]⟩
  | .makeScoped => ⟨"MAKE_SCOPED", [.dst, .src, .imm], []⟩
  | .batchGet => ⟨"BATCH_GET", [.dst, .imm, .src], []⟩
  | .codepointGet => ⟨"CODEPOINT_GET", [.dst, .imm, .src], []⟩
  | .scopeMark => ⟨"SCOPE_MARK", [.imm], [.sideEffects]⟩
  | .scopeRelease => ⟨"SCOPE_RELEASE", [.imm], [.sideEffects]⟩
  | .breakpoint => ⟨"BREAKPOINT", [], [.sideEffects]⟩
  | .typeOf => ⟨"TYPE_OF", [.dst, .src], []⟩
  | .loadNil => ⟨"LOAD_NIL", [.dst], [.simpleLoad]⟩
  | .add => ⟨"ADD", [.dst, .src, .src], [.arithmetic]⟩
  | .sub => ⟨"SUB", [.dst, .src, .src], [.arithmetic]⟩
  | .mul => ⟨"MUL", [.dst, .src, .src], [.arithmetic]⟩
  | .div => ⟨"DIV", [.dst, .src, .src], [.arithmetic]⟩
  | .mod => ⟨"MOD", [.dst, .src, .src], [.arithmetic]⟩
  | .neg => ⟨"NEG", [.dst, .src], [.arithmetic]⟩
  | .pow => ⟨"POW", [.dst, .src, .src], [.arithmetic]⟩
  | .cmpEq => ⟨"CMP_EQ", [.dst, .src, .src], [.arithmetic, .comparison]⟩
  | .cmpNeq => ⟨"CMP_NEQ", [.dst, .src, .src], [.arithmetic, .comparison]⟩
  | .cmpLt => ⟨"CMP_LT", [.dst, .src, .src], [.arithmetic, .comparison]⟩
  | .cmpLte => ⟨"CMP_LTE", [.dst, .src, .src], [.arithmetic, .comparison]⟩
  | .cmpGt => ⟨"CMP_GT", [.dst, .src, .src], [.arithmetic, .comparison]⟩
  | .cmpGte => ⟨"CMP_GTE", [.dst, .src, .src], [.arithmetic, .comparison]⟩
  | .and => ⟨"AND", [.dst, .src, .src], [.arithmetic]⟩
  | .or => ⟨"OR", [.dst, .src, .src], [.arithmetic]⟩
  | .not => ⟨"NOT", [.dst, .src], []⟩
  | .bitAnd => ⟨"BIT_AND", [.dst, .src, .src], [.arithmetic]⟩
  | .bitOr => ⟨"BIT_OR", [.dst, .src, .src], [.arithmetic]⟩
  | .bitXor => ⟨"BIT_XOR", [.dst, .src, .src], [.arithmetic]⟩
  | .bitNot => ⟨"BIT_NOT", [.dst, .src], [.arithmetic]⟩
  | .shl => ⟨"SHL", [.dst, .src, .src], [.arithmetic]⟩
  | .shr => ⟨"SHR", [.dst, .src, .src], [.arithmetic]⟩
  | .inOp => ⟨"IN", [.dst, .src, .src], [.arithmetic]⟩
  | .label => ⟨"LABEL", [.lbl], [.sideEffects, .label]⟩
  | .jump => ⟨"JUMP", [.lbl], [.sideEffects, .terminator]⟩
  | .branchZero => ⟨"BRANCH_ZERO", [.src, .lbl], [.sideEffects, .branch]⟩
  | .branchNotZero => ⟨"BRANCH_NOT_ZERO", [.src, .lbl], [.sideEffects, .branch]⟩
  | .branchEq => ⟨"BRANCH_EQ", [.src, .src, .lbl], [.sideEffects, .branch, .fusedBranch]⟩
  | .branchNeq => ⟨"BRANCH_NEQ", [.src, .src, .lbl], [.sideEffects, .branch, .fusedBranch]⟩
  | .branchLt => ⟨"BRANCH_LT", [.src, .src, .lbl], [.sideEffects, .branch, .fusedBranch]⟩
  | .branchLte => ⟨"BRANCH_LTE", [.src, .src, .lbl], [.sideEffects, .branch, .fusedBranch]⟩
  | .branchGt => ⟨"BRANCH_GT", [.src, .src, .lbl], [.sideEffects, .branch, .fusedBranch]⟩
  | .branchGte => ⟨"BRANCH_GTE", [.src, .src, .lbl], [.sideEffects, .branch, .fusedBranch]⟩
  | .switch => ⟨"SWITCH", [.src, .imm, .cnt, .lblList], [.sideEffects, .branch]⟩
  | .call => ⟨"CALL", [.str, .dst, .cnt, .srcList], [.sideEffects, .call]⟩
  | .callHosted => ⟨"CALL_HOSTED", [.str, .dst, .cnt, .srcList], [.sideEffects, .call]⟩
  | .callSyscall => ⟨"CALL_SYSCALL", [.dst, .imm, .argList], [.sideEffects, .call]⟩
  | .getNode => ⟨"GET_NODE", [.dst, .str], [.sideEffects, .call]⟩
  | .makeCallable => ⟨"MAKE_CALLABLE", [.dst, .str, .src], [.sideEffects, .call]⟩
  | .loadResource => ⟨"LOAD_RESOURCE", [.dst, .str], [.sideEffects, .call]⟩
  | .loadResourceVar => ⟨"LOAD_RESOURCE_VAR", [.dst, .src], [.sideEffects, .call]⟩
  | .returnOp => ⟨"RETURN", [], [.sideEffects, .terminator]⟩
  | .vcall => ⟨"VCALL", [.dst, .src, .str, .cnt, .srcList], [.sideEffects, .call]⟩
  | .vget => ⟨"VGET", [.dst, .src, .imm, .imm], [.sideEffects]⟩
  | .vset => ⟨"VSET", [.src, .imm, .imm, .src], [.sideEffects]⟩
  | .variantSet => ⟨"VARIANT_SET", [.inout, .src, .src], [.sideEffects]⟩
  | .print => ⟨"PRINT", [.dst, .imm, .cnt, .srcList], [.sideEffects, .call]⟩
  | .throwOp => ⟨"THROW", [.str, .str, .cnt, .srcList], [.sideEffects, .call]⟩
  | .globalCall => ⟨"GLOBAL_CALL", [.dst, .imm, .imm, .cnt, .srcList], []⟩
  | .makeVector2 => ⟨"MAKE_VECTOR2", [.dst, .src, .src], []⟩
  | .makeVector3 => ⟨"MAKE_VECTOR3", [.dst, .src, .src, .src], []⟩
  | .makeVector4 => ⟨"MAKE_VECTOR4", [.dst, .src, .src, .src, .src], []⟩
  | .makeVector2i => ⟨"MAKE_VECTOR2I", [.dst, .src, .src], []⟩
  | .makeVector3i => ⟨"MAKE_VECTOR3I", [.dst, .src, .src, .src], []⟩
  | .makeVector4i => ⟨"MAKE_VECTOR4I", [.dst, .src, .src, .src, .src], []⟩
  | .makeColor => ⟨"MAKE_COLOR", [.dst, .src, .src, .src, .src], []⟩
  | .makeRect2 => ⟨"MAKE_RECT2", [.dst, .src, .src, .src, .src], []⟩
  | .makeRect2i => ⟨"MAKE_RECT2I", [.dst, .src, .src, .src, .src], []⟩
  | .makePlane => ⟨"MAKE_PLANE", [.dst, .src, .src, .src, .src], []⟩
  | .construct => ⟨"CONSTRUCT", [.dst, .imm, .cnt, .srcList], []⟩
  | .arrayGet => ⟨"ARRAY_GET", [.dst, .src, .src], [.sideEffects]⟩
  | .arraySet => ⟨"ARRAY_SET", [.src, .src, .src], [.sideEffects]⟩
  | .arrayAppend => ⟨"ARRAY_APPEND", [.dst, .src, .src], [.sideEffects]⟩
  | .dictSet => ⟨"DICT_SET", [.src, .src, .src], [.sideEffects]⟩
  | .dictGetConst => ⟨"DICT_GET_CONST", [.dst, .src, .imm], [.sideEffects]⟩
  | .dictSetConst => ⟨"DICT_SET_CONST", [.src, .imm, .src], [.sideEffects]⟩
  | .dictSetConstStr => ⟨"DICT_SET_CONST_STR", [.src, .imm, .src], [.sideEffects]⟩
  | .dictHasConst => ⟨"DICT_HAS_CONST", [.dst, .src, .imm], [.sideEffects]⟩
  | .structCheck => ⟨"STRUCT_CHECK", [.dst, .src, .cnt, .argList], [.sideEffects]⟩
  | .makeArray => ⟨"MAKE_ARRAY", [.dst, .cnt, .srcList], []⟩
  | .makeDictionary => ⟨"MAKE_DICTIONARY", [.dst, .cnt2, .srcList], []⟩
  | .makeDictionaryKeyed => ⟨"MAKE_DICTIONARY_KEYED", [.dst, .cnt2, .argList], [.sideEffects]⟩
  | .makePackedByteArray => ⟨"MAKE_PACKED_BYTE_ARRAY", [.dst, .cnt, .srcList], []⟩
  | .makePackedInt32Array => ⟨"MAKE_PACKED_INT32_ARRAY", [.dst, .cnt, .srcList], []⟩
  | .makePackedInt64Array => ⟨"MAKE_PACKED_INT64_ARRAY", [.dst, .cnt, .srcList], []⟩
  | .makePackedFloat32Array => ⟨"MAKE_PACKED_FLOAT32_ARRAY", [.dst, .cnt, .srcList], []⟩
  | .makePackedFloat64Array => ⟨"MAKE_PACKED_FLOAT64_ARRAY", [.dst, .cnt, .srcList], []⟩
  | .makePackedStringArray => ⟨"MAKE_PACKED_STRING_ARRAY", [.dst, .cnt, .srcList], []⟩
  | .makePackedVector2Array => ⟨"MAKE_PACKED_VECTOR2_ARRAY", [.dst, .cnt, .srcList], []⟩
  | .makePackedVector3Array => ⟨"MAKE_PACKED_VECTOR3_ARRAY", [.dst, .cnt, .srcList], []⟩
  | .makePackedColorArray => ⟨"MAKE_PACKED_COLOR_ARRAY", [.dst, .cnt, .srcList], []⟩
  | .makePackedVector4Array => ⟨"MAKE_PACKED_VECTOR4_ARRAY", [.dst, .cnt, .srcList], []⟩
  | .await => ⟨"AWAIT", [.dst, .src], [.sideEffects, .call]⟩
  | .vgetInline => ⟨"VGET_INLINE", [.dst, .src, .str, .imm], []⟩
  | .vsetInline => ⟨"VSET_INLINE", [.inout, .str, .imm, .src, .imm], [.sideEffects]⟩

def opcodeName (op : Opcode) : String := (opcodeInfo op).mnemonic

def hasEffect (op : Opcode) (effect : Effect) : Bool := (opcodeInfo op).effects.contains effect

def isPure (op : Opcode) : Bool := !hasEffect op .sideEffects

/-- `IROperandSignature::is_variadic`: the signature ends in a repeating tail. -/
def isVariadic (signature : List OperandKind) : Bool :=
  match signature.getLast? with
  | some .srcList => true
  | some .argList => true
  | some .lblList => true
  | _ => false

/-- `IROperandSignature::fixed_count`: operands before the tail. -/
def fixedCount (signature : List OperandKind) : Nat :=
  if isVariadic signature then signature.length - 1 else signature.length

def kindAt (signature : List OperandKind) (index : Nat) : OperandKind :=
  if index < fixedCount signature then signature.getD index .none
  else if isVariadic signature then signature.getLastD .none
  else .none

def operandKindName : OperandKind → String
  | .none => "nothing"
  | .dst => "destination register"
  | .inout => "read-modify-write register"
  | .src => "source register"
  | .imm => "immediate"
  | .fimm => "float immediate"
  | .str => "string"
  | .lbl => "label"
  | .cnt => "argument count"
  | .cnt2 => "pair count"
  | .srcList => "source register"
  | .argList => "argument"
  | .lblList => "label"

-- the numbers of host calls
def ecallArrayAt : Int64 := 522
def ecallArraySize : Int64 := 523
def ecallDictionaryOps : Int64 := 524
def ecallStringAt : Int64 := 527
def ecallStringSize : Int64 := 528
def ecallStringBatch : Int64 := 557
def ecallArrayBatch : Int64 := 564
def ecallStringCodepointBatch : Int64 := 565

end Ir
