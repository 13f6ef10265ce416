import GdscriptCompiler.Ir.Opcode
import GdscriptCompiler.Ir.StringTable

/-!
# Instruction — operands, instructions and functions of the IR

Which operands an instruction reads and which one it defines follows from the opcode table alone.
-/

namespace Ir

inductive IRValue where
  | reg (r : Int)
  | imm (v : Int64)
  | fimm (d : Float)
  | label (id : Nat)
  | var (id : Nat)
  | str (id : Nat)

namespace IRValue

-- `string_id`; only read where the operand is known to be a name.
def stringId : IRValue → Nat
  | label id => id
  | var id => id
  | str id => id
  | _ => 0

/-- The name of an operand: without a table names render as their id. -/
def nameOf (strings : Option StringTable) (value : IRValue) : String :=
  match strings with
  | some table => table.nameOf value.stringId
  | none => "#" ++ toString value.stringId

def toString (strings : Option StringTable) : IRValue → String
  | reg r => "r" ++ ToString.toString r
  | imm v => ToString.toString v
  | fimm d => ToString.toString d
  | label id => "@" ++ nameOf strings (label id)
  | var id => "$" ++ nameOf strings (var id)
  | str id => "\"" ++ nameOf strings (str id) ++ "\""

end IRValue

/-- A `Variant::Type`, or -1 for none. -/
abbrev TypeHint := Int

def typeHintNone : TypeHint := -1

namespace Variant

def nil : TypeHint := 0
def bool : TypeHint := 1
def int : TypeHint := 2
def float : TypeHint := 3
def string : TypeHint := 4
def vector2 : TypeHint := 5
def vector2i : TypeHint := 6
def vector3 : TypeHint := 9
def vector3i : TypeHint := 10
def vector4 : TypeHint := 12
def vector4i : TypeHint := 13
def color : TypeHint := 20
def dictionary : TypeHint := 27
def array : TypeHint := 28

end Variant

def variantTypeName (hint : TypeHint) : String :=
  match hint with
  | -1 => "NONE"
  | 0 => "NIL"
  | 1 => "BOOL"
  | 2 => "INT"
  | 3 => "FLOAT"
  | 4 => "STRING"
  | 5 => "VECTOR2"
  | 6 => "VECTOR2I"
  | 7 => "RECT2"
  | 8 => "RECT2I"
  | 9 => "VECTOR3"
  | 10 => "VECTOR3I"
  | 11 => "TRANSFORM2D"
  | 12 => "VECTOR4"
  | 13 => "VECTOR4I"
  | 14 => "PLANE"
  | 15 => "QUATERNION"
  | 16 => "AABB"
  | 17 => "BASIS"
  | 18 => "TRANSFORM3D"
  | 19 => "PROJECTION"
  | 20 => "COLOR"
  | 21 => "STRING_NAME"
  | 22 => "NODE_PATH"
  | 23 => "RID"
  | 24 => "OBJECT"
  | 25 => "CALLABLE"
  | 26 => "SIGNAL"
  | 27 => "DICTIONARY"
  | 28 => "ARRAY"
  | 29 => "PACKED_BYTE_ARRAY"
  | 30 => "PACKED_INT32_ARRAY"
  | 31 => "PACKED_INT64_ARRAY"
  | 32 => "PACKED_FLOAT32_ARRAY"
  | 33 => "PACKED_FLOAT64_ARRAY"
  | 34 => "PACKED_STRING_ARRAY"
  | 35 => "PACKED_VECTOR2_ARRAY"
  | 36 => "PACKED_VECTOR3_ARRAY"
  | 37 => "PACKED_COLOR_ARRAY"
  | 38 => "PACKED_VECTOR4_ARRAY"
  | _ => "UNKNOWN"

structure IRInstruction where
  opcode : Opcode
  operands : List IRValue
  typeHint : TypeHint := typeHintNone
  lhsTypeHint : TypeHint := typeHintNone
  rhsTypeHint : TypeHint := typeHintNone

structure IRFunction where
  name : String
  parameters : List String
  instructions : List IRInstruction
  maxRegisters : Int
  isCoroutine : Bool := false

/-- Each label of `f` has an id that `strings` gave out. -/
def LabelsInterned (strings : StringTable) (f : IRFunction) : Prop :=
  ∀ instr ∈ f.instructions, ∀ id, .label id ∈ instr.operands → id < strings.size

def IRValue.labelIn (strings : StringTable) : IRValue → Bool
  | .label id => id < strings.size
  | _ => true

theorem labelsInterned_iff {strings : StringTable} {f : IRFunction} :
    (f.instructions.all fun instr => instr.operands.all (IRValue.labelIn strings)) = true ↔
      LabelsInterned strings f := by
  simp only [List.all_eq_true, LabelsInterned]
  constructor
  · intro h instr hmem id hid
    exact of_decide_eq_true (h instr hmem _ hid)
  · intro h instr hmem operand hoperand
    cases operand with
    | label id => exact decide_eq_true (h instr hmem id hoperand)
    | _ => rfl

instance (strings : StringTable) (f : IRFunction) : Decidable (LabelsInterned strings f) :=
  decidable_of_iff _ labelsInterned_iff

namespace IRInstruction

def signature (instr : IRInstruction) : List OperandKind := (opcodeInfo instr.opcode).signature

/-- `ir_destination_operand_index`: the first fixed operand that is written, -1 without one. -/
def destinationOperandIndex (op : Opcode) : Int :=
  let signature := (opcodeInfo op).signature
  match (signature.take (fixedCount signature)).findIdx? fun k => k = .dst ∨ k = .inout with
  | some i => i
  | none => -1

/-- `ir_destination_register`, -1 without one. -/
def destinationRegister (instr : IRInstruction) : Int :=
  let index := destinationOperandIndex instr.opcode
  if index < 0 then -1
  else
    match instr.operands[index.toNat]? with
    | some (.reg r) => r
    | _ => -1

/-- `ir_reads_operand`: a register the signature does not mark DST. -/
def readsOperand (instr : IRInstruction) (index : Nat) : Bool :=
  match instr.operands[index]? with
  | some (.reg _) => kindAt instr.signature index ≠ .dst
  | _ => false

def writesOperand (instr : IRInstruction) (index : Nat) : Bool :=
  match instr.operands[index]? with
  | some (.reg _) => kindAt instr.signature index = .dst ∨ kindAt instr.signature index = .inout
  | _ => false

-- A bare RETURN reads the return register, r0.
def isBareReturn (instr : IRInstruction) : Bool :=
  instr.opcode = .returnOp && instr.operands.isEmpty

def collectReadRegisters (instr : IRInstruction) : List Int :=
  if instr.isBareReturn then [0]
  else
    instr.operands.zipIdx.filterMap fun (operand, i) =>
      match operand with
      | .reg r => if instr.readsOperand i then some r else none
      | _ => none

end IRInstruction

theorem signature_of {instr : IRInstruction} {op : Opcode} (hop : instr.opcode = op) :
    instr.signature = (opcodeInfo op).signature := by
  rw [IRInstruction.signature, hop]

end Ir
