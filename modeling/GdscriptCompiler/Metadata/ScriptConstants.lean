import GdscriptCompiler.Lib.Reader

/-!
# ScriptConstants — the table of a script's constants as bytes

Scalars are copied as raw bytes, on a little-endian host.
-/

namespace Metadata

open Lib Lib.Reader

structure EnumMember where
  name : List UInt8
  value : BitVec 64
  deriving DecidableEq, Repr

/-- The kind with what is stored under it; a kind beside another alternative of the variant does not
encode. -/
inductive ConstantValue where
  | int (value : BitVec 64)
  | float (bits : BitVec 64)
  | bool (value : Bool)
  | string (value : List UInt8)
  | enum (members : List EnumMember)
  deriving DecidableEq, Repr

structure ScriptConstant where
  name : List UInt8
  value : ConstantValue
  deriving DecidableEq, Repr

/-! ## 1. Encoding -/

def writeString (s : List UInt8) : List UInt8 := littleEndian 4 s.length ++ s

def writeMember (m : EnumMember) : List UInt8 := writeString m.name ++ littleEndian 8 m.value.toNat

def writeValue : ConstantValue → List UInt8
  | .int v => littleEndian 1 0 ++ littleEndian 8 v.toNat
  | .float v => littleEndian 1 1 ++ littleEndian 8 v.toNat
  | .bool v => littleEndian 1 2 ++ littleEndian 1 v.toNat
  | .string s => littleEndian 1 3 ++ writeString s
  | .enum ms => littleEndian 1 4 ++ (littleEndian 4 ms.length ++ ms.flatMap writeMember)

def writeConstant (c : ScriptConstant) : List UInt8 := writeString c.name ++ writeValue c.value

def encodeScriptConstants (cs : List ScriptConstant) : List UInt8 :=
  littleEndian 4 cs.length ++ cs.flatMap writeConstant

/-! ## 2. Decoding -/

/-- An `int64_t`, or a `double` by its bits. -/
def word : Get (BitVec 64) := do return BitVec.ofNat 64 (← scalar 8)

def readMember : Get EnumMember := do return ⟨← string, ← word⟩

def readValue (size kind : Nat) : Get ConstantValue :=
  match kind with
  | 0 => do return .int (← word)
  | 1 => do return .float (← word)
  | 2 => do return .bool ((← scalar 1) != 0)
  | 3 => do return .string (← string)
  | _ => do return .enum (← list size readMember)

def readConstant (size : Nat) : Get ScriptConstant := do
  let name ← string
  let kind ← scalar 1
  check (kind ≤ 4)
  return ⟨name, ← readValue size kind⟩

/-- The whole pass: the constants, and the reader where it stopped. -/
def readConstants (data : List UInt8) : Option (List ScriptConstant × Reader) :=
  list data.length (readConstant data.length) ⟨data, true⟩

/-- The last check is that no read failed, not that the input is used up. -/
def decodeScriptConstants (data : List UInt8) : Option (List ScriptConstant) :=
  match readConstants data with
  | some (cs, r) => if r.ok then some cs else none
  | none => none

def leftOver (data : List UInt8) : List UInt8 :=
  match readConstants data with
  | some (_, r) => r.rest
  | none => []

variable {data : List UInt8} {cs : List ScriptConstant}

theorem decode_eq_some :
    decodeScriptConstants data = some cs ↔
      readConstants data = some (cs, ⟨leftOver data, true⟩) := by
  unfold decodeScriptConstants leftOver
  rcases readConstants data with _ | ⟨cs', rest, _ | _⟩ <;> simp

/-! ## 3. The length of a table -/

def memberSize (bytes : List UInt8) : Nat := stringSize bytes + 8

-- after the kind
def valueSize (kind : Nat) (bytes : List UInt8) : Nat :=
  match kind with
  | 0 => 8
  | 1 => 8
  | 2 => 1
  | 3 => stringSize bytes
  | _ => listSize memberSize bytes

def constantSize (bytes : List UInt8) : Nat :=
  let value := bytes.drop (stringSize bytes)
  stringSize bytes + (1 + valueSize (ofLittleEndian (value.take 1)) (value.drop 1))

/-- What the count and the lengths at the front of the records add up to. -/
def tableSize (data : List UInt8) : Nat := listSize constantSize data

theorem spans_word : Spans word fun _ => 8 := (spans_scalar fun _ => .pure _ :)

theorem spans_readMember : Spans readMember memberSize :=
  spans_string.bind fun _ => spans_word.bind fun _ => .pure _

theorem spans_readValue (size kind : Nat) : Spans (readValue size kind) (valueSize kind) := by
  unfold readValue valueSize
  split
  · exact spans_word.bind fun _ => .pure _
  · exact spans_word.bind fun _ => .pure _
  · exact spans_scalar fun _ => .pure _
  · exact spans_string.bind fun _ => .pure _
  · exact (spans_list spans_readMember size).bind fun _ => .pure _

theorem spans_readConstant (size : Nat) : Spans (readConstant size) constantSize :=
  spans_string.bind fun _ => spans_scalar fun kind =>
    ((spans_readValue size kind).bind fun _ => .pure _).check _

/-- An accepted input begins with its table, and what follows is left over. -/
theorem decode_leftOver (h : decodeScriptConstants data = some cs) :
    tableSize data ≤ data.length ∧ leftOver data = data.drop (tableSize data) :=
  (spans_list (spans_readConstant _) _ _ _ _ (decode_eq_some.1 h) rfl).2

/-! ## 4. Round trip -/

def EnumMember.Encodable (m : EnumMember) : Prop := m.name.length < 2 ^ 32

def ConstantValue.Encodable : ConstantValue → Prop
  | .string s => s.length < 2 ^ 32
  | .enum ms => ms.length < 2 ^ 32 ∧ ∀ m ∈ ms, m.Encodable
  | _ => True

def Encodable (cs : List ScriptConstant) : Prop :=
  cs.length < 2 ^ 32 ∧ ∀ c ∈ cs, c.name.length < 2 ^ 32 ∧ c.value.Encodable

theorem word_append (v : BitVec 64) (more : List UInt8) :
    word ⟨littleEndian 8 v.toNat ++ more, true⟩ = some (v, ⟨more, true⟩) := by
  refine bind_eq_some.2 ⟨_, _, scalar_append v.isLt, ?_⟩
  rw [BitVec.ofNat_toNat, BitVec.setWidth_eq]
  rfl

theorem inverse_member {m : EnumMember} (h : m.Encodable) :
    Inverse writeMember (fun _ => readMember) m := by
  intro size more _
  rw [writeMember, writeString, List.append_assoc, List.append_assoc]
  exact bind_eq_some.2 ⟨_, _, string_append h, bind_eq_some.2 ⟨_, _, word_append m.value more, rfl⟩⟩

theorem inverse_value {v : ConstantValue} (h : v.Encodable) {size : Nat} (more : List UInt8)
    (hsize : (writeValue v).length ≤ size) :
    ∃ kind ≤ 4, ∃ body, writeValue v = littleEndian 1 kind ++ body ∧
      readValue size kind ⟨body ++ more, true⟩ = some (v, ⟨more, true⟩) := by
  cases v with
  | int v => exact ⟨0, by omega, _, rfl, bind_eq_some.2 ⟨_, _, word_append v more, rfl⟩⟩
  | float v => exact ⟨1, by omega, _, rfl, bind_eq_some.2 ⟨_, _, word_append v more, rfl⟩⟩
  | bool v =>
    refine ⟨2, by omega, _, rfl, bind_eq_some.2 ⟨v.toNat, _, scalar_append (by cases v <;> decide), ?_⟩⟩
    cases v <;> rfl
  | string s =>
    refine ⟨3, by omega, _, rfl, bind_eq_some.2 ⟨s, _, ?_, rfl⟩⟩
    rw [writeString, List.append_assoc]
    exact string_append h
  | enum ms =>
    refine ⟨4, by omega, _, rfl, bind_eq_some.2 ⟨ms, _, ?_, rfl⟩⟩
    rw [List.append_assoc]
    refine list_append (g := fun _ => readMember) more (fun m hm => ⟨?_, inverse_member (h.2 m hm)⟩)
      h.1 ?_
    · exact List.append_ne_nil_of_left_ne_nil (List.cons_ne_nil _ _) _
    · rw [writeValue, List.length_append, List.length_append] at hsize
      omega

theorem inverse_constant {c : ScriptConstant} (hname : c.name.length < 2 ^ 32)
    (hvalue : c.value.Encodable) :
    Inverse writeConstant readConstant c := by
  intro size more hsize
  rw [writeConstant, List.length_append] at hsize
  obtain ⟨kind, hkind, body, hbody, hread⟩ := inverse_value hvalue more (by omega : _ ≤ size)
  rw [writeConstant, hbody, writeString, List.append_assoc, List.append_assoc, List.append_assoc]
  refine bind_eq_some.2 ⟨_, _, string_append hname,
    bind_eq_some.2 ⟨kind, _, scalar_append (by omega), ?_⟩⟩
  exact bind_eq_some.2 ⟨(), _, if_pos (decide_eq_true hkind), bind_eq_some.2 ⟨_, _, hread, rfl⟩⟩

theorem decode_encode (h : Encodable cs) :
    decodeScriptConstants (encodeScriptConstants cs) = some cs := by
  have hread : readConstants (encodeScriptConstants cs) = some (cs, ⟨[], true⟩) := by
    have hsize : (cs.flatMap writeConstant).length ≤ (encodeScriptConstants cs).length := by
      rw [encodeScriptConstants, List.length_append]
      omega
    have hput : ∀ c ∈ cs, writeConstant c ≠ [] ∧ Inverse writeConstant readConstant c := fun c hc =>
      ⟨List.append_ne_nil_of_left_ne_nil (List.cons_ne_nil _ _) _,
      inverse_constant (h.2 c hc).1 (h.2 c hc).2⟩
    have hlist := list_append [] hput h.1 hsize
    rwa [List.append_nil] at hlist
  unfold decodeScriptConstants
  rw [hread]
  rfl

/-- Every table whose lengths fit is read back, and an accepted input is used up exactly when its
count and the lengths of its records add up to its size. -/
theorem scriptConstants_exact (cs : List ScriptConstant) (h : Encodable cs) (data : List UInt8)
    (hdata : (decodeScriptConstants data).isSome) :
    decodeScriptConstants (encodeScriptConstants cs) = some cs ∧
      (leftOver data = [] ↔ tableSize data = data.length) := by
  refine ⟨decode_encode h, ?_⟩
  obtain ⟨cs', hcs'⟩ := Option.isSome_iff_exists.1 hdata
  obtain ⟨hle, hleft⟩ := decode_leftOver hcs'
  rw [hleft, List.drop_eq_nil_iff]
  omega

-- an enum with two members, and the same bytes as the input
theorem scriptConstants_exact_enum :
    decodeScriptConstants (encodeScriptConstants [⟨[65], .enum [⟨[66], 0⟩, ⟨[67], 1⟩]⟩]) =
        some [⟨[65], .enum [⟨[66], 0⟩, ⟨[67], 1⟩]⟩] ∧
      (leftOver (encodeScriptConstants [⟨[65], .enum [⟨[66], 0⟩, ⟨[67], 1⟩]⟩]) = [] ↔
        tableSize (encodeScriptConstants [⟨[65], .enum [⟨[66], 0⟩, ⟨[67], 1⟩]⟩]) =
          (encodeScriptConstants [⟨[65], .enum [⟨[66], 0⟩, ⟨[67], 1⟩]⟩]).length) :=
  scriptConstants_exact [⟨[65], .enum [⟨[66], 0⟩, ⟨[67], 1⟩]⟩]
    (by simp [Encodable, ConstantValue.Encodable, EnumMember.Encodable]) _ (by decide)

/-- An empty table with a byte after it is accepted. -/
theorem trailing_byte_accepted :
    decodeScriptConstants [0, 0, 0, 0, 7] = some [] ∧ leftOver [0, 0, 0, 0, 7] = [7] := by
  decide

end Metadata
