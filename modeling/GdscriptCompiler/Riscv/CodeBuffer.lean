import GdscriptCompiler.Lib.Bytes
import GdscriptCompiler.Ir.StringTable

/-!
# CodeBuffer — the back end's code, label table and label uses

Names are interned: a label operand carries an id, and `m_label_offsets` is indexed by it.
-/

namespace Riscv

open Lib Ir

structure LabelUse where
  label : Nat
  codeOffset : Nat
  addend : Int
  deriving Repr, DecidableEq

structure DenseJumpTable where
  firstUse : Nat
  count : Nat
  deriving Repr, DecidableEq

structure LineTableEntry where
  address : Nat
  line : Nat
  deriving Repr, DecidableEq

/-- The fields of `RISCVCodeGen` that relaxation and resolution read or write. `none` in
`labelOffsets` is `NO_LABEL`. -/
structure CodeBuffer where
  code : List Byte
  labelNames : StringTable
  labelOffsets : List (Option Nat)
  labelUses : List LabelUse
  denseJumpTables : List DenseJumpTable
  functions : List (String × Nat)
  instanceInitOffset : Nat
  lineTable : List LineTableEntry
  deriving Repr, DecidableEq

namespace CodeBuffer

/-- `m_label_offsets[id]`, with an id past the end undefined like `NO_LABEL`. -/
def labelOffset (b : CodeBuffer) (id : Nat) : Option Nat := (b.labelOffsets[id]?).join

def labelId (b : CodeBuffer) (name : String) : CodeBuffer × Nat :=
  let r := StringTable.intern b.labelNames name
  ({ b with labelNames := r.1 }, r.2)

/-- `set_label`: grows the table to the id when it has to. -/
def setLabel (b : CodeBuffer) (id offset : Nat) : CodeBuffer :=
  let grown := b.labelOffsets ++ List.replicate (id + 1 - b.labelOffsets.length) none
  { b with labelOffsets := grown.set id (some offset) }

/-- `mark_label_use` on an interned id. -/
def markLabelUse (b : CodeBuffer) (id codeOffset : Nat) (addend : Int) : CodeBuffer :=
  { b with labelUses := b.labelUses ++ [⟨id, codeOffset, addend⟩] }

theorem labelOffset_setLabel (b : CodeBuffer) (id offset id' : Nat) :
    (b.setLabel id offset).labelOffset id' =
      if id' = id then some offset else b.labelOffset id' := by
  unfold labelOffset setLabel
  simp only [List.getElem?_set, List.length_append, List.length_replicate]
  by_cases h : id' = id
  · subst h
    simp only [↓reduceIte]
    rw [if_pos (by omega)]
    rfl
  · rw [if_neg h, if_neg (fun he => h he.symm)]
    by_cases hlt : id' < b.labelOffsets.length
    · rw [List.getElem?_append_left hlt]
    · rw [List.getElem?_append_right (by omega), List.getElem?_replicate,
        List.getElem?_eq_none_iff.mpr (by omega : b.labelOffsets.length ≤ id')]
      split <;> rfl

end CodeBuffer

end Riscv
