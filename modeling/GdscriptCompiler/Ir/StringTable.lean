import Mathlib.Algebra.Order.Ring.Int
import Mathlib.Data.List.Nodup
import Mathlib.Tactic.Common

/-! # StringTable — interned label, variable and operand names -/

namespace Ir

/-- `IRStringTable`: position in the list is the id, and a name has one id. -/
structure StringTable where
  names : List String
  nodup : names.Nodup
  deriving DecidableEq, Repr

namespace StringTable

/-- `IRStringTable::operator[]`: the empty string for an id it does not have. -/
def nameOf (table : StringTable) (id : Nat) : String := table.names.getD id ""

def size (table : StringTable) : Nat := table.names.length

theorem nodup_push {names : List String} {text : String} (hnodup : names.Nodup)
    (h : names.idxOf? text = none) :
    (names ++ [text]).Nodup := by
  refine hnodup.append (List.nodup_singleton text) ?_
  rw [List.disjoint_singleton]
  exact List.idxOf?_eq_none_iff.mp h

/-- `IRStringTable::intern`: the id of `text`, appending it when it is new. -/
def intern (table : StringTable) (text : String) : StringTable × Nat :=
  match h : table.names.idxOf? text with
  | some id => (table, id)
  | none => (⟨table.names ++ [text], nodup_push table.nodup h⟩, table.names.length)

/-- Every name keeps its id. -/
def Extends (table table' : StringTable) : Prop :=
  ∀ (id : Nat) (s : String), table.names[id]? = some s → table'.names[id]? = some s

theorem intern_spec (table : StringTable) (text : String) :
    (table.intern text).1.names[(table.intern text).2]? = some text ∧
      table.Extends (table.intern text).1 := by
  unfold intern
  split
  · rename_i id h
    refine ⟨?_, fun _ _ h => h⟩
    rw [List.idxOf?_eq_some_iff] at h
    obtain ⟨hlt, heq, -⟩ := h
    rw [List.getElem?_eq_getElem hlt]
    exact congrArg some (by simpa using heq)
  · refine ⟨by simp, ?_⟩
    intro id s h
    rw [List.getElem?_append_left]
    · exact h
    · exact (List.getElem?_eq_some_iff.mp h).1

theorem nameOf_inj {table : StringTable} {id id' : Nat} (hid : id < table.size)
    (hid' : id' < table.size) (h : table.nameOf id = table.nameOf id') :
    id = id' := by
  unfold nameOf at h
  unfold size at hid hid'
  rw [List.getD_eq_getElem?_getD, List.getD_eq_getElem?_getD, List.getElem?_eq_getElem hid,
    List.getElem?_eq_getElem hid'] at h
  exact table.nodup.getElem_inj_iff.mp h

end StringTable

end Ir
