import Mathlib.Algebra.Order.Ring.Int
import Mathlib.Data.List.Basic
import Mathlib.Tactic.Common

/-! # Utf8 — byte strings that encode text -/

namespace Lib.Utf8

/-- The bytes are the encoding of a text. -/
def Valid (bs : List UInt8) : Prop := ∃ cs : List Char, bs = cs.flatMap String.utf8EncodeChar

variable {bs cs : List UInt8} {b : UInt8}

theorem valid_nil : Valid [] := ⟨[], rfl⟩

theorem valid_char (c : Char) : Valid (String.utf8EncodeChar c) := ⟨[c], by simp⟩

theorem Valid.append (h : Valid bs) (h' : Valid cs) : Valid (bs ++ cs) := by
  obtain ⟨ds, rfl⟩ := h
  obtain ⟨ds', rfl⟩ := h'
  exact ⟨ds ++ ds', List.flatMap_append.symm⟩

theorem le_toNat_ofNat {n : Nat} (h : 128 ≤ n) (h' : n < 256) : (0x80 : UInt8) ≤ .ofNat n :=
  (UInt8.le_ofNat_iff h').mpr h

theorem encode_cases (c : Char) :
    (∃ b : UInt8, b < 0x80 ∧ String.utf8EncodeChar c = [b]) ∨ ∀ b ∈ String.utf8EncodeChar c,
      0x80 ≤ b := by
  rw [String.utf8EncodeChar]
  split
  · rename_i h
    refine .inl ⟨_, ?_, rfl⟩
    rw [UInt8.lt_iff_toNat_lt, UInt8.toNat_ofNat']
    show c.val.toNat % 256 < 128
    omega
  · refine .inr fun b hb => ?_
    split at hb
    · simp only [List.mem_cons, List.not_mem_nil, or_false] at hb
      rcases hb with rfl | rfl <;> exact le_toNat_ofNat (by omega) (by omega)
    split at hb
    · simp only [List.mem_cons, List.not_mem_nil, or_false] at hb
      rcases hb with rfl | rfl | rfl <;> exact le_toNat_ofNat (by omega) (by omega)
    · simp only [List.mem_cons, List.not_mem_nil, or_false] at hb
      rcases hb with rfl | rfl | rfl | rfl <;> exact le_toNat_ofNat (by omega) (by omega)

theorem valid_ascii (hb : b < 0x80) : Valid [b] := by
  have hval : (Char.ofUInt8 b).val.toNat = b.toNat := rfl
  refine ⟨[Char.ofUInt8 b], ?_⟩
  rw [UInt8.lt_iff_toNat_lt] at hb
  have hb : b.toNat < 128 := hb
  rw [List.flatMap_singleton, String.utf8EncodeChar, hval, if_pos (by omega), UInt8.ofNat_toNat]

theorem Valid.cut (hb : b < 0x80) (h : Valid (bs ++ b :: cs)) : Valid bs ∧ Valid cs := by
  obtain ⟨ds, hds⟩ := h
  induction ds generalizing bs with
  | nil => simp at hds
  | cons d ds ih =>
    rw [List.flatMap_cons] at hds
    rcases List.append_eq_append_iff.1 hds with ⟨as, hd, hrest⟩ | ⟨as, hbs, hrest⟩
    · cases as with
      | nil =>
        rw [List.append_nil] at hd
        exact ⟨hd ▸ valid_char d, (ih (show [] ++ b :: cs = _ from hrest)).2⟩
      | cons a as =>
        -- the byte lies in the encoding of `d`, which is this byte alone
        obtain ⟨rfl, rfl⟩ := List.cons.inj hrest
        rcases encode_cases d with ⟨b', -, hb'⟩ | hmulti
        · rw [hb'] at hd
          cases bs with
          | nil =>
            obtain ⟨-, rfl⟩ := List.cons.inj hd
            exact ⟨valid_nil, ds, rfl⟩
          | cons c bs => simp at hd
        · have hb' := hmulti b (by rw [hd]; simp)
          exact absurd hb (UInt8.not_lt.2 hb')
    · obtain ⟨hbs', hcs⟩ := ih hrest.symm
      exact ⟨hbs ▸ (valid_char d).append hbs', hcs⟩

theorem valid_cons_iff (hb : b < 0x80) : Valid (b :: bs) ↔ Valid bs :=
  ⟨fun h => (Valid.cut hb (show Valid ([] ++ b :: bs) from h)).2, fun h => (valid_ascii hb).append h⟩

end Lib.Utf8
