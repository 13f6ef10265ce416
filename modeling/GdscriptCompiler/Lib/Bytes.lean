import Mathlib.Algebra.Order.Ring.Int
import Mathlib.Data.List.Basic

/-!
# Bytes — little-endian words inside a byte buffer

A read past the end sees zero bytes and a write past the end is dropped.
-/

namespace Lib

abbrev Byte := BitVec 8
abbrev Word := BitVec 32

def byteAt (buf : List Byte) (off : Nat) : Byte := buf.getD off 0

def loadWord (buf : List Byte) (off : Nat) : Word :=
  byteAt buf (off + 3) ++ byteAt buf (off + 2) ++ byteAt buf (off + 1) ++ byteAt buf off

def wordBytes (w : Word) : List Byte :=
  [w.extractLsb' 0 8, w.extractLsb' 8 8, w.extractLsb' 16 8, w.extractLsb' 24 8]

def storeWord (buf : List Byte) (off : Nat) (w : Word) : List Byte :=
  (((buf.set off (w.extractLsb' 0 8)).set (off + 1) (w.extractLsb' 8 8)).set (off + 2)
    (w.extractLsb' 16 8)).set (off + 3) (w.extractLsb' 24 8)

@[simp] theorem wordBytes_length (w : Word) : (wordBytes w).length = 4 := rfl

@[simp] theorem storeWord_length (buf : List Byte) (off : Nat) (w : Word) :
    (storeWord buf off w).length = buf.length := by
  simp only [storeWord, List.length_set]

theorem word_ofBytes (w : Word) :
    (w.extractLsb' 24 8 ++ w.extractLsb' 16 8 ++ w.extractLsb' 8 8 ++ w.extractLsb' 0 8 : Word) =
      w := by
  apply BitVec.eq_of_getLsbD_eq
  intro i hi
  simp only [BitVec.getLsbD_append, BitVec.getLsbD_extractLsb']
  by_cases h0 : i < 8
  · simp [h0]
  by_cases h1 : i < 16
  · simp [h0, show i - 8 < 8 by omega, show 8 + (i - 8) = i by omega]
  by_cases h2 : i < 24
  · simp [h0, show ¬ i - 8 < 8 by omega, show i - 8 - 8 < 8 by omega,
      show 16 + (i - 8 - 8) = i by omega]
  · simp [h0, show ¬ i - 8 < 8 by omega, show ¬ i - 8 - 8 < 8 by omega,
      show i - 8 - 8 - 8 < 8 by omega, show 24 + (i - 8 - 8 - 8) = i by omega]

theorem byteAt_storeWord_of_disjoint (buf : List Byte) (off pos : Nat) (w : Word)
    (h : pos < off ∨ off + 4 ≤ pos) :
    byteAt (storeWord buf off w) pos = byteAt buf pos := by
  unfold byteAt storeWord
  simp only [List.getD_eq_getElem?_getD, List.getElem?_set]
  rw [if_neg (by omega), if_neg (by omega), if_neg (by omega), if_neg (by omega)]

theorem loadWord_storeWord_of_disjoint (buf : List Byte) (off pos : Nat) (w : Word)
    (h : pos + 4 ≤ off ∨ off + 4 ≤ pos) :
    loadWord (storeWord buf off w) pos = loadWord buf pos := by
  unfold loadWord
  rw [byteAt_storeWord_of_disjoint _ _ _ _ (by omega), byteAt_storeWord_of_disjoint _ _ _ _ (by omega),
    byteAt_storeWord_of_disjoint _ _ _ _ (by omega), byteAt_storeWord_of_disjoint _ _ _ _ (by omega)]

theorem loadWord_storeWord_self (buf : List Byte) (off : Nat) (w : Word)
    (h : off + 4 ≤ buf.length) :
    loadWord (storeWord buf off w) off = w := by
  have h0 : byteAt (storeWord buf off w) off = w.extractLsb' 0 8 := by
    simp [byteAt, storeWord, show off < buf.length by omega]
  have h1 : byteAt (storeWord buf off w) (off + 1) = w.extractLsb' 8 8 := by
    simp [byteAt, storeWord, show off + 1 < buf.length by omega]
  have h2 : byteAt (storeWord buf off w) (off + 2) = w.extractLsb' 16 8 := by
    simp [byteAt, storeWord, show off + 2 < buf.length by omega]
  have h3 : byteAt (storeWord buf off w) (off + 3) = w.extractLsb' 24 8 := by
    simp [byteAt, storeWord, show off + 3 < buf.length by omega]
  unfold loadWord
  rw [h0, h1, h2, h3]
  exact word_ofBytes w

variable {buf : List Byte} {off : Nat}

theorem set_storeWord {i : Nat} (w : Word) (x : Byte) (h : i < off ∨ off + 4 ≤ i) :
    (storeWord buf off w).set i x = storeWord (buf.set i x) off w := by
  unfold storeWord
  rw [List.set_comm _ _ (show off + 3 ≠ i by omega), List.set_comm _ _ (show off + 2 ≠ i by omega),
    List.set_comm _ _ (show off + 1 ≠ i by omega), List.set_comm _ _ (show off ≠ i by omega)]

theorem storeWord_comm {p q : Nat} (w v : Word) (h : p + 4 ≤ q ∨ q + 4 ≤ p) :
    storeWord (storeWord buf p w) q v = storeWord (storeWord buf q v) p w := by
  show ((((storeWord buf p w).set q _).set (q + 1) _).set (q + 2) _).set (q + 3) _ = _
  rw [set_storeWord w _ (by omega), set_storeWord w _ (by omega), set_storeWord w _ (by omega),
    set_storeWord w _ (by omega)]
  rfl
theorem loadWord_congr {buf' : List Byte} {off' : Nat}
    (h : ∀ k < 4, buf'[off' + k]? = buf[off + k]?) :
    loadWord buf' off' = loadWord buf off := by
  have hb : ∀ k < 4, byteAt buf' (off' + k) = byteAt buf (off + k) := by
    intro k hk
    simp only [byteAt, List.getD_eq_getElem?_getD, h k hk]
  unfold loadWord
  rw [hb 3 (by omega), hb 2 (by omega), hb 1 (by omega), show byteAt buf' off' = byteAt buf off from
    hb 0 (by omega)]

theorem loadWord_of_wordBytes {w : Word} (h : ∀ k < 4, buf[off + k]? = (wordBytes w)[k]?) :
    loadWord buf off = w := by
  have hw : loadWord (wordBytes w) 0 = w := word_ofBytes w
  rw [← hw]
  apply loadWord_congr
  intro k hk
  rw [h k hk, Nat.zero_add]

theorem loadWord_append_left (buf rest : List Byte) (off : Nat) (h : off + 4 ≤ buf.length) :
    loadWord (buf ++ rest) off = loadWord buf off := by
  apply loadWord_congr
  intro k hk
  rw [List.getElem?_append_left (by omega)]

theorem xor_and_mask (x y mask : Word) : (x ^^^ y) &&& mask = (x &&& mask) ^^^ (y &&& mask) := by
  ext i hi
  simp only [BitVec.getElem_and, BitVec.getElem_xor]
  cases x[i] <;> cases y[i] <;> cases mask[i] <;> rfl

end Lib
