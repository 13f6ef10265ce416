import Mathlib.Algebra.Order.Ring.Int
import Mathlib.Data.List.Basic
import Mathlib.Data.List.Nodup
import Mathlib.Order.Monotone.Basic

/-!
# Splice — inserting fixed-size chunks at an ascending list of points

`spliceFrom` copies a list up to each insertion point in turn and puts that point's chunk there;
`shiftBy` says where an old position ends up.
-/

namespace Lib

variable {α : Type*}

/-- Copy `xs` from position `copied` on, putting each chunk at its point. -/
def spliceFrom (xs : List α) (copied : Nat) : List (Nat × List α) → List α
  | [] => xs.drop copied
  | (point, chunk) :: rest =>
    (xs.drop copied).take (point - copied) ++ chunk ++ spliceFrom xs point rest

/-- Where a position goes when a chunk of `size` elements is inserted at each of `points`. -/
def shiftBy (size : Nat) (points : List Nat) (pos : Nat) : Nat :=
  pos + points.countP (· ≤ pos) * size

section Shift

variable {size : Nat} {points : List Nat}

theorem countP_le_mono (points : List Nat) {a b : Nat} (h : a ≤ b) :
    points.countP (· ≤ a) ≤ points.countP (· ≤ b) := by
  apply List.countP_mono_left
  intro x _ hx
  simp only [decide_eq_true_eq] at hx ⊢
  omega

theorem le_shiftBy (size : Nat) (points : List Nat) (pos : Nat) :
    pos ≤ shiftBy size points pos := by
  unfold shiftBy
  omega

theorem shiftBy_strictMono (size : Nat) (points : List Nat) : StrictMono (shiftBy size points) := by
  intro a b h
  have hm := Nat.mul_le_mul_right size (countP_le_mono points (Nat.le_of_lt h))
  unfold shiftBy
  omega

theorem shiftBy_of_gap {a b : Nat} (hab : a ≤ b) (h : ∀ p ∈ points, ¬ (a < p ∧ p ≤ b)) :
    shiftBy size points b = shiftBy size points a + (b - a) := by
  have hc : points.countP (· ≤ b) = points.countP (· ≤ a) := by
    apply List.countP_congr
    intro p hp
    have := h p hp
    simp only [decide_eq_true_eq]
    omega
  unfold shiftBy
  rw [hc]
  omega

theorem shiftBy_of_point {a b p : Nat} (hnd : points.Nodup) (hp : p ∈ points) (hap : a < p)
    (hpb : p ≤ b) (h : ∀ q ∈ points, a < q → q ≤ b → q = p) :
    shiftBy size points b = shiftBy size points a + (b - a) + size := by
  have hc : points.countP (· ≤ b) = points.countP (· ≤ a) + 1 := by
    have hsplit : points.countP (· ≤ b) = points.countP (· ≤ a) + points.countP
      (fun q => decide (a < q ∧ q ≤ b)) := by
      clear hnd hp h
      induction points with
      | nil => rfl
      | cons q qs ih =>
        simp only [List.countP_cons, ih, decide_eq_true_eq]
        split <;> split <;> split <;> omega
    have hone : points.countP (fun q => decide (a < q ∧ q ≤ b)) = points.count p := by
      unfold List.count
      apply List.countP_congr
      intro q hq
      simp only [decide_eq_true_eq, beq_iff_eq]
      constructor
      · rintro ⟨h1, h2⟩
        exact h q hq h1 h2
      · rintro rfl
        exact ⟨hap, hpb⟩
    rw [hsplit, hone, List.nodup_iff_count_eq_one.mp hnd p hp]
  unfold shiftBy
  rw [hc, Nat.add_mul]
  omega

end Shift

/-- The points ascend strictly, start at or after `copied` and stay inside the list; every chunk has
`size` elements. -/
structure SpliceOk (size len copied : Nat) (ins : List (Nat × List α)) : Prop where
  ascending : (ins.map Prod.fst).Pairwise (· < ·)
  lower : ∀ e ∈ ins, copied ≤ e.1
  upper : ∀ e ∈ ins, e.1 ≤ len
  chunk : ∀ e ∈ ins, e.2.length = size

variable {size : Nat}

theorem SpliceOk.tail {len copied : Nat} {e : Nat × List α} {ins : List (Nat × List α)}
    (h : SpliceOk size len copied (e :: ins)) :
    SpliceOk size len e.1 ins where
  ascending := (List.pairwise_cons.mp h.ascending).2
  lower := fun e' he' =>
    Nat.le_of_lt ((List.pairwise_cons.mp h.ascending).1 e'.1 (List.mem_map_of_mem he'))
  upper := fun e' he' => h.upper e' (List.mem_cons_of_mem _ he')
  chunk := fun e' he' => h.chunk e' (List.mem_cons_of_mem _ he')

theorem spliceFrom_length (xs : List α) (copied : Nat) (ins : List (Nat × List α))
    (h : SpliceOk size xs.length copied ins) (hc : copied ≤ xs.length) :
    (spliceFrom xs copied ins).length = xs.length - copied + ins.length * size := by
  induction ins generalizing copied with
  | nil => simp [spliceFrom]
  | cons e ins ih =>
    have hlo := h.lower e List.mem_cons_self
    have hup := h.upper e List.mem_cons_self
    have hch := h.chunk e List.mem_cons_self
    simp only [spliceFrom, List.length_append, List.length_take, List.length_drop,
      ih e.1 h.tail hup, hch, List.length_cons, Nat.add_mul]
    omega

theorem countP_eq_zero_of_lt {points : List Nat} {pos : Nat} (h : ∀ p ∈ points, pos < p) :
    points.countP (· ≤ pos) = 0 := by
  rw [List.countP_eq_zero]
  intro p hp
  have := h p hp
  simp only [decide_eq_true_eq]
  omega

theorem spliceFrom_getElem?_shiftBy (xs : List α) (copied : Nat)
    (ins : List (Nat × List α)) (h : SpliceOk size xs.length copied ins) (pos : Nat)
    (hlo : copied ≤ pos) (hpos : pos < xs.length) :
    (spliceFrom xs copied ins)[shiftBy size (ins.map Prod.fst) pos - copied]? = xs[pos]? := by
  induction ins generalizing copied with
  | nil =>
    simp only [spliceFrom, shiftBy, List.map_nil, List.countP_nil, Nat.zero_mul, Nat.add_zero,
      List.getElem?_drop]
    congr 1
    omega
  | cons e ins ih =>
    obtain ⟨point, chunk⟩ := e
    have hpl : copied ≤ point := h.lower _ List.mem_cons_self
    have hpu : point ≤ xs.length := h.upper _ List.mem_cons_self
    have hch : chunk.length = size := h.chunk _ List.mem_cons_self
    have htake : ((xs.drop copied).take (point - copied)).length = point - copied := by
      rw [List.length_take, List.length_drop]
      omega
    by_cases hlt : pos < point
    · -- before the first point nothing moves
      have hz : (((point, chunk) :: ins).map Prod.fst).countP (· ≤ pos) = 0 := by
        apply countP_eq_zero_of_lt
        intro p hp
        rcases List.mem_cons.mp hp with rfl | hp
        · exact hlt
        · have := (List.pairwise_cons.mp h.ascending).1 p hp
          omega
      simp only [spliceFrom, shiftBy, hz, Nat.zero_mul, Nat.add_zero]
      rw [List.append_assoc, List.getElem?_append_left (by omega), List.getElem?_take,
        if_pos (by omega), List.getElem?_drop]
      congr 1
      omega
    · have hcount : (((point, chunk) :: ins).map Prod.fst).countP (· ≤ pos) =
          (ins.map Prod.fst).countP (· ≤ pos) + 1 := by
        rw [List.map_cons, List.countP_cons_of_pos]
        simpa using (by omega : point ≤ pos)
      have hrec := ih point h.tail (by omega)
      unfold shiftBy at hrec ⊢
      rw [hcount, Nat.add_mul, Nat.one_mul]
      simp only [spliceFrom]
      rw [List.getElem?_append_right (by rw [List.length_append, htake, hch]; omega),
        List.length_append, htake, hch, ← hrec]
      congr 1
      omega

theorem spliceFrom_getElem?_chunk (xs : List α) (copied : Nat) (ins : List (Nat × List α))
    (h : SpliceOk size xs.length copied ins) (point : Nat) (chunk : List α)
    (hmem : (point, chunk) ∈ ins) (k : Nat) (hk : k < size) :
    (spliceFrom xs copied ins)[shiftBy size (ins.map Prod.fst) point - size - copied + k]? =
      chunk[k]? := by
  induction ins generalizing copied with
  | nil => simp at hmem
  | cons e ins ih =>
    obtain ⟨point', chunk'⟩ := e
    have hpl : copied ≤ point' := h.lower _ List.mem_cons_self
    have hpu : point' ≤ xs.length := h.upper _ List.mem_cons_self
    have hch : chunk'.length = size := h.chunk _ List.mem_cons_self
    have htake : ((xs.drop copied).take (point' - copied)).length = point' - copied := by
      rw [List.length_take, List.length_drop]
      omega
    have hasc := (List.pairwise_cons.mp h.ascending).1
    rcases List.mem_cons.mp hmem with heq | hmem'
    · obtain ⟨rfl, rfl⟩ := Prod.mk.injEq .. ▸ heq
      have hcount : (((point, chunk) :: ins).map Prod.fst).countP (· ≤ point) = 1 := by
        rw [List.map_cons, List.countP_cons_of_pos (by simp),
          countP_eq_zero_of_lt hasc]
      unfold shiftBy
      rw [hcount, Nat.one_mul]
      simp only [spliceFrom]
      rw [List.append_assoc, List.getElem?_append_right (by rw [htake]; omega), htake,
        List.getElem?_append_left (by omega)]
      congr 1
      omega
    · have hlt : point' < point := hasc point (List.mem_map_of_mem hmem')
      have hpos : 1 ≤ (ins.map Prod.fst).countP (· ≤ point) := by
        apply List.countP_pos_iff.mpr
        exact ⟨point, List.mem_map_of_mem hmem', by simp⟩
      have hcount : (((point', chunk') :: ins).map Prod.fst).countP (· ≤ point) =
          (ins.map Prod.fst).countP (· ≤ point) + 1 := by
        rw [List.map_cons, List.countP_cons_of_pos]
        simpa using Nat.le_of_lt hlt
      have hmul : size ≤ (ins.map Prod.fst).countP (· ≤ point) * size :=
        Nat.le_mul_of_pos_left size hpos
      have hrec := ih point' h.tail hmem'
      unfold shiftBy at hrec ⊢
      rw [hcount, Nat.add_mul, Nat.one_mul]
      simp only [spliceFrom]
      rw [List.getElem?_append_right (by rw [List.length_append, htake, hch]; omega),
        List.length_append, htake, hch, ← hrec]
      congr 1
      omega

end Lib
