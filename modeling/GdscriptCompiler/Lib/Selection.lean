import Mathlib.Algebra.Order.Ring.Int
import Mathlib.Data.List.Basic
import Mathlib.Data.List.Induction

/-! # Selection — keeping some places of a list -/

namespace Lib

variable {α : Type*} (keep : Nat → Bool)

def select (xs : List α) : List α := (xs.zipIdx.filter fun (_, k) => keep k).map Prod.fst

def placeOf (k : Nat) : Nat := (List.range k).countP keep

variable {keep}

theorem placeOf_succ (k : Nat) :
    placeOf keep (k + 1) = placeOf keep k + if keep k then 1 else 0 := by
  unfold placeOf
  rw [List.range_succ, List.countP_append, List.countP_singleton]

theorem placeOf_mono {j k : Nat} (h : j ≤ k) : placeOf keep j ≤ placeOf keep k := by
  induction h with
  | refl => exact Nat.le_refl _
  | @step m _ ih =>
    rw [placeOf_succ]
    omega

theorem placeOf_lt {j k : Nat} (hj : keep j = true) (h : j < k) :
    placeOf keep j < placeOf keep k := by
  have hmono : placeOf keep (j + 1) ≤ placeOf keep k := placeOf_mono h
  rw [placeOf_succ, hj, if_pos rfl] at hmono
  omega

theorem select_concat (xs : List α) (x : α) :
    select keep (xs ++ [x]) = select keep xs ++ if keep xs.length then [x] else [] := by
  unfold select
  rw [List.zipIdx_append, List.filter_append, List.map_append]
  congr 1
  cases hkeep : keep xs.length <;> simp [hkeep]

theorem length_select (xs : List α) : (select keep xs).length = placeOf keep xs.length := by
  induction xs using List.reverseRecOn with
  | nil => rfl
  | append_singleton xs x ih =>
    rw [select_concat, List.length_append, ih, List.length_append, List.length_singleton, placeOf_succ]
    split <;> rfl

theorem getElem?_select {xs : List α} {k : Nat} {x : α} (hkeep : keep k = true)
    (hx : xs[k]? = some x) :
    (select keep xs)[placeOf keep k]? = some x := by
  induction xs using List.reverseRecOn with
  | nil => cases hx
  | append_singleton xs y ih =>
    rw [select_concat]
    rcases Nat.lt_trichotomy k xs.length with hlt | heq | hgt
    · rw [List.getElem?_append_left hlt] at hx
      rw [List.getElem?_append_left]
      · exact ih hx
      · rw [length_select]
        exact placeOf_lt hkeep hlt
    · subst heq
      rw [List.getElem?_append_right (Nat.le_refl _), Nat.sub_self] at hx
      rw [List.getElem?_append_right (Nat.le_of_eq (length_select xs)), length_select, Nat.sub_self,
        hkeep, if_pos rfl]
      exact hx
    · rw [List.getElem?_eq_none (by simp; omega)] at hx
      cases hx

theorem exists_of_getElem?_select {xs : List α} {p : Nat} {x : α}
    (h : (select keep xs)[p]? = some x) :
    ∃ k, keep k = true ∧ xs[k]? = some x ∧ placeOf keep k = p := by
  induction xs using List.reverseRecOn with
  | nil => cases h
  | append_singleton xs y ih =>
    rw [select_concat] at h
    by_cases hp : p < (select keep xs).length
    · rw [List.getElem?_append_left hp] at h
      obtain ⟨k, hkeep, hk, hplace⟩ := ih h
      refine ⟨k, hkeep, ?_, hplace⟩
      rw [List.getElem?_append_left (List.getElem?_eq_some_iff.mp hk).1]
      exact hk
    · rw [List.getElem?_append_right (Nat.le_of_not_lt hp)] at h
      split at h
      · rename_i hkeep
        obtain ⟨hlt, rfl⟩ := List.getElem?_eq_some_iff.mp h
        rw [List.length_singleton] at hlt
        refine ⟨xs.length, hkeep, by simp, ?_⟩
        rw [length_select] at hlt hp
        omega
      · cases h

theorem select_sublist (xs : List α) : (select keep xs).Sublist xs := by
  unfold select
  conv_rhs => rw [← List.zipIdx_map_fst 0 xs]
  exact List.filter_sublist.map _

theorem select_all (xs : List α) : select (fun _ => true) xs = xs := by
  unfold select
  rw [List.filter_eq_self.mpr fun _ _ => rfl]
  exact List.zipIdx_map_fst 0 xs

theorem flatMap_select {β : Type*} (g : α → List β) (xs : List α) :
    (select keep xs).flatMap g =
      ((List.range xs.length).filter keep).flatMap fun k => (xs[k]?.map g).getD [] := by
  induction xs using List.reverseRecOn with
  | nil => rfl
  | append_singleton xs x ih =>
    have hsame : (((List.range xs.length).filter keep).flatMap fun k =>
        ((xs ++ [x])[k]?.map g).getD []) =
        ((List.range xs.length).filter keep).flatMap fun k => (xs[k]?.map g).getD [] := by
      refine List.flatMap_congr fun k hk => ?_
      rw [List.getElem?_append_left (List.mem_range.mp (List.mem_of_mem_filter hk))]
    rw [select_concat, List.flatMap_append, ih, List.length_append, List.length_singleton,
      List.range_succ, List.filter_append, List.flatMap_append, hsame]
    congr 1
    cases hkeep : keep xs.length <;> simp [hkeep]

end Lib
