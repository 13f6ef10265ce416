import GdscriptCompiler.Lib.Rounds
import Mathlib.Data.Finset.Card
import Mathlib.Data.Finset.Range

/-!
# Marks — marking until nothing new is marked

What comes out is the least set that holds the first marks and what its own nodes push.
-/

namespace Lib

/-- What the nodes `0 … nodes - 1` push, given the marks so far; marks are below `size`. -/
structure Marking where
  size : Nat
  nodes : Nat
  pushes : Finset Nat → Nat → Finset Nat
  pushes_lt : ∀ marks i, ∀ x ∈ pushes marks i, x < size

namespace Marking

variable (P : Marking)

def visit (marks : Finset Nat) (i : Nat) : Finset Nat := marks ∪ P.pushes marks i

def sweep (marks : Finset Nat) : Finset Nat := (List.range P.nodes).foldl P.visit marks

def pass (marks : Finset Nat) : Option (Finset Nat) :=
  if P.sweep marks = marks then none else some (P.sweep marks)

def solve (seeds : Finset Nat) : Finset Nat := (rounds P.pass (P.size + 1) seeds).getD seeds

variable {P}

/-- Inside `S` the nodes push nothing that is outside. -/
def Closed (P : Marking) (S : Nat → Prop) : Prop :=
  ∀ marks : Finset Nat, (∀ x ∈ marks, S x) → ∀ i < P.nodes, ∀ x ∈ P.pushes marks i, S x

theorem subset_visit (marks : Finset Nat) (i : Nat) : marks ⊆ P.visit marks i :=
  Finset.subset_union_left

theorem subset_foldl (order : List Nat) (marks : Finset Nat) :
    marks ⊆ order.foldl P.visit marks := by
  induction order generalizing marks with
  | nil => exact Finset.Subset.refl marks
  | cons i order ih => exact (subset_visit marks i).trans (ih _)

variable {marks : Finset Nat} {S : Nat → Prop} {order : List Nat}

theorem foldl_inside (hclosed : P.Closed S) (horder : ∀ i ∈ order, i < P.nodes)
    (h : ∀ x ∈ marks, S x) :
    ∀ x ∈ order.foldl P.visit marks, S x := by
  induction order generalizing marks with
  | nil => exact h
  | cons i order ih =>
    refine ih (fun j hj => horder j (List.mem_cons_of_mem i hj)) fun x hx => ?_
    rcases Finset.mem_union.mp hx with hx | hx
    · exact h x hx
    · exact hclosed marks h i (horder i List.mem_cons_self) x hx

theorem pushes_subset_of_foldl (hstop : order.foldl P.visit marks ⊆ marks) {i : Nat}
    (hi : i ∈ order) :
    P.pushes marks i ⊆ marks := by
  induction order generalizing marks with
  | nil => cases hi
  | cons k order ih =>
    have hvisit : P.visit marks k ⊆ marks := (subset_foldl order _).trans hstop
    have hsame : P.visit marks k = marks := Finset.Subset.antisymm hvisit (subset_visit marks k)
    rcases List.mem_cons.mp hi with rfl | hi
    · exact Finset.subset_union_right.trans hvisit
    · rw [List.foldl_cons, hsame] at hstop
      exact ih hstop hi

theorem pass_eq_some {marks' : Finset Nat} (h : P.pass marks = some marks') :
    marks' = P.sweep marks ∧ P.sweep marks ≠ marks := by
  unfold pass at h
  split at h
  · cases h
  · rename_i hne
    exact ⟨(Option.some.inj h).symm, hne⟩

theorem pass_eq_none (h : P.pass marks = none) : P.sweep marks = marks := by
  unfold pass at h
  split at h
  · assumption
  · cases h

theorem sweep_lt (h : ∀ x ∈ marks, x < P.size) : ∀ x ∈ P.sweep marks, x < P.size :=
  foldl_inside (fun marks _ i _ x hx => P.pushes_lt marks i x hx) (fun _ hi => List.mem_range.mp hi) h

structure Between (P : Marking) (seeds marks : Finset Nat) : Prop where
  lt : ∀ x ∈ marks, x < P.size
  subset : seeds ⊆ marks
  least : ∀ S : Nat → Prop, P.Closed S → (∀ x ∈ seeds, S x) → ∀ x ∈ marks, S x

theorem Between.sweep {seeds : Finset Nat} (h : Between P seeds marks) :
    Between P seeds (P.sweep marks) where
  lt := sweep_lt h.lt
  subset := h.subset.trans (subset_foldl _ _)
  least S hclosed hseeds :=
    foldl_inside hclosed (fun _ hi => List.mem_range.mp hi) (h.least S hclosed hseeds)

theorem card_le_size (h : ∀ x ∈ marks, x < P.size) : marks.card ≤ P.size := by
  have hle := Finset.card_le_card fun x hx => Finset.mem_range.mpr (h x hx)
  rwa [Finset.card_range] at hle

variable {seeds : Finset Nat} (hseeds : ∀ x ∈ seeds, x < P.size)
include hseeds

theorem solve_spec : Between P seeds (P.solve seeds) ∧ P.sweep (P.solve seeds) = P.solve seeds := by
  -- every pass but the last marks something new
  have hstep : ∀ marks marks', Between P seeds marks → P.pass marks = some marks' →
      Between P seeds marks' ∧ P.size - marks'.card < P.size - marks.card := by
    intro marks marks' h hpass
    obtain ⟨rfl, hne⟩ := pass_eq_some hpass
    have hnext := h.sweep
    have hlt : marks.card < (P.sweep marks).card :=
      Finset.card_lt_card (Finset.ssubset_iff_subset_ne.mpr ⟨subset_foldl _ _, hne.symm⟩)
    have hle := card_le_size hnext.lt
    exact ⟨hnext, by omega⟩
  have hstart : Between P seeds seeds := ⟨hseeds, Finset.Subset.refl seeds, fun _ _ h => h⟩
  obtain ⟨marks, hmarks, hbetween, hstop⟩ :=
    exists_rounds_of_rank hstep (k := P.size + 1) hstart (by omega)
  rw [solve, hmarks, Option.getD_some]
  exact ⟨hbetween, pass_eq_none hstop⟩

theorem seeds_subset_solve : seeds ⊆ P.solve seeds := (solve_spec hseeds).1.subset

theorem pushes_solve {i : Nat} (hi : i < P.nodes) : P.pushes (P.solve seeds) i ⊆ P.solve seeds :=
  pushes_subset_of_foldl (Finset.subset_of_eq (solve_spec hseeds).2) (List.mem_range.mpr hi)

theorem solve_least (hclosed : P.Closed S) (hS : ∀ x ∈ seeds, S x) : ∀ x ∈ P.solve seeds, S x :=
  (solve_spec hseeds).1.least S hclosed hS

end Marking

end Lib
