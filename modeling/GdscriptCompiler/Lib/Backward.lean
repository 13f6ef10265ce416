import GdscriptCompiler.Lib.Rounds
import Mathlib.Data.Finset.Prod
import Mathlib.Data.Finset.Card
import Mathlib.Data.List.GetD

/-!
# Backward — what some path asks for before it is overwritten

A node asks for the facts it uses and, of those it does not kill, for the ones a successor asks for.
-/

namespace Lib

/-- A graph of nodes `0 … nodes - 1` and what each of them does to `facts` facts. -/
structure Backward where
  nodes : Nat
  facts : Nat
  succs : Nat → List Nat
  uses : Nat → Nat → Bool
  kills : Nat → Nat → Bool
  -- asked for behind the node by the end of the graph
  ends : Nat → Nat → Bool
  succs_lt : ∀ i, ∀ j ∈ succs i, j < nodes

abbrev Table := List (List Bool)

def Table.bit (t : Table) (i r : Nat) : Bool := (t.getD i []).getD r false

namespace Backward

variable (P : Backward)

/-! ## 1. The analysis -/

def out (t : Table) (i r : Nat) : Bool := P.ends i r || (P.succs i).any fun j => t.bit j r

def into (t : Table) (i r : Nat) : Bool := P.uses i r || (!P.kills i r && P.out t i r)

def row (t : Table) (i : Nat) : List Bool := (List.range P.facts).map (P.into t i)

def visit (t : Table) (i : Nat) : Table := t.set i (P.row t i)

/-- One pass over the nodes, the last one first. -/
def sweep (t : Table) : Table := (List.range P.nodes).reverse.foldl P.visit t

def pass (t : Table) : Option Table := if P.sweep t = t then none else some (P.sweep t)

def empty : Table := List.replicate P.nodes (List.replicate P.facts false)

def solve : Table := (rounds P.pass (P.nodes * P.facts + 1) P.empty).getD P.empty

/-! ## 2. What it is about -/

/-- Some path from node `i` asks for `r` before a node kills it. -/
inductive Asked : Nat → Nat → Prop
  | use {i r : Nat} (huse : P.uses i r = true) : Asked i r
  | ends {i r : Nat} (hkill : P.kills i r = false) (hend : P.ends i r = true) : Asked i r
  | step {i j r : Nat} (hkill : P.kills i r = false) (hj : j ∈ P.succs i) (h : Asked j r) : Asked i r

/-- The same of the paths that start behind node `i`. -/
def AskedAfter (i r : Nat) : Prop := P.ends i r = true ∨ ∃ j ∈ P.succs i, P.Asked j r

variable {P} {i r : Nat}

/-! ## 3. Tables -/

structure Sized (P : Backward) (t : Table) : Prop where
  length : t.length = P.nodes
  rows : ∀ row ∈ t, row.length = P.facts

def Below (t t' : Table) : Prop := ∀ i r, t.bit i r = true → t'.bit i r = true

variable {t t' : Table}

theorem Below.trans {t'' : Table} (h : Below t t') (h' : Below t' t'') : Below t t'' :=
  fun i r hbit => h' i r (h i r hbit)

theorem Below.antisymm (h : Below t t') (h' : Below t' t) (i r : Nat) : t.bit i r = t'.bit i r :=
  Bool.eq_iff_iff.mpr ⟨h i r, h' i r⟩

theorem Sized.row (h : Sized P t) (hi : i < P.nodes) : (t.getD i []).length = P.facts := by
  have hi' : i < t.length := h.length.symm ▸ hi
  rw [List.getD_eq_getElem t [] hi']
  exact h.rows _ (List.getElem_mem hi')

theorem Sized.bit_lt (h : Sized P t) (hbit : t.bit i r = true) : i < P.nodes ∧ r < P.facts := by
  by_cases hi : i < P.nodes
  · refine ⟨hi, ?_⟩
    by_contra hr
    have hlen := h.row hi
    rw [Table.bit, List.getD_eq_default _ _ (by omega)] at hbit
    cases hbit
  · rw [Table.bit, List.getD_eq_default t _ (by rw [h.length]; omega)] at hbit
    cases hbit

theorem Sized.ext (h : Sized P t) (h' : Sized P t') (hbits : ∀ i r, t.bit i r = t'.bit i r) :
    t = t' := by
  apply List.ext_getElem (h.length.trans h'.length.symm)
  intro i hi hi'
  have hrow := h.rows _ (List.getElem_mem hi)
  have hrow' := h'.rows _ (List.getElem_mem hi')
  apply List.ext_getElem (hrow.trans hrow'.symm)
  intro r hr hr'
  have hbit := hbits i r
  rw [Table.bit, Table.bit, List.getD_eq_getElem t [] hi, List.getD_eq_getElem t' [] hi',
    List.getD_eq_getElem _ false hr, List.getD_eq_getElem _ false hr'] at hbit
  exact hbit

theorem sized_empty : Sized P P.empty where
  length := List.length_replicate
  rows row hrow := by
    rw [List.eq_of_mem_replicate hrow]
    exact List.length_replicate

theorem bit_empty (i r : Nat) : P.empty.bit i r = false := by
  rw [Table.bit, empty]
  by_cases hi : i < P.nodes
  · rw [List.getD_replicate _ hi]
    by_cases hr : r < P.facts
    · rw [List.getD_replicate _ hr]
    · exact List.getD_eq_default _ _ (by rw [List.length_replicate]; omega)
  · rw [List.getD_eq_default (List.replicate _ _) _ (by rw [List.length_replicate]; omega)]
    rfl

/-! ## 4. One visit -/

theorem out_mono (h : Below t t') (hout : P.out t i r = true) : P.out t' i r = true := by
  rw [out, Bool.or_eq_true, List.any_eq_true] at hout ⊢
  exact hout.imp_right fun ⟨j, hj, hbit⟩ => ⟨j, hj, h j r hbit⟩

theorem into_mono (h : Below t t') (hinto : P.into t i r = true) : P.into t' i r = true := by
  rw [into, Bool.or_eq_true, Bool.and_eq_true] at hinto ⊢
  exact hinto.imp_right fun hout => ⟨hout.1, out_mono h hout.2⟩

theorem bit_visit (h : Sized P t) (hi : i < P.nodes) (j r : Nat) :
    (P.visit t i).bit j r = if j = i then decide (r < P.facts) && P.into t i r else t.bit j r := by
  have hi' : i < t.length := h.length.symm ▸ hi
  unfold Table.bit visit
  by_cases hj : j = i
  · subst hj
    rw [if_pos rfl, List.getD_eq_getElem _ [] (by rw [List.length_set]; exact hi'),
      List.getElem_set_self, row]
    by_cases hr : r < P.facts
    · rw [List.getD_eq_getElem _ false (by simpa using hr)]
      simp [hr]
    · rw [List.getD_eq_default _ _ (by simpa using hr)]
      simp [hr]
  · rw [if_neg hj]
    have hrow : (t.set i (P.row t i)).getD j [] = t.getD j [] := by
      rw [List.getD_eq_getElem?_getD, List.getElem?_set_ne (fun hij => hj hij.symm),
        List.getD_eq_getElem?_getD]
    rw [hrow]

/-- What every pass keeps: the table holds only what is asked for, and lies below its own image. -/
structure Grown (P : Backward) (t : Table) : Prop extends Sized P t where
  sound : ∀ i r, t.bit i r = true → P.Asked i r
  rising : ∀ i r, t.bit i r = true → P.into t i r = true

theorem Grown.asked (h : Grown P t) (hinto : P.into t i r = true) : P.Asked i r := by
  rw [into, Bool.or_eq_true, Bool.and_eq_true, Bool.not_eq_true', out, Bool.or_eq_true,
    List.any_eq_true] at hinto
  rcases hinto with huse | ⟨hkill, hend | ⟨j, hj, hbit⟩⟩
  · exact .use huse
  · exact .ends hkill hend
  · exact .step hkill hj (h.sound j r hbit)

theorem Grown.below_visit (h : Grown P t) (hi : i < P.nodes) : Below t (P.visit t i) := by
  intro j r hbit
  rw [bit_visit h.toSized hi]
  split
  · rename_i hj
    subst hj
    rw [Bool.and_eq_true, decide_eq_true_eq]
    exact ⟨(h.toSized.bit_lt hbit).2, h.rising j r hbit⟩
  · exact hbit

theorem Grown.visit (h : Grown P t) (hi : i < P.nodes) : Grown P (P.visit t i) where
  length := (List.length_set ..).trans h.length
  rows row hrow := by
    rcases List.mem_or_eq_of_mem_set hrow with hrow | rfl
    · exact h.rows row hrow
    · simp [Backward.row]
  sound j r hbit := by
    rw [bit_visit h.toSized hi] at hbit
    split at hbit
    · rename_i hj
      subst hj
      rw [Bool.and_eq_true] at hbit
      exact h.asked hbit.2
    · exact h.sound j r hbit
  rising j r hbit := by
    apply into_mono (h.below_visit hi)
    rw [bit_visit h.toSized hi] at hbit
    split at hbit
    · rename_i hj
      subst hj
      rw [Bool.and_eq_true] at hbit
      exact hbit.2
    · exact h.rising j r hbit

/-! ## 5. One pass -/

variable {order : List Nat}

theorem Grown.foldl_visit (h : Grown P t) (hlt : ∀ i ∈ order, i < P.nodes) :
    Grown P (order.foldl P.visit t) ∧ Below t (order.foldl P.visit t) := by
  induction order generalizing t with
  | nil => exact ⟨h, fun _ _ hbit => hbit⟩
  | cons i order ih =>
    have hi := hlt i List.mem_cons_self
    have hrest := ih (h.visit hi) fun j hj => hlt j (List.mem_cons_of_mem i hj)
    exact ⟨hrest.1, (h.below_visit hi).trans hrest.2⟩

theorem Grown.stable_of_foldl (h : Grown P t) (hlt : ∀ i ∈ order, i < P.nodes)
    (hback : Below (order.foldl P.visit t) t) (hi : i ∈ order) (hr : r < P.facts)
    (hinto : P.into t i r = true) :
    t.bit i r = true := by
  induction order generalizing t with
  | nil => cases hi
  | cons k order ih =>
    have hk := hlt k List.mem_cons_self
    have hrest : ∀ j ∈ order, j < P.nodes := fun j hj => hlt j (List.mem_cons_of_mem k hj)
    have hvisit := h.below_visit hk
    have hthen := ((h.visit hk).foldl_visit hrest).2
    have hsame : Below (P.visit t k) t := hthen.trans hback
    rcases List.mem_cons.mp hi with rfl | hi
    · apply hsame
      rw [bit_visit h.toSized hk, if_pos rfl, Bool.and_eq_true, decide_eq_true_eq]
      exact ⟨hr, hinto⟩
    · exact hsame i r (ih (h.visit hk) hrest (hback.trans hvisit) hi (into_mono hvisit hinto))

theorem mem_order : i ∈ (List.range P.nodes).reverse ↔ i < P.nodes := by
  rw [List.mem_reverse, List.mem_range]

theorem Grown.sweep (h : Grown P t) : Grown P (P.sweep t) ∧ Below t (P.sweep t) :=
  h.foldl_visit fun _ hi => mem_order.mp hi

theorem Grown.complete (h : Grown P t) (hstop : P.sweep t = t) (hi : i < P.nodes) (hr : r < P.facts)
    (hasked : P.Asked i r) :
    t.bit i r = true := by
  have hstable : ∀ i, i < P.nodes → P.into t i r = true → t.bit i r = true := by
    intro i hi hinto
    refine h.stable_of_foldl (fun _ hj => mem_order.mp hj) ?_ (mem_order.mpr hi) hr hinto
    intro j r' hbit
    rwa [show (List.range P.nodes).reverse.foldl P.visit t = t from hstop] at hbit
  induction hasked with
  | use huse => exact hstable _ hi (by rw [into, huse, Bool.true_or])
  | ends hkill hend => exact hstable _ hi (by rw [into, hkill, out, hend]; simp)
  | @step i j r hkill hj _ ih =>
    have hbit := ih (P.succs_lt i j hj) hr hstable
    refine hstable i hi ?_
    rw [into, Bool.or_eq_true, Bool.and_eq_true, hkill, out, Bool.or_eq_true, List.any_eq_true]
    exact .inr ⟨rfl, .inr ⟨j, hj, hbit⟩⟩

/-! ## 6. All passes -/

def Table.trues (P : Backward) (t : Table) : Finset (Nat × Nat) :=
  (Finset.range P.nodes ×ˢ Finset.range P.facts).filter fun p => t.bit p.1 p.2 = true

theorem mem_trues (h : Sized P t) : (i, r) ∈ Table.trues P t ↔ t.bit i r = true := by
  rw [Table.trues, Finset.mem_filter, Finset.mem_product, Finset.mem_range, Finset.mem_range]
  exact ⟨fun hmem => hmem.2, fun hbit => ⟨h.bit_lt hbit, hbit⟩⟩

theorem card_trues_le (t : Table) : (Table.trues P t).card ≤ P.nodes * P.facts := by
  refine (Finset.card_filter_le _ _).trans ?_
  rw [Finset.card_product, Finset.card_range, Finset.card_range]

theorem card_trues_lt (h : Sized P t) (h' : Sized P t') (hle : Below t t') (hne : t' ≠ t) :
    (Table.trues P t).card < (Table.trues P t').card := by
  apply Finset.card_lt_card
  refine ⟨fun p hp => (mem_trues h').mpr (hle p.1 p.2 ((mem_trues h).mp hp)), fun hback => hne ?_⟩
  refine (h.ext h' fun i r => hle.antisymm ?_ i r).symm
  intro i r hbit
  exact (mem_trues h).mp (hback ((mem_trues h').mpr hbit))

theorem pass_some (h : P.pass t = some t') : t' = P.sweep t ∧ P.sweep t ≠ t := by
  rw [pass] at h
  split at h
  · cases h
  · rename_i hne
    exact ⟨(Option.some.inj h).symm, hne⟩

theorem pass_none (h : P.pass t = none) : P.sweep t = t := by
  rw [pass] at h
  split at h
  · assumption
  · cases h

theorem grown_empty : Grown P P.empty where
  toSized := sized_empty
  sound i r hbit := by
    rw [bit_empty] at hbit
    cases hbit
  rising i r hbit := by
    rw [bit_empty] at hbit
    cases hbit

theorem solve_spec (P : Backward) : Grown P P.solve ∧ P.sweep P.solve = P.solve := by
  -- every pass that changes the table sets a bit
  have hstep : ∀ t t', Grown P t → P.pass t = some t' →
      Grown P t' ∧ P.nodes * P.facts - (Table.trues P t').card < P.nodes * P.facts -
        (Table.trues P t).card := by
    intro t t' h hpass
    obtain ⟨rfl, hne⟩ := pass_some hpass
    have hsweep := h.sweep
    have hlt := card_trues_lt h.toSized hsweep.1.toSized hsweep.2 hne
    have hle := card_trues_le (P := P) (P.sweep t)
    exact ⟨hsweep.1, by omega⟩
  obtain ⟨t, ht, hgrown, hstop⟩ :=
    exists_rounds_of_rank hstep (k := P.nodes * P.facts + 1) grown_empty (by omega)
  rw [solve, ht, Option.getD_some]
  exact ⟨hgrown, pass_none hstop⟩

theorem bit_solve (hi : i < P.nodes) (hr : r < P.facts) : P.solve.bit i r = true ↔ P.Asked i r :=
  ⟨(solve_spec P).1.sound i r, (solve_spec P).1.complete (solve_spec P).2 hi hr⟩

theorem out_solve (hr : r < P.facts) : P.out P.solve i r = true ↔ P.AskedAfter i r := by
  rw [out, Bool.or_eq_true, List.any_eq_true]
  exact or_congr_right (exists_congr fun j => and_congr_right fun hj => bit_solve (P.succs_lt i j hj) hr)

end Backward

end Lib
