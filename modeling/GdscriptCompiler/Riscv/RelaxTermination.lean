import GdscriptCompiler.Riscv.Emission
import Mathlib.Algebra.Order.BigOperators.Group.List
import Mathlib.Algebra.GroupWithZero.Action.Defs
import Mathlib.Algebra.Order.Ring.Nat
import Mathlib.Data.List.Basic
import Mathlib.Tactic.Common

/-!
# RelaxTermination — the loop of `relax_branches` ends

The weights of the forms rank the rounds, and one use's weight ranks the rounds that rewrite it.
-/

namespace Riscv

open Lib

/-- How often a use in this form can still be relaxed. -/
def formWeight (instr : Word) : UseForm → Nat
  | .kept => if opcodeOf instr = opBranch then 2 else if opcodeOf instr = opJal then 1 else 0
  | .near => 1
  | .far => 0

theorem CanRelax.weight_next {instr : Word} {form : UseForm} (h : CanRelax instr form) :
    formWeight instr (formNext instr form) + 1 = formWeight instr form := by
  cases form with
  | kept =>
    rcases h with ⟨hb, -⟩ | ⟨hj, -⟩
    · simp [formNext, formWeight, hb]
    · have hne : opJal ≠ opBranch := by decide
      simp [formNext, formWeight, hj, hne]
  | near => rfl
  | far =>
    rcases h with ⟨-, hf⟩ | ⟨-, hf⟩
    · exact absurd rfl hf
    · cases hf

theorem formWeight_le (instr : Word) (form : UseForm) : formWeight instr form ≤ 2 := by
  cases form with
  | kept =>
    change (if opcodeOf instr = opBranch then 2 else if opcodeOf instr = opJal then 1 else 0) ≤ 2
    split
    · exact Nat.le_refl _
    · split <;> omega
  | near => exact Nat.le_succ 1
  | far => exact Nat.zero_le 2

def totalWeight (b₀ : CodeBuffer) (form : Nat → UseForm) : Nat :=
  ((List.range b₀.labelUses.length).map fun i => formWeight (b₀.useWord i) (form i)).sum

def CodeBuffer.rescales (b : CodeBuffer) (table : DenseJumpTable) : Bool :=
  b.marked.any fun i => table.firstUse ≤ i && i < table.firstUse + table.count

theorem totalWeight_le (b₀ : CodeBuffer) (form : Nat → UseForm) :
    totalWeight b₀ form ≤ 2 * b₀.labelUses.length := by
  have h := List.sum_le_card_nsmul
    ((List.range b₀.labelUses.length).map fun i => formWeight (b₀.useWord i) (form i)) 2 ?_
  · rw [List.length_map, List.length_range, smul_eq_mul, Nat.mul_comm] at h
    exact h
  · intro x hx
    obtain ⟨i, -, rfl⟩ := List.mem_map.mp hx
    exact formWeight_le _ _

section Ranks

variable {b₀ : CodeBuffer}

/-- The loop's invariant, the map and the forms left open. -/
def Reached (b₀ b : CodeBuffer) : Prop := ∃ φ form, Relaxing b₀ b φ form

variable {form : Nat → UseForm} {b : CodeBuffer} {φ : Nat → Nat}

theorem Relaxing.relaxRound_cases (h : Relaxing b₀ b φ form) (he : Emitted b₀) :
    (b.marked = [] ∧ relaxRound b = none) ∨ ∃ b', b.marked ≠ [] ∧ relaxRound b = some b' ∧
      Relaxing b₀ b' (roundShift b.widened b.marked ∘ φ) (nextForm b₀ b form) := by
  rcases Riscv.relaxRound_cases b (h.tablesApart he) (h.usesApart he) with hnone | ⟨b', hm, hs, hr⟩
  · exact Or.inl hnone
  · exact Or.inr ⟨b', hm, hs, h.next he hr⟩

theorem reached_next (he : Emitted b₀) (b b' : CodeBuffer) (h : Reached b₀ b)
    (hs : relaxRound b = some b') :
    Reached b₀ b' := by
  obtain ⟨φ, form, hrel⟩ := h
  rcases hrel.relaxRound_cases he with ⟨-, hnone⟩ | ⟨c, -, hs', hc⟩
  · rw [hs] at hnone
    cases hnone
  · rw [hs, Option.some.injEq] at hs'
    exact ⟨_, _, hs' ▸ hc⟩

theorem nextForm_weight (h : Relaxing b₀ b φ form) (he : Emitted b₀) (i : Nat) :
    formWeight (b₀.useWord i) (nextForm b₀ b form i) + (if i ∈ b.marked then 1 else 0) =
      formWeight (b₀.useWord i) (form i) := by
  unfold nextForm
  by_cases hm : i ∈ b.marked
  · rw [if_pos hm, if_pos hm]
    exact (h.marked_canRelax he hm).2.weight_next
  · rw [if_neg hm, if_neg hm, Nat.add_zero]

theorem ranking_use (he : Emitted b₀) (i : Nat) :
    Ranking relaxRound (fun c => decide (i ∈ c.marked)) fun b r =>
      ∃ φ form, Relaxing b₀ b φ form ∧ r = formWeight (b₀.useWord i) (form i) where
  stop := fun b r hr hs hev => by
    obtain ⟨φ, form, h, rfl⟩ := hr
    have hm : i ∈ b.marked := of_decide_eq_true hev
    have := (h.marked_canRelax he hm).2.weight_next
    omega
  next := fun b b' r hr hs => by
    obtain ⟨φ, form, h, rfl⟩ := hr
    rcases h.relaxRound_cases he with ⟨-, hnone⟩ | ⟨c, -, hs', hc⟩
    · rw [hs] at hnone
      cases hnone
    · rw [hs, Option.some.injEq] at hs'
      refine ⟨_, ⟨_, _, hs' ▸ hc, rfl⟩, ?_⟩
      rw [if_congr decide_eq_true_iff rfl rfl]
      exact Nat.le_of_eq (nextForm_weight h he i)

theorem ranking_rounds (he : Emitted b₀) :
    Ranking relaxRound (fun c => (relaxRound c).isSome) fun b r =>
      ∃ φ form, Relaxing b₀ b φ form ∧ r = totalWeight b₀ form where
  stop := fun b r _ hs hev => by
    rw [hs] at hev
    cases hev
  next := fun b b' r hr hs => by
    obtain ⟨φ, form, h, rfl⟩ := hr
    rcases h.relaxRound_cases he with ⟨-, hnone⟩ | ⟨c, hm, hs', hc⟩
    · rw [hs] at hnone
      cases hnone
    · rw [hs, Option.some.injEq] at hs'
      refine ⟨_, ⟨_, _, hs' ▸ hc, rfl⟩, ?_⟩
      rw [hs, Option.isSome_some, if_pos rfl]
      obtain ⟨k, hk⟩ := List.exists_mem_of_ne_nil _ hm
      have hw := nextForm_weight h he k
      rw [if_pos hk] at hw
      apply Nat.succ_le_of_lt
      unfold totalWeight
      apply List.sum_lt_sum
      · intro i _
        have := nextForm_weight h he i
        omega
      · exact ⟨k, List.mem_range.mpr (h.marked_canRelax he hk).1, by omega⟩

variable {t : DenseJumpTable}

theorem rescales_iff (h : Relaxing b₀ b φ form) (he : Emitted b₀) (ht : t ∈ b₀.denseJumpTables) :
    b.rescales t = true ↔ b.Overflows t := by
  unfold CodeBuffer.rescales
  rw [List.any_eq_true]
  constructor
  · rintro ⟨i, hi, hh⟩
    rw [Bool.and_eq_true, decide_eq_true_iff, decide_eq_true_iff] at hh
    exact (h.marked_iff_overflows he ht hh).mp hi
  · intro ho
    obtain ⟨k, hk, -⟩ := id ho
    refine ⟨k, (h.marked_iff_overflows he ht hk).mpr ho, ?_⟩
    rw [Bool.and_eq_true, decide_eq_true_iff, decide_eq_true_iff]
    exact hk

theorem ranking_table (he : Emitted b₀) (ht : t ∈ b₀.denseJumpTables) :
    Ranking relaxRound (fun c => c.rescales t) fun b r =>
      ∃ φ form, Relaxing b₀ b φ form ∧ r = if form t.firstUse = .kept then 1 else 0 where
  stop := fun b r hr _ hev => by
    obtain ⟨φ, form, h, rfl⟩ := hr
    rw [rescales_iff h he ht] at hev
    rw [if_pos (h.overflows_kept he ht hev).2]
    omega
  next := fun b b' r hr hs => by
    obtain ⟨φ, form, h, rfl⟩ := hr
    rcases h.relaxRound_cases he with ⟨-, hnone⟩ | ⟨c, -, hs', hc⟩
    · rw [hs] at hnone
      cases hnone
    · rw [hs, Option.some.injEq] at hs'
      refine ⟨_, ⟨_, _, hs' ▸ hc, rfl⟩, ?_⟩
      by_cases hev : b.rescales t = true
      · have ho := (rescales_iff h he ht).mp hev
        obtain ⟨hcount, hkept⟩ := h.overflows_kept he ht ho
        have hwide := (h.next_wide_iff he ht hcount).mpr (Or.inr ho)
        rw [if_neg hwide, if_pos hev, if_pos hkept]
      · rw [if_neg hev, Nat.add_zero]
        by_cases hkept : form t.firstUse = .kept
        · rw [if_pos hkept]
          split <;> omega
        · rw [if_neg hkept, if_neg (nextForm_ne_kept hkept)]

end Ranks

section Stop

variable {b₀ b : CodeBuffer} {φ : Nat → Nat} {form : Nat → UseForm}

theorem Relaxing.use_inside (h : Relaxing b₀ b φ form) (he : Emitted b₀) {j : Nat} {use : LabelUse}
    (hu : b.labelUses[j]? = some use) :
    use.codeOffset + 4 ≤ b.code.length := by
  by_cases hj : j < b₀.labelUses.length
  · have hmono := h.mono.monotone (he.inside j hj)
    have hslot := formSlot_lt (b₀.useWord j) (form j)
    rw [h.useGap j hj] at hmono
    rw [h.length, ← useOffset_of_get hu, h.useOffset_eq hj]
    omega
  · obtain ⟨i, hi, -, -, hoff, -⟩ := h.skips j use (by omega) hu
    have hmono := h.mono.monotone (he.inside i hi)
    have hslot := formSlot_lt (b₀.useWord i) (form i)
    rw [h.useGap i hi] at hmono
    rw [h.length, hoff]
    omega

theorem fits_of_not_outOfReach {use : LabelUse} {target : Nat} (hout : outOfReach b use = false)
    (hin : use.codeOffset + 4 ≤ b.code.length) (ht : b.labelOffset use.label = some target) :
    (opcodeOf (loadWord b.code use.codeOffset) = opBranch →
        fitsInSigned ((target : Int) - use.codeOffset + use.addend) bTypeImmBits = true) ∧
      (opcodeOf (loadWord b.code use.codeOffset) = opJal →
        fitsInSigned ((target : Int) - use.codeOffset + use.addend) jTypeImmBits = true) := by
  have hj : opJal ≠ opBranch := by decide
  unfold outOfReach at hout
  rw [if_neg (by omega), ht] at hout
  dsimp only at hout
  constructor
  · intro hop
    rw [hop, if_neg (fun hc => hc.1 rfl), if_pos rfl] at hout
    simpa using hout
  · intro hop
    rw [hop, if_neg (fun hc => hc.2 rfl), if_neg hj] at hout
    simpa using hout

theorem Relaxing.reach_of_stop (h : Relaxing b₀ b φ form) (he : Emitted b₀)
    (hs : relaxRound b = none) :
    ∀ use ∈ b.labelUses, outOfReach b use = false := by
  have hnil : b.marked = [] := by
    rcases h.relaxRound_cases he with ⟨hm, -⟩ | ⟨c, -, hs', -⟩
    · exact hm
    · rw [hs] at hs'
      cases hs'
  intro use hmem
  obtain ⟨j, hu⟩ := List.mem_iff_getElem?.mp hmem
  cases hout : outOfReach b use with
  | false => rfl
  | true =>
    have hj : j ∈ b.marked := ((h.tablesApart he).mem_marked j).mpr (Or.inl ⟨use, hu, hout⟩)
    rw [hnil] at hj
    cases hj

end Stop

/-- `b'` is what `relax_branches` makes of `b`, within two rounds per use and one to see that
nothing is left. -/
structure RelaxEnds (b b' : CodeBuffer) : Prop where
  result : relaxBranches (2 * b.labelUses.length + 1) b = some b'
  rounds : ∀ k, (visited relaxRound k b).length ≤ 2 * b.labelUses.length + 1
  rewritten : ∀ k i, (visited relaxRound k b).countP (fun c => decide (i ∈ c.marked)) ≤ 2
  rescaled : ∀ k, ∀ t ∈ b.denseJumpTables, (visited relaxRound k b).countP (fun c => c.rescales t) ≤ 1
  -- the skip branches of the rounds so far
  skips : ∀ k, ∀ c ∈ visited relaxRound k b, ∀ (j : Nat) (skip : LabelUse), b.labelUses.length ≤ j →
    c.labelUses[j]? = some skip → outOfReach c skip = false
  fits : ∀ use ∈ b'.labelUses, ∀ target, b'.labelOffset use.label = some target →
    (opcodeOf (loadWord b'.code use.codeOffset) = opBranch →
        fitsInSigned ((target : Int) - use.codeOffset + use.addend) bTypeImmBits = true) ∧
      (opcodeOf (loadWord b'.code use.codeOffset) = opJal →
        fitsInSigned ((target : Int) - use.codeOffset + use.addend) jTypeImmBits = true)

theorem Emitted.relaxEnds (he : Emitted b) : ∃ b', RelaxEnds b b' := by
  have hstart := Relaxing.start b
  have htotal := totalWeight_le b fun _ => .kept
  obtain ⟨b', hb'⟩ := (ranking_rounds he).rounds_isSome ⟨_, _, hstart, rfl⟩
    (Nat.lt_succ_of_le htotal)
  obtain ⟨⟨φ, form, hrel⟩, hstop⟩ := rounds_invariant (reached_next he) ⟨_, _, hstart⟩ hb'
  refine ⟨b', hb', ?_, ?_, ?_, ?_, ?_⟩
  · intro k
    have hcount := (ranking_rounds he).countP_visited (k := k) ⟨_, _, hstart, rfl⟩
    have := length_visited relaxRound k b
    omega
  · intro k i
    exact Nat.le_trans ((ranking_use he i).countP_visited ⟨_, _, hstart, rfl⟩) (formWeight_le _ _)
  · intro k t ht
    exact (ranking_table he ht).countP_visited ⟨_, _, hstart, rfl⟩
  · intro k c hc j skip hj hu
    obtain ⟨ψ, form', hc'⟩ := visited_invariant (reached_next he) ⟨_, _, hstart⟩ c hc
    cases hout : outOfReach c skip with
    | false => rfl
    | true => exact absurd ⟨skip, hu, hout⟩ (hc'.skip_reaches hj)
  · intro use hmem target ht
    obtain ⟨j, hu⟩ := List.mem_iff_getElem?.mp hmem
    exact fits_of_not_outOfReach (hrel.reach_of_stop he hstop use hmem) (hrel.use_inside he hu) ht

/-- Whatever `generate` emits, `relax_branches` ends. -/
theorem relaxBranches_terminates (strings : Ir.StringTable) (emissions : List Emission) :
    ∃ b', RelaxEnds (.generated strings emissions) b' :=
  (generated_laid strings emissions).emitted.relaxEnds

end Riscv
