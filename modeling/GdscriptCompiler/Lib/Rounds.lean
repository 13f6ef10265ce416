import Mathlib.Algebra.Order.Ring.Int
import Mathlib.Data.List.Basic
import Mathlib.Tactic.Common

/-! # Rounds — loops that run a step until it declines -/

namespace Lib

variable {α : Type*}

/-- The state the step first declines at, if that is within `k` tries. -/
def rounds (step : α → Option α) : (k : Nat) → α → Option α
  | 0, _ => none
  | k + 1, a =>
    match step a with
    | none => some a
    | some a' => rounds step k a'

def visited (step : α → Option α) : (k : Nat) → α → List α
  | 0, _ => []
  | k + 1, a =>
    a :: match step a with
      | none => []
      | some a' => visited step k a'

variable {k : Nat}

section Invariant

variable {step : α → Option α} {Inv : α → Prop} (hkeep : ∀ a a', Inv a → step a = some a' → Inv a')
include hkeep

theorem rounds_invariant {a c : α} (ha : Inv a) (h : rounds step k a = some c) :
    Inv c ∧ step c = none := by
  induction k generalizing a with
  | zero => cases h
  | succ k ih =>
    unfold rounds at h
    split at h
    · rename_i hs
      cases h
      exact ⟨ha, hs⟩
    · rename_i a' hs
      exact ih (hkeep a a' ha hs) h

theorem visited_invariant {a : α} (ha : Inv a) : ∀ c ∈ visited step k a, Inv c := by
  induction k generalizing a with
  | zero =>
    intro c hc
    cases hc
  | succ k ih =>
    intro c hc
    unfold visited at hc
    rcases List.mem_cons.mp hc with rfl | hc
    · exact ha
    · split at hc
      · cases hc
      · rename_i a' hs
        exact ih (hkeep a a' ha hs) c hc

end Invariant

/-- `Ranked a r` bounds by `r` how often `event` can still happen from `a` on. -/
structure Ranking (step : α → Option α) (event : α → Bool) (Ranked : α → Nat → Prop) : Prop where
  stop : ∀ a r, Ranked a r → step a = none → event a = true → 0 < r
  next : ∀ a a' r, Ranked a r → step a = some a' →
    ∃ r', Ranked a' r' ∧ r' + (if event a then 1 else 0) ≤ r

section Ranking

variable {step : α → Option α} {event : α → Bool} {Ranked : α → Nat → Prop}

theorem Ranking.countP_visited (h : Ranking step event Ranked) {a : α} {r : Nat} (hr : Ranked a r) :
    (visited step k a).countP event ≤ r := by
  induction k generalizing a r with
  | zero => exact Nat.zero_le _
  | succ k ih =>
    unfold visited
    rw [List.countP_cons]
    cases hs : step a with
    | none =>
      dsimp only
      rw [List.countP_nil]
      split
      · rename_i hev
        have := h.stop a r hr hs hev
        omega
      · omega
    | some a' =>
      obtain ⟨r', hr', hle⟩ := h.next a a' r hr hs
      have := ih hr'
      dsimp only
      omega

theorem length_visited (step : α → Option α) (k : Nat) (a : α) :
    (visited step k a).length ≤ (visited step k a).countP (fun c => (step c).isSome) + 1 := by
  induction k generalizing a with
  | zero => exact Nat.zero_le _
  | succ k ih =>
    unfold visited
    cases hs : step a with
    | none => simp
    | some a' =>
      have := ih a'
      simp only [List.length_cons, List.countP_cons, hs, Option.isSome_some, if_true]
      omega

theorem Ranking.rounds_isSome (h : Ranking step (fun c => (step c).isSome) Ranked) {a : α} {r : Nat}
    (hr : Ranked a r) (hk : r < k) :
    ∃ c, rounds step k a = some c := by
  induction k generalizing a r with
  | zero => omega
  | succ k ih =>
    unfold rounds
    cases hs : step a with
    | none => exact ⟨a, rfl⟩
    | some a' =>
      obtain ⟨r', hr', hle⟩ := h.next a a' r hr hs
      rw [hs, Option.isSome_some, if_pos rfl] at hle
      exact ih hr' (by omega)

end Ranking

/-- A loop whose steps keep an invariant and lower a rank ends, where the step declines. -/
theorem exists_rounds_of_rank {step : α → Option α} {Inv : α → Prop} {rank : α → Nat}
    (hstep : ∀ a a', Inv a → step a = some a' → Inv a' ∧ rank a' < rank a) {a : α} (ha : Inv a)
    (hk : rank a < k) :
    ∃ c, rounds step k a = some c ∧ Inv c ∧ step c = none := by
  have hranking : Ranking step (fun c => (step c).isSome) fun a r => Inv a ∧ rank a ≤ r := by
    constructor
    · intro a r _ hstop hev
      rw [hstop] at hev
      cases hev
    · intro a a' r hr hs
      have hnext := hstep a a' hr.1 hs
      refine ⟨rank a', ⟨hnext.1, Nat.le_refl _⟩, ?_⟩
      have := hr.2
      rw [hs, Option.isSome_some, if_pos rfl]
      omega
  obtain ⟨c, hc⟩ := hranking.rounds_isSome ⟨ha, Nat.le_refl _⟩ hk
  exact ⟨c, hc, rounds_invariant (fun a a' h hs => (hstep a a' h hs).1) ha hc⟩

end Lib
