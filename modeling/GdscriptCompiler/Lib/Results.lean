import GdscriptCompiler.Lib.Checks

/-!
# Results — computations that may fail

Taking apart a chain of steps of which each may fail with an error.
-/

namespace Lib

variable {ε ε' α β : Type}

theorem map_eq_ok {x : Except ε α} {f : α → β} {b : β} :
    x.map f = .ok b ↔ ∃ a, x = .ok a ∧ f a = b := by
  cases x <;> simp [Except.map]

theorem foldlM_keeps {σ γ : Type} {step : σ → β → Except ε σ} (view : σ → γ)
    (hstep : ∀ s s' x, step s x = .ok s' → view s' = view s) {xs : List β} {s s' : σ}
    (h : xs.foldlM step s = .ok s') :
    view s' = view s := by
  induction xs generalizing s with
  | nil =>
    cases h
    rfl
  | cons x xs ih =>
    rw [List.foldlM_cons] at h
    obtain ⟨mid, hmid, h⟩ := bind_eq_ok.mp h
    exact (ih h).trans (hstep s mid x hmid)

theorem ok_of_mapError {x : Except ε α} {f : ε → ε'} {a : α} (h : x.mapError f = .ok a) :
    x = .ok a := by
  cases x with
  | error e => cases h
  | ok b => cases h; rfl

end Lib
