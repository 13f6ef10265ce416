import Mathlib.Algebra.Order.Ring.Int

/-!
# Allocation — computations that take new addresses

The state is the next address; nothing is given back.
-/

namespace Lib

variable {α β : Type}

/-- Started with the next address at `b` or above, the computation leaves it there, with a result
that has the property. -/
def Above (b : Nat) (m : StateM Nat α) (post : α → Prop) : Prop :=
  ∀ next, b ≤ next → b ≤ (m next).2 ∧ post (m next).1

variable {b : Nat} {m : StateM Nat α} {f : α → StateM Nat β} {P : α → Prop} {Q : β → Prop}

theorem Above.pure {a : α} (h : P a) : Above b (pure a) P := fun _ hnext => ⟨hnext, h⟩

theorem Above.bind (hm : Above b m P) (hf : ∀ a, P a → Above b (f a) Q) : Above b (m >>= f) Q := by
  intro next hnext
  obtain ⟨hlater, hresult⟩ := hm next hnext
  exact hf _ hresult _ hlater

end Lib
