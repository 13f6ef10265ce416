import Mathlib.Algebra.Order.Ring.Int
import Mathlib.Data.List.Basic
import Mathlib.Tactic.Common

/-! # Checks — loops of checks in `Except` -/

namespace Lib

variable {ε α β σ : Type}

theorem bind_eq_ok {x : Except ε α} {f : α → Except ε β} {b : β} :
    (x >>= f) = .ok b ↔ ∃ a, x = .ok a ∧ f a = .ok b := by
  cases x with
  | error e =>
    constructor
    · intro h
      cases h
    · rintro ⟨a, ha, -⟩
      cases ha
  | ok a =>
    constructor
    · exact fun h => ⟨a, rfl, h⟩
    · rintro ⟨a', ha', h⟩
      cases ha'
      exact h

-- The form a check in front of another one takes.
theorem seq_eq_ok {x : Except ε Unit} {y : Except ε β} {b : β} :
    (x >>= fun _ => y) = .ok b ↔ x = .ok () ∧ y = .ok b := by
  rw [bind_eq_ok]
  constructor
  · rintro ⟨⟨⟩, hx, hy⟩
    exact ⟨hx, hy⟩
  · exact fun h => ⟨⟨⟩, h.1, h.2⟩

theorem mapError_eq_ok {ε' : Type} {g : ε → ε'} {x : Except ε α} {a : α} :
    x.mapError g = .ok a ↔ x = .ok a := by
  cases x with
  | error e =>
    constructor
    · intro h
      cases h
    · intro h
      cases h
  | ok b =>
    change Except.ok b = Except.ok a ↔ _
    rw [Except.ok.injEq, Except.ok.injEq]

theorem forM_eq_ok {l : List α} {check : α → Except ε Unit} :
    l.forM check = .ok ⟨⟩ ↔ ∀ a ∈ l, check a = .ok ⟨⟩ := by
  induction l with
  | nil =>
    constructor
    · intro _ a ha
      cases ha
    · exact fun _ => rfl
  | cons a l ih =>
    change (check a >>= fun _ => l.forM check) = _ ↔ _
    rw [seq_eq_ok, ih, List.forall_mem_cons]

theorem forall₂_of_mapM {g : α → Except ε β} {l : List α} {l' : List β} (h : l.mapM g = .ok l') :
    List.Forall₂ (fun a b => g a = .ok b) l l' := by
  induction l generalizing l' with
  | nil =>
    cases h
    exact .nil
  | cons a l ih =>
    rw [List.mapM_cons] at h
    obtain ⟨b, hb, h⟩ := bind_eq_ok.mp h
    obtain ⟨bs, hbs, h⟩ := bind_eq_ok.mp h
    cases h
    exact .cons hb (ih hbs)

theorem foldlM_check_of_ok {l : List α} (check : σ → α → Except ε Unit) (next : σ → α → σ) {s t : σ}
    (h : l.foldlM (fun s a => do check s a; return next s a) s = .ok t) :
    ∀ before a after, l = before ++ a :: after → check (before.foldl next s) a = .ok ⟨⟩ := by
  induction l generalizing s with
  | nil =>
    intro before a after hl
    cases before <;> cases hl
  | cons x l ih =>
    intro before a after hl
    rw [List.foldlM_cons] at h
    obtain ⟨s', hs', hrest⟩ := bind_eq_ok.mp h
    obtain ⟨hcheck, hnext⟩ := seq_eq_ok.mp hs'
    have hnext : next s x = s' := Except.ok.inj hnext
    cases before with
    | nil =>
      cases hl
      exact hcheck
    | cons y before =>
      cases hl
      rw [List.foldl_cons, hnext]
      exact ih hrest before a after rfl

end Lib
