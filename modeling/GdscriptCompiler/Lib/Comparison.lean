import Mathlib.Algebra.Order.Ring.Int
import Mathlib.Order.Defs.LinearOrder
import Mathlib.Order.Basic

/-!
# Comparison — value domains in which a pair may be unordered

Negating a strict comparison gives the reversed weak one on the ordered pairs and on no others.
-/

namespace Lib

/-- The word a comparison leaves. -/
def flag (b : Bool) : BitVec 64 := if b then 1 else 0

@[simp] theorem flag_xor_one (b : Bool) : flag b ^^^ 1#64 = flag !b := by
  cases b <;> rfl

theorem flag_not (b : Bool) : flag b ^^^ 1 = flag !b := flag_xor_one b

@[simp] theorem flag_byte (b : Bool) : ((flag b).setWidth 8).setWidth 64 = flag b := by
  cases b <;> rfl

@[simp] theorem flag_eq_zero (b : Bool) : flag b = 0#64 ↔ b = false := by
  cases b <;> decide

structure Comparison (α : Type) where
  eq : α → α → Bool
  lt : α → α → Bool
  le : α → α → Bool

namespace Comparison

variable {α : Type}

structure Lawful (C : Comparison α) : Prop where
  le_eq : ∀ a b, C.le a b = (C.lt a b || C.eq a b)
  eq_symm : ∀ a b, C.eq a b = C.eq b a
  lt_asymm : ∀ a b, C.lt a b = true → C.lt b a = false
  lt_ne : ∀ a b, C.lt a b = true → C.eq a b = false

def Ordered (C : Comparison α) (a b : α) : Prop :=
  C.lt a b = true ∨ C.eq a b = true ∨ C.lt b a = true

instance (C : Comparison α) (a b : α) : Decidable (C.Ordered a b) :=
  inferInstanceAs (Decidable (_ ∨ _ ∨ _))

theorem ordered_symm {C : Comparison α} (h : C.Lawful) (a b : α) :
    C.Ordered a b ↔ C.Ordered b a := by
  unfold Ordered
  rw [h.eq_symm b a]
  constructor <;> rintro (hlt | heq | hgt) <;> simp [*]

theorem le_eq_not_lt_iff {C : Comparison α} (h : C.Lawful) (a b : α) :
    C.le b a = (!C.lt a b) ↔ C.Ordered a b := by
  rw [h.le_eq, h.eq_symm b a]
  unfold Ordered
  cases hlt : C.lt a b with
  | true => simp [h.lt_asymm a b hlt, h.lt_ne a b hlt]
  | false => simp [or_comm]

theorem lt_eq_not_le_iff {C : Comparison α} (h : C.Lawful) (a b : α) :
    C.lt b a = (!C.le a b) ↔ C.Ordered a b := by
  rw [ordered_symm h, ← le_eq_not_lt_iff h]
  cases C.lt b a <;> cases C.le a b <;> decide

def ofLinearOrder (α : Type) [LinearOrder α] : Comparison α where
  eq a b := a = b
  lt a b := a < b
  le a b := a ≤ b

theorem ofLinearOrder_lawful (α : Type) [LinearOrder α] : (ofLinearOrder α).Lawful where
  le_eq a b := by simp [ofLinearOrder, le_iff_lt_or_eq]
  eq_symm a b := by simp [ofLinearOrder, eq_comm]
  lt_asymm a b := by simpa [ofLinearOrder] using le_of_lt
  lt_ne a b := by simpa [ofLinearOrder] using ne_of_lt

/-- A domain with one more element, ordered with nothing, not even itself. -/
def withUnordered (C : Comparison α) : Comparison (Option α) where
  eq
    | some a, some b => C.eq a b
    | _, _ => false
  lt
    | some a, some b => C.lt a b
    | _, _ => false
  le
    | some a, some b => C.le a b
    | _, _ => false

theorem withUnordered_lawful {C : Comparison α} (h : C.Lawful) : C.withUnordered.Lawful where
  le_eq
    | some a, some b => h.le_eq a b
    | some _, none => rfl
    | none, _ => rfl
  eq_symm
    | some a, some b => h.eq_symm a b
    | some _, none => rfl
    | none, some _ => rfl
    | none, none => rfl
  lt_asymm
    | some a, some b => h.lt_asymm a b
    | some _, none => fun hlt => by cases hlt
    | none, _ => fun hlt => by cases hlt
  lt_ne
    | some a, some b => h.lt_ne a b
    | some _, none => fun hlt => by cases hlt
    | none, _ => fun hlt => by cases hlt

end Comparison

end Lib
