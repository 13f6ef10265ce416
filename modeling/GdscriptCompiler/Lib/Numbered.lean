import Mathlib.Algebra.Order.Ring.Int
import Mathlib.Data.List.Basic
import Mathlib.Data.String.Basic
import Mathlib.Tactic.Common

/-! # Numbered — names that end in a counter -/

namespace Lib

def numbered (head : String) (k : Nat) : String := head ++ Nat.repr k

/-- The head does not run into the number after it. -/
def openEnded (head : String) : Bool := !(head.toList.getLast?.any Char.isDigit)

theorem mem_repr_isDigit {k : Nat} {c : Char} (h : c ∈ (Nat.repr k).toList) : c.isDigit = true := by
  rw [Nat.toList_repr] at h
  exact Nat.isDigit_of_mem_toDigits (by decide) (by decide) h

-- Digits after a non-digit: the run of digits is all there is.
theorem append_digits_inj {l l' d d' : List Char} (hd : ∀ c ∈ d, c.isDigit = true)
    (hl : ∀ c, l.getLast? = some c → c.isDigit = false)
    (hl' : ∀ c, l'.getLast? = some c → c.isDigit = false) (hd' : ∀ c ∈ d', c.isDigit = true)
    (h : l ++ d = l' ++ d') :
    l = l' ∧ d = d' := by
  have key : ∀ {l l' d d' a : List Char}, (∀ c ∈ d, c.isDigit = true) →
      (∀ c, l'.getLast? = some c → c.isDigit = false) → l' = l ++ a → d = a ++ d' → a = [] := by
    intro l l' d d' a hd hl' hl hda
    cases hlast : a.getLast? with
    | none => exact List.getLast?_eq_none_iff.mp hlast
    | some c =>
      have hmem : c ∈ d := by
        rw [hda]
        exact List.mem_append_left _ (List.mem_of_getLast? hlast)
      have hnot := hl' c (by rw [hl, List.getLast?_append, hlast]; rfl)
      rw [hd c hmem] at hnot
      cases hnot
  rcases List.append_eq_append_iff.mp h with ⟨a, hla, hda⟩ | ⟨a, hla, hda⟩
  · obtain rfl := key hd hl' hla hda
    rw [List.append_nil] at hla
    exact ⟨hla.symm, hda⟩
  · obtain rfl := key hd' hl hla hda
    rw [List.append_nil] at hla
    exact ⟨hla, hda.symm⟩

variable {head : String}

theorem openEnded_last (h : openEnded head = true) (c : Char) (hc : head.toList.getLast? = some c) :
    c.isDigit = false := by
  unfold openEnded at h
  rw [hc] at h
  simpa using h

theorem numbered_inj {head' : String} {k k' : Nat} (hh : openEnded head = true)
    (hh' : openEnded head' = true) (h : numbered head k = numbered head' k') :
    head = head' ∧ k = k' := by
  unfold numbered at h
  have hlist := congrArg String.toList h
  rw [String.toList_append, String.toList_append] at hlist
  obtain ⟨hhead, hnum⟩ := append_digits_inj (fun _ => mem_repr_isDigit) (openEnded_last hh)
    (openEnded_last hh') (fun _ => mem_repr_isDigit) hlist
  refine ⟨String.toList_inj.mp hhead, ?_⟩
  rw [Nat.toList_repr, Nat.toList_repr] at hnum
  have hvalue := congrArg (fun digits => Nat.ofDigitChars 10 digits 0) hnum
  simpa using hvalue

end Lib
