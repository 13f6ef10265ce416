import Mathlib.Algebra.Order.Ring.Int

/-!
# Reader — a cursor over bytes that remembers a failed read

A read past the end returns a default and fails every later read.
-/

namespace Lib

structure Reader where
  rest : List UInt8
  ok : Bool := true

/-- A reading function that may also give up. -/
abbrev Get (α : Type) := StateT Reader Option α

def littleEndian : Nat → Nat → List UInt8
  | 0, _ => []
  | n + 1, v => UInt8.ofNat v :: littleEndian n (v / 256)

def ofLittleEndian : List UInt8 → Nat
  | [] => 0
  | b :: bs => b.toNat + 256 * ofLittleEndian bs

theorem length_littleEndian (n v : Nat) : (littleEndian n v).length = n := by
  induction n generalizing v with
  | zero => rfl
  | succ n ih => rw [littleEndian, List.length_cons, ih]

theorem ofLittleEndian_littleEndian {n v : Nat} (h : v < 256 ^ n) :
    ofLittleEndian (littleEndian n v) = v := by
  induction n generalizing v with
  | zero =>
    rw [Nat.pow_zero] at h
    rw [show v = 0 by omega]
    rfl
  | succ n ih =>
    have hdiv : v / 256 < 256 ^ n := by
      rw [Nat.pow_succ] at h
      exact Nat.div_lt_of_lt_mul (by omega)
    rw [littleEndian, ofLittleEndian, ih hdiv, UInt8.toNat_ofNat']
    omega

namespace Reader

def take (n : Nat) : Get (List UInt8) := fun r =>
  if r.ok = false ∨ r.rest.length < n then some ([], { r with ok := false })
  else some (r.rest.take n, { r with rest := r.rest.drop n })

def scalar (n : Nat) : Get Nat := do return ofLittleEndian (← take n)

/-- A length of four bytes and that many bytes. -/
def string : Get (List UInt8) := do take (← scalar 4)

def check (b : Bool) : Get Unit := fun r => if r.ok && b then some ((), r) else none

def many {α : Type} (g : Get α) : Nat → Get (List α)
  | 0 => return []
  | n + 1 => do
    let a ← g
    return a :: (← many g n)

/-- A count that is no larger than the input and that many records. -/
def list {α : Type} (size : Nat) (g : Get α) : Get (List α) := do
  let count ← scalar 4
  check (count ≤ size)
  many g count

/-! ## 1. Where a function stops -/

/-- A run that ends well uses `size` of the bytes it finds. -/
def Spans {α : Type} (g : Get α) (size : List UInt8 → Nat) : Prop :=
  ∀ r a r', g r = some (a, r') → r'.ok = true →
    r.ok = true ∧ size r.rest ≤ r.rest.length ∧ r'.rest = r.rest.drop (size r.rest)

/-- The length of a string with its length in front. -/
def stringSize (bytes : List UInt8) : Nat := 4 + ofLittleEndian (bytes.take 4)

-- the length of `n` records, one after the other
def recordsSize (size : List UInt8 → Nat) : Nat → List UInt8 → Nat
  | 0, _ => 0
  | n + 1, bytes => size bytes + recordsSize size n (bytes.drop (size bytes))

/-- The length of a list with its count in front. -/
def listSize (size : List UInt8 → Nat) (bytes : List UInt8) : Nat :=
  4 + recordsSize size (ofLittleEndian (bytes.take 4)) (bytes.drop 4)

variable {α β : Type} {g : Get α} {f : α → Get β} {r r' : Reader} {σ τ : List UInt8 → Nat}

theorem bind_eq_some {x : Get α} {b : β} :
    (x >>= f) r = some (b, r') ↔ ∃ a m, x r = some (a, m) ∧ f a m = some (b, r') := by
  change (x r).bind (fun p => f p.1 p.2) = some (b, r') ↔ _
  rw [Option.bind_eq_some_iff]
  exact Prod.exists

theorem Spans.pure (a : α) : Spans (return a : Get α) fun _ => 0 := by
  intro r a' r' h hok
  cases h
  exact ⟨hok, Nat.zero_le _, rfl⟩

theorem Spans.bind (hg : Spans g σ) (hf : ∀ a, Spans (f a) τ) :
    Spans (g >>= f) fun bytes => σ bytes + τ (bytes.drop (σ bytes)) := by
  intro r b r' h hok
  obtain ⟨a, m, hm, h⟩ := bind_eq_some.1 h
  obtain ⟨hmok, hle', hrest'⟩ := hf a m b r' h hok
  obtain ⟨hrok, hle, hrest⟩ := hg r a m hm hmok
  rw [hrest] at hle' hrest'
  rw [List.length_drop] at hle'
  dsimp only
  refine ⟨hrok, by omega, ?_⟩
  rw [hrest', List.drop_drop]

theorem spans_take (n : Nat) : Spans (take n) fun _ => n := by
  intro r a r' h hok
  dsimp only [take] at h
  split at h
  · cases h
    cases hok
  · rename_i hread
    cases h
    exact ⟨hok, Nat.le_of_not_lt fun hlt => hread (.inr hlt), rfl⟩

-- what follows a scalar may depend on its value
theorem spans_scalar {n : Nat} {f : Nat → Get α} {τ : Nat → List UInt8 → Nat}
    (hf : ∀ v, Spans (f v) (τ v)) :
    Spans (scalar n >>= f) fun bytes => n + τ (ofLittleEndian (bytes.take n)) (bytes.drop n) := by
  intro r b r' h hok
  obtain ⟨v, m, hm, h⟩ := bind_eq_some.1 h
  obtain ⟨bytes, m', htake, hv⟩ := bind_eq_some.1 hm
  cases hv
  obtain ⟨hmok, hle', hrest'⟩ := hf _ m b r' h hok
  dsimp only [take] at htake
  split at htake
  · cases htake
    cases hmok
  · cases htake
    dsimp only at hle' hrest' ⊢
    rw [List.length_drop] at hle'
    refine ⟨hmok, by omega, ?_⟩
    rw [hrest', List.drop_drop]

theorem spans_string : Spans string stringSize := spans_scalar spans_take

theorem Spans.check (hg : Spans g σ) (b : Bool) : Spans (Reader.check b >>= fun _ => g) σ := by
  intro r a r' h hok
  obtain ⟨u, m, hcheck, h⟩ := bind_eq_some.1 h
  dsimp only [Reader.check] at hcheck
  split at hcheck
  · cases hcheck
    exact hg _ a r' h hok
  · cases hcheck

theorem spans_many (hg : Spans g σ) (n : Nat) : Spans (many g n) (recordsSize σ n) := by
  induction n with
  | zero => exact .pure _
  | succ n ih => exact hg.bind fun a => ih.bind fun as => .pure (a :: as)

theorem spans_list (hg : Spans g σ) (size : Nat) : Spans (list size g) (listSize σ) :=
  spans_scalar fun n => (spans_many hg n).check _

/-! ## 2. Reading what was written -/

/-- Reading gives back what `put` writes for `a`, before any other bytes. -/
def Inverse (put : α → List UInt8) (g : Nat → Get α) (a : α) : Prop :=
  ∀ size more, (put a).length ≤ size → g size ⟨put a ++ more, true⟩ = some (a, ⟨more, true⟩)

variable {put : α → List UInt8} {more : List UInt8}

theorem take_append (bs more : List UInt8) :
    take bs.length ⟨bs ++ more, true⟩ = some (bs, ⟨more, true⟩) := by
  unfold take
  rw [if_neg (by simp), List.take_left, List.drop_left]

theorem scalar_append {n v : Nat} (h : v < 256 ^ n) :
    scalar n ⟨littleEndian n v ++ more, true⟩ = some (v, ⟨more, true⟩) := by
  have hread := take_append (littleEndian n v) more
  rw [length_littleEndian] at hread
  refine bind_eq_some.2 ⟨_, _, hread, ?_⟩
  rw [ofLittleEndian_littleEndian h]
  rfl

theorem string_append {s : List UInt8} (h : s.length < 2 ^ 32) :
    string ⟨littleEndian 4 s.length ++ (s ++ more), true⟩ = some (s, ⟨more, true⟩) :=
  bind_eq_some.2 ⟨_, _, scalar_append h, take_append s more⟩

section Records

variable {g : Nat → Get α} {as : List α} (more : List UInt8)
  (hput : ∀ a ∈ as, put a ≠ [] ∧ Inverse put g a)
include hput

theorem length_le_flatMap : as.length ≤ (as.flatMap put).length := by
  induction as with
  | nil => exact Nat.le_refl _
  | cons a as ih =>
    have ha := List.length_pos_iff.2 (hput a List.mem_cons_self).1
    have hrest := ih fun b hb => hput b (List.mem_cons_of_mem _ hb)
    rw [List.flatMap_cons, List.length_append, List.length_cons]
    omega

theorem many_append {size : Nat} (hsize : (as.flatMap put).length ≤ size) :
    many (g size) as.length ⟨as.flatMap put ++ more, true⟩ = some (as, ⟨more, true⟩) := by
  induction as with
  | nil => rfl
  | cons a as ih =>
    rw [List.flatMap_cons, List.length_append] at hsize
    rw [List.flatMap_cons, List.append_assoc]
    have hrest := ih (fun b hb => hput b (List.mem_cons_of_mem _ hb)) (by omega)
    exact bind_eq_some.2 ⟨_, _, (hput a List.mem_cons_self).2 size _ (by omega),
      bind_eq_some.2 ⟨_, _, hrest, rfl⟩⟩

theorem list_append (hlength : as.length < 2 ^ 32) {size : Nat}
    (hsize : (as.flatMap put).length ≤ size) :
    list size (g size) ⟨littleEndian 4 as.length ++ (as.flatMap put ++ more), true⟩ =
      some (as, ⟨more, true⟩) := by
  have hcount : as.length ≤ size := Nat.le_trans (length_le_flatMap hput) hsize
  exact bind_eq_some.2 ⟨_, _, scalar_append hlength,
    bind_eq_some.2 ⟨(), _, if_pos (decide_eq_true hcount), many_append more hput hsize⟩⟩

end Records

end Reader

end Lib
