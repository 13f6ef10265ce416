import GdscriptCompiler.Lib.Rounds
import Mathlib.Data.List.Count
import Mathlib.Data.List.Nodup
import Mathlib.Logic.Function.Basic

/-!
# UseCounts — removing what nothing uses, by counting uses

An item that may be removed goes when its key has no use left; its own uses go with it.
-/

namespace Lib

/-- `removable` may fail, and is asked only of items whose key has no use. -/
structure Items (K ε : Type) where
  size : Nat
  defines : Nat → Option K
  uses : Nat → List K
  removable : Nat → Except ε Bool

structure UseState (K : Type) where
  count : K → Nat
  removed : Nat → Bool
  worklist : List Nat

namespace Items

variable {K ε : Type} [DecidableEq K] (P : Items K ε)

def definitions (k : K) : List Nat :=
  ((List.range P.size).filter fun i => P.defines i = some k).reverse

/-- The uses of a key among the items that are not removed. -/
def remaining (removed : Nat → Bool) (k : K) : Nat :=
  (((List.range P.size).filter fun i => !removed i).flatMap P.uses).count k

def start : UseState K where
  count := P.remaining fun _ => false
  removed := fun _ => false
  worklist := List.range P.size

def release (st : UseState K) (k : K) : UseState K :=
  let count := Function.update st.count k (st.count k - 1)
  if count k ≠ 0 then { st with count }
  else { st with
    count
    worklist := (P.definitions k).foldl (fun work i => if st.removed i then work else i :: work)
      st.worklist }

/-- Item `i` comes off the worklist. -/
def turn (st : UseState K) (i : Nat) : Except ε (UseState K) :=
  if st.removed i then .ok st
  else
    match P.defines i with
    | none => .ok st
    | some k =>
      if st.count k ≠ 0 then .ok st
      else do
        if ← P.removable i then
          return (P.uses i).foldl P.release { st with removed := Function.update st.removed i true }
        else return st

def step : Except ε (UseState K) → Option (Except ε (UseState K))
  | .error _ => none
  | .ok st =>
    match st.worklist with
    | [] => none
    | i :: rest => some (P.turn { st with worklist := rest } i)

-- what one removal can add to the worklist
def pushes : Nat := ((List.range P.size).flatMap P.uses).length * P.size

def run : Except ε (UseState K) :=
  (rounds P.step (P.size * (P.pushes + 2) + 1) (.ok P.start)).getD (.ok P.start)

/-! ## 1. Releasing uses -/

variable {P}

structure Released (P : Items K ε) (ks : List K) (st st' : UseState K) : Prop where
  removed : st'.removed = st.removed
  count : ∀ k, st'.count k = st.count k - ks.count k
  older : ∀ i ∈ st.worklist, i ∈ st'.worklist
  newer : ∀ i ∈ st'.worklist, i ∈ st.worklist ∨ i < P.size
  pushed : ∀ i k, i < P.size → P.defines i = some k → st.removed i = false → st.count k ≠ 0 →
    st'.count k = 0 → i ∈ st'.worklist
  length : st'.worklist.length ≤ st.worklist.length + ks.length * P.size

variable {i : Nat}

theorem mem_definitions {k : K} : i ∈ P.definitions k ↔ i < P.size ∧ P.defines i = some k := by
  simp [definitions]

theorem length_definitions (k : K) : (P.definitions k).length ≤ P.size := by
  unfold definitions
  rw [List.length_reverse]
  exact Nat.le_trans (List.length_filter_le _ _) (Nat.le_of_eq List.length_range)

-- the items not removed are pushed
theorem foldl_push (removed : Nat → Bool) (is work : List Nat) :
    is.foldl (fun work i => if removed i then work else i :: work) work =
      (is.filter fun i => !removed i).reverse ++ work := by
  induction is generalizing work with
  | nil => rfl
  | cons i is ih =>
    rw [List.foldl_cons, ih]
    cases hi : removed i <;> simp [hi]

theorem release_released (st : UseState K) (k : K) : Released P [k] st (P.release st k) := by
  have hcount (k' : K) : (Function.update st.count k (st.count k - 1)) k' =
    st.count k' - [k].count k' := by
    by_cases hk : k' = k
    · subst hk
      simp
    · rw [Function.update_of_ne hk, List.count_singleton, if_neg (by simpa using Ne.symm hk)]
      rfl
  unfold release
  dsimp only
  split
  · rename_i hused
    refine ⟨rfl, hcount, fun _ h => h, fun _ h => .inl h, fun i k' _ hdef _ hne hzero => ?_, by simp⟩
    -- only the count of `k` fell, and not to zero
    by_cases hk : k' = k
    · subst hk
      exact absurd hzero hused
    · dsimp only at hzero
      rw [Function.update_of_ne hk] at hzero
      exact absurd hzero hne
  · rename_i hzero
    rw [foldl_push]
    have hpushed (i : Nat) : i ∈ ((P.definitions k).filter fun i => !st.removed i).reverse ↔
        (i < P.size ∧ P.defines i = some k) ∧ st.removed i = false := by
      rw [List.mem_reverse, List.mem_filter, mem_definitions, Bool.not_eq_true']
    refine ⟨rfl, hcount, fun i h => List.mem_append_right _ h, fun i h => ?_,
      fun i k' hi hdef hrem hne hz => ?_, ?_⟩
    · rcases List.mem_append.mp h with hnew | hold
      · exact .inr ((hpushed i).mp hnew).1.1
      · exact .inl hold
    · by_cases hk : k' = k
      · subst hk
        exact List.mem_append_left _ ((hpushed i).mpr ⟨⟨hi, hdef⟩, hrem⟩)
      · dsimp only at hz
        rw [Function.update_of_ne hk] at hz
        exact absurd hz hne
    · have hlen := Nat.le_trans (List.length_filter_le (fun i => !st.removed i) _)
        (length_definitions (P := P) k)
      rw [List.length_append, List.length_reverse, List.length_singleton]
      omega

theorem Released.trans {ks ks' : List K} {st st' st'' : UseState K} (h : Released P ks st st')
    (h' : Released P ks' st' st'') :
    Released P (ks ++ ks') st st'' where
  removed := h'.removed.trans h.removed
  count k := by
    rw [h'.count, h.count, List.count_append, Nat.sub_sub]
  older i hi := h'.older i (h.older i hi)
  newer i hi := (h'.newer i hi).elim (h.newer i) .inr
  pushed i k hi hdef hrem hne hzero := by
    by_cases hmid : st'.count k = 0
    · exact h'.older i (h.pushed i k hi hdef hrem hne hmid)
    · exact h'.pushed i k hi hdef (by rw [h.removed]; exact hrem) hmid hzero
  length := by
    have hle := h.length
    have hle' := h'.length
    rw [List.length_append, Nat.add_mul]
    omega

theorem foldl_released (ks : List K) (st : UseState K) :
    Released P ks st (ks.foldl P.release st) := by
  induction ks generalizing st with
  | nil =>
    exact ⟨rfl, fun _ => rfl, fun _ h => h, fun _ h => .inl h,
      fun _ _ _ _ _ hne hz => absurd hz hne, by simp⟩
  | cons k ks ih => exact (release_released st k).trans (ih _)

/-! ## 2. The uses that remain -/

variable {removed : Nat → Bool}

omit [DecidableEq K] in
-- an item that is removed was one of those left
theorem filter_remove (hi : i < P.size) (hrem : removed i = false) :
    ∃ before after, ((List.range P.size).filter fun j => !removed j) = before ++ i :: after ∧
      ((List.range P.size).filter fun j => !Function.update removed i true j) =
        before ++ after := by
  obtain ⟨before, after, hsplit⟩ := List.append_of_mem (List.mem_range.mpr hi)
  have hnodup : (before ++ i :: after).Nodup := hsplit ▸ List.nodup_range
  rw [List.nodup_append, List.nodup_cons] at hnodup
  have hsame (is : List Nat) (his : i ∉ is) :
      (is.filter fun j => !Function.update removed i true j) = is.filter fun j => !removed j := by
    refine List.filter_congr fun j hj => ?_
    have hne : j ≠ i := by
      rintro rfl
      exact his hj
    rw [Function.update_of_ne hne]
  refine ⟨before.filter fun j => !removed j, after.filter fun j => !removed j, ?_, ?_⟩
  · rw [hsplit, List.filter_append, List.filter_cons, hrem]
    rfl
  · rw [hsplit, List.filter_append, List.filter_cons, Function.update_self, hsame before, hsame after]
    · rfl
    · exact hnodup.2.1.1
    · exact fun h => hnodup.2.2 i h i List.mem_cons_self rfl

theorem remaining_remove (hi : i < P.size) (hrem : removed i = false) (k : K) :
    P.remaining (Function.update removed i true) k + (P.uses i).count k =
      P.remaining removed k := by
  obtain ⟨before, after, hold, hnew⟩ := filter_remove hi hrem
  unfold remaining
  rw [hold, hnew]
  simp only [List.flatMap_append, List.flatMap_cons, List.count_append]
  omega

theorem not_mem_uses (hi : i < P.size) (hrem : removed i = false) {k : K}
    (h : P.remaining removed k = 0) :
    k ∉ P.uses i := by
  have := remaining_remove (P := P) hi hrem k
  rw [h] at this
  exact List.count_eq_zero.mp (by omega)

/-! ## 3. The loop -/

/-- An item that stays: it defines nothing, or something that is used, or may not be removed. -/
def Stays (P : Items K ε) (st : UseState K) (i : Nat) : Prop :=
  ∀ k, P.defines i = some k → st.count k ≠ 0 ∨ P.removable i = .ok false

structure Counted (P : Items K ε) (st : UseState K) : Prop where
  count : ∀ k, st.count k = P.remaining st.removed k
  removed : ∀ i, st.removed i = true → i < P.size ∧ P.removable i = .ok true ∧
    ∃ k, P.defines i = some k ∧ st.count k = 0
  settled : ∀ i, i < P.size → st.removed i = false → i ∈ st.worklist ∨ P.Stays st i
  worklist : ∀ i ∈ st.worklist, i < P.size

theorem counted_start : Counted P P.start where
  count _ := rfl
  removed _ h := nomatch h
  settled _ hi _ := .inl (List.mem_range.mpr hi)
  worklist _ hi := List.mem_range.mp hi

theorem turn_cases {st st' : UseState K} (h : P.turn st i = .ok st') :
    st' = st ∧ (st.removed i = true ∨ P.Stays st i) ∨
      st.removed i = false ∧ P.removable i = .ok true ∧
        (∃ k, P.defines i = some k ∧ st.count k = 0) ∧
        Released P (P.uses i) { st with removed := Function.update st.removed i true } st' := by
  unfold turn at h
  split at h
  · rename_i hrem
    cases h
    exact .inl ⟨rfl, .inl hrem⟩
  rename_i hrem
  have hrem := Bool.eq_false_iff.mpr hrem
  split at h
  · rename_i hnone
    cases h
    exact .inl ⟨rfl, .inr fun k hk => by rw [hnone] at hk; cases hk⟩
  rename_i k hk
  split at h
  · rename_i hused
    cases h
    exact .inl ⟨rfl, .inr fun k' hk' => by rw [hk] at hk'; cases hk'; exact .inl hused⟩
  rename_i hunused
  cases hremovable : P.removable i with
  | error e =>
    rw [hremovable] at h
    cases h
  | ok b =>
    rw [hremovable] at h
    cases b with
    | false =>
      cases h
      exact .inl ⟨rfl, .inr fun _ _ => .inr hremovable⟩
    | true =>
      cases h
      exact .inr ⟨hrem, rfl, ⟨k, hk, not_not.mp hunused⟩, foldl_released _ _⟩

section Turn

variable {st st' : UseState K} {i : Nat} {rest : List Nat} (h : Counted P st)
  (hwork : st.worklist = i :: rest)
include h hwork

theorem Counted.drop (hstays : st.removed i = true ∨ P.Stays st i) :
    Counted P { st with worklist := rest } where
  count := h.count
  removed := h.removed
  settled j hj hrem := by
    rcases h.settled j hj hrem with hmem | hj
    · rw [hwork] at hmem
      rcases List.mem_cons.mp hmem with rfl | hmem
      · rcases hstays with hrem' | hstays
        · rw [hrem] at hrem'
          cases hrem'
        · exact .inr hstays
      · exact .inl hmem
    · exact .inr hj
  worklist j hj := h.worklist j (hwork ▸ List.mem_cons_of_mem i hj)

theorem Counted.remove (hrem : st.removed i = false) (hremovable : P.removable i = .ok true)
    (hdef : ∃ k, P.defines i = some k ∧ st.count k = 0)
    (hreleased : Released P (P.uses i)
        { st with worklist := rest, removed := Function.update st.removed i true } st') :
    Counted P st' := by
  have hi : i < P.size := h.worklist i (hwork ▸ List.mem_cons_self)
  have hremoved (j : Nat) : st'.removed j = Function.update st.removed i true j := by
    rw [hreleased.removed]
  have hzero (k : K) (hk : st.count k = 0) : st'.count k = 0 := by
    rw [hreleased.count]
    exact Nat.sub_eq_zero_of_le (hk ▸ Nat.zero_le _)
  constructor
  case count =>
    intro k
    have hsum := remaining_remove (P := P) hi hrem k
    have hcount := h.count k
    rw [hreleased.count, hreleased.removed]
    dsimp only
    omega
  case removed =>
    intro j hj
    rw [hremoved] at hj
    by_cases hji : j = i
    · subst hji
      obtain ⟨k, hk, hcount⟩ := hdef
      exact ⟨hi, hremovable, k, hk, hzero k hcount⟩
    · rw [Function.update_of_ne hji] at hj
      obtain ⟨hlt, hok, k, hk, hcount⟩ := h.removed j hj
      exact ⟨hlt, hok, k, hk, hzero k hcount⟩
  case settled =>
    intro j hj hrem'
    rw [hremoved] at hrem'
    have hji : j ≠ i := by
      rintro rfl
      rw [Function.update_self] at hrem'
      cases hrem'
    have hstill := hrem'
    rw [Function.update_of_ne hji] at hrem'
    rcases h.settled j hj hrem' with hmem | hstays
    · rw [hwork] at hmem
      exact .inl (hreleased.older j (List.mem_of_ne_of_mem hji hmem))
    · by_cases hin : j ∈ st'.worklist
      · exact .inl hin
      · refine .inr fun k hk => ?_
        rcases hstays k hk with hused | hkeep
        · -- had the last use gone, the item would have been pushed
          exact .inl fun hgone => hin (hreleased.pushed j k hj hk hstill hused hgone)
        · exact .inr hkeep
  case worklist =>
    intro j hj
    rcases hreleased.newer j hj with hrest | hlt
    · exact h.worklist j (hwork ▸ List.mem_cons_of_mem i hrest)
    · exact hlt

end Turn

theorem counted_step {c c' : Except ε (UseState K)} (h : ∀ st, c = .ok st → Counted P st)
    (hstep : P.step c = some c') :
    ∀ st, c' = .ok st → Counted P st := by
  rintro st' rfl
  unfold step at hstep
  split at hstep
  · cases hstep
  · rename_i st
    have hst := h st rfl
    split at hstep
    · cases hstep
    · rename_i i rest hwork
      rcases turn_cases (Option.some.inj hstep) with ⟨rfl, hstays⟩ | ⟨hrem, hremovable, hdef, hreleased⟩
      · exact hst.drop hwork hstays
      · exact hst.remove hwork hrem hremovable hdef hreleased

/-! ## 4. The loop ends -/

/-- What the worklist holds, and what the items left can still add to it. -/
def rank (P : Items K ε) : Except ε (UseState K) → Nat
  | .error _ => 0
  | .ok st =>
    st.worklist.length + ((List.range P.size).filter fun i => !st.removed i).length * (P.pushes + 1)

omit [DecidableEq K] in
theorem length_uses_le (hi : i < P.size) : (P.uses i).length * P.size ≤ P.pushes := by
  unfold pushes
  refine Nat.mul_le_mul_right _ ?_
  exact (List.sublist_flatten_of_mem (List.mem_map_of_mem (List.mem_range.mpr hi))).length_le

theorem rank_step {c c' : Except ε (UseState K)} (h : ∀ st, c = .ok st → Counted P st)
    (hstep : P.step c = some c') :
    P.rank c' < P.rank c := by
  unfold step at hstep
  split at hstep
  · cases hstep
  · rename_i st
    have hst := h st rfl
    split at hstep
    · cases hstep
    · rename_i i rest hwork
      have hlength : st.worklist.length = rest.length + 1 := by rw [hwork]; rfl
      cases c' with
      | error e =>
        unfold rank
        dsimp only
        omega
      | ok st' =>
        rcases turn_cases (Option.some.inj hstep) with ⟨rfl, -⟩ | ⟨hrem, -, -, hreleased⟩
        · unfold rank
          dsimp only
          omega
        · have hi : i < P.size := hst.worklist i (hwork ▸ List.mem_cons_self)
          obtain ⟨before, after, hold, hnew⟩ := filter_remove (P := P) hi hrem
          have hlen := hreleased.length
          have huses := length_uses_le hi
          unfold rank
          dsimp only at hlen ⊢
          rw [hreleased.removed, hold, hnew]
          simp only [List.length_append, List.length_cons, Nat.add_mul, Nat.one_mul]
          omega

theorem exists_rounds (P : Items K ε) :
    ∃ c, rounds P.step (P.size * (P.pushes + 2) + 1) (.ok P.start) = some c := by
  have hranking : Ranking P.step (fun c => (P.step c).isSome)
      (fun c r => (∀ st, c = .ok st → Counted P st) ∧ P.rank c ≤ r) := by
    constructor
    · intro c r _ hstop hevent
      rw [hstop] at hevent
      cases hevent
    · intro c c' r ⟨hcounted, hle⟩ hstep
      have hlt := rank_step hcounted hstep
      refine ⟨_, ⟨counted_step hcounted hstep, Nat.le_refl _⟩, ?_⟩
      split <;> omega
  refine hranking.rounds_isSome ⟨fun st hst => ?_, Nat.le_refl _⟩ ?_
  · cases hst
    exact counted_start
  · have hall : ((List.range P.size).filter fun i => !P.start.removed i).length = P.size :=
      (congrArg List.length (List.filter_eq_self.mpr fun _ _ => rfl)).trans List.length_range
    have hwork : P.start.worklist.length = P.size := List.length_range
    unfold rank
    dsimp only
    rw [hall, hwork, Nat.mul_add, Nat.mul_add]
    omega

/-- Where the loop ends: the counts are those of the items left, and each of these stays. -/
structure Done (P : Items K ε) (st : UseState K) : Prop where
  count : ∀ k, st.count k = P.remaining st.removed k
  removed : ∀ i, st.removed i = true → i < P.size ∧ P.removable i = .ok true ∧
    ∃ k, P.defines i = some k ∧ st.count k = 0
  stays : ∀ i, i < P.size → st.removed i = false → P.Stays st i

theorem run_done {st : UseState K} (h : P.run = .ok st) : Done P st := by
  obtain ⟨c, hc⟩ := exists_rounds P
  unfold run at h
  rw [hc, Option.getD_some] at h
  subst h
  obtain ⟨hcounted, hstop⟩ := rounds_invariant (fun _ _ => counted_step)
    (fun st hst => by cases hst; exact counted_start) hc
  have hst := hcounted st rfl
  refine ⟨hst.count, hst.removed, fun i hi hrem => ?_⟩
  rcases hst.settled i hi hrem with hmem | hstays
  · unfold step at hstop
    dsimp only at hstop
    split at hstop
    · rename_i hnil
      rw [hnil] at hmem
      cases hmem
    · cases hstop
  · exact hstays

theorem run_ok (h : ∀ i, i < P.size → ∃ b, P.removable i = .ok b) : ∃ st, P.run = .ok st := by
  obtain ⟨c, hc⟩ := exists_rounds P
  have hkeep (c c' : Except ε (UseState K)) (hinv : ∃ st, c = .ok st ∧ Counted P st)
    (hstep : P.step c = some c') :
      ∃ st, c' = .ok st ∧ Counted P st := by
    obtain ⟨st, rfl, hst⟩ := hinv
    have hnext := counted_step (fun _ heq => by cases heq; exact hst) hstep
    unfold step at hstep
    dsimp only at hstep
    split at hstep
    · cases hstep
    · rename_i i rest hwork
      obtain ⟨b, hb⟩ := h i (hst.worklist i (hwork ▸ List.mem_cons_self))
      obtain ⟨st', hturn⟩ : ∃ st', P.turn { st with worklist := rest } i = .ok st' := by
        unfold turn
        rw [hb]
        split
        · exact ⟨_, rfl⟩
        · split
          · exact ⟨_, rfl⟩
          · split
            · exact ⟨_, rfl⟩
            · cases b <;> exact ⟨_, rfl⟩
      cases hstep
      exact ⟨st', hturn, hnext st' hturn⟩
  obtain ⟨⟨st, rfl, -⟩, -⟩ := rounds_invariant hkeep ⟨P.start, rfl, counted_start⟩ hc
  exact ⟨st, by unfold run; rw [hc]; rfl⟩

theorem run_of_stays (h : ∀ i, i < P.size → P.Stays P.start i) :
    ∃ st, P.run = .ok st ∧ st.removed = fun _ => false := by
  obtain ⟨c, hc⟩ := exists_rounds P
  have hkeep (c c' : Except ε (UseState K))
      (hinv : ∃ rest, (∀ i ∈ rest, i < P.size) ∧ c = .ok { P.start with worklist := rest })
      (hstep : P.step c = some c') :
      ∃ rest, (∀ i ∈ rest, i < P.size) ∧ c' = .ok { P.start with worklist := rest } := by
    obtain ⟨work, hlt, rfl⟩ := hinv
    unfold step at hstep
    dsimp only at hstep
    split at hstep
    · cases hstep
    · rename_i i rest
      cases hstep
      refine ⟨rest, fun j hj => hlt j (List.mem_cons_of_mem i hj), ?_⟩
      have hstays := h i (hlt i List.mem_cons_self)
      unfold turn
      rw [if_neg (by exact Bool.false_ne_true)]
      split
      · rfl
      · rename_i k hk
        rcases hstays k hk with hused | hkept
        · rw [if_pos hused]
        · rw [hkept]
          split <;> rfl
  obtain ⟨⟨rest, -, rfl⟩, -⟩ := rounds_invariant hkeep ⟨P.start.worklist, counted_start.worklist, rfl⟩ hc
  refine ⟨{ P.start with worklist := rest }, ?_, rfl⟩
  unfold run
  rw [hc]
  rfl

end Items

end Lib
