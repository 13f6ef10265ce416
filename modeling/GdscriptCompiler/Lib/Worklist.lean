import GdscriptCompiler.Lib.Rounds
import Mathlib.Algebra.BigOperators.Group.Finset.Basic
import Mathlib.Algebra.GroupWithZero.Action.Defs
import Mathlib.Algebra.Order.Ring.Nat
import Mathlib.Algebra.Order.BigOperators.Group.Finset
import Mathlib.Data.List.MinMax
import Mathlib.Logic.Function.Basic
import Mathlib.Logic.Relation

/-!
# Worklist — forward dataflow over numbered nodes, by a worklist

Whatever the queue's order, the loop ends, and where it ends no edge has anything left to report.
-/

namespace Lib

/-- How the queue is kept: any order will do, as long as nothing is lost. -/
structure Discipline where
  pop : List Nat → Option (Nat × List Nat)
  push : Nat → List Nat → List Nat
  pop_none : ∀ {q}, pop q = none → q = []
  mem_or_of_pop : ∀ {q i q'}, pop q = some (i, q') → ∀ k ∈ q, k = i ∨ k ∈ q'
  mem_of_pop : ∀ {q i q'}, pop q = some (i, q') → i ∈ q ∧ ∀ k ∈ q', k ∈ q
  length_of_pop : ∀ {q i q'}, pop q = some (i, q') → q'.length < q.length
  mem_push : ∀ j q k, k ∈ push j q ↔ k = j ∨ k ∈ q
  length_push : ∀ j q, (push j q).length ≤ q.length + 1

/-- First in, first out, a node queued as often as it is pushed. -/
def Discipline.fifo : Discipline where
  pop
    | [] => none
    | i :: q => some (i, q)
  push j q := q ++ [j]
  pop_none := fun {q} h => by
    cases q with
    | nil => rfl
    | cons => cases h
  mem_or_of_pop := fun {q i q'} h k hk => by
    cases q with
    | nil => cases h
    | cons a q =>
      cases h
      exact List.mem_cons.mp hk
  mem_of_pop := fun {q i q'} h => by
    cases q with
    | nil => cases h
    | cons a q =>
      cases h
      exact ⟨List.mem_cons_self, fun k => List.mem_cons_of_mem _⟩
  length_of_pop := fun {q i q'} h => by
    cases q with
    | nil => cases h
    | cons a q =>
      cases h
      exact Nat.lt_succ_self _
  mem_push := fun j q k => by simp [or_comm]
  length_push := fun j q => by simp

def Discipline.lifo : Discipline where
  __ := Discipline.fifo
  push j q := j :: q
  mem_push _ _ _ := List.mem_cons
  length_push _ _ := Nat.le_refl _

/-- Smallest number first, a node queued at most once. -/
def Discipline.smallest : Discipline where
  pop q := q.min?.map fun i => (i, q.erase i)
  push j q := if j ∈ q then q else q ++ [j]
  pop_none := fun {q} h => List.min?_eq_none_iff.mp (Option.map_eq_none_iff.mp h)
  mem_or_of_pop := fun {q i q'} h k hk => by
    obtain ⟨m, -, heq⟩ := Option.map_eq_some_iff.mp h
    cases heq
    by_cases hkm : k = i
    · exact Or.inl hkm
    · exact Or.inr ((List.mem_erase_of_ne hkm).mpr hk)
  mem_of_pop := fun {q i q'} h => by
    obtain ⟨m, hm, heq⟩ := Option.map_eq_some_iff.mp h
    cases heq
    exact ⟨List.min?_mem hm, fun k => List.mem_of_mem_erase⟩
  length_of_pop := fun {q i q'} h => by
    obtain ⟨m, hm, heq⟩ := Option.map_eq_some_iff.mp h
    cases heq
    have hmem := List.min?_mem hm
    rw [List.length_erase_of_mem hmem]
    exact Nat.sub_lt (List.length_pos_of_mem hmem) Nat.one_pos
  mem_push := fun j q k => by
    split
    · rename_i hj
      constructor
      · exact Or.inr
      · rintro (rfl | hk)
        · exact hj
        · exact hk
    · simp [or_comm]
  length_push := fun j q => by split <;> simp

/-- A dataflow problem. `merge` takes the state a node has and one that arrives, and says whether
the result differs from what the node had. -/
structure Flow (σ : Type*) where
  succs : Nat → List Nat
  transfer : Nat → σ → σ
  merge : σ → σ → σ × Bool

/-- The entry states found so far (`none`: no path has reached the node) and the queue. -/
structure Work (σ : Type*) where
  entry : Nat → Option σ
  queue : List Nat

variable {σ : Type*} (F : Flow σ) (D : Discipline)

def Flow.arrive (out : σ) (w : Work σ) (j : Nat) : Work σ :=
  match w.entry j with
  | none => ⟨Function.update w.entry j (some out), D.push j w.queue⟩
  | some t =>
    if (F.merge t out).2 then
      ⟨Function.update w.entry j (some (F.merge t out).1), D.push j w.queue⟩
    else w

/-- One turn of the loop; `none` when the queue is empty. -/
def Flow.turn (w : Work σ) : Option (Work σ) :=
  match D.pop w.queue with
  | none => none
  | some (i, queue) =>
    match w.entry i with
    | none => some { w with queue }
    | some s => some ((F.succs i).foldl (F.arrive D (F.transfer i s)) { w with queue })

/-- The loop from node 0, for as many turns as `n` nodes of states no higher than `height` can need.
-/
def Flow.solve (n height : Nat) (start : σ) : Option (Work σ) :=
  rounds (F.turn D) (n * (height + 1) + 2) ⟨Function.update (fun _ => none) 0 (some start), [0]⟩

/-! ## 1. Where the loop ends, every edge is covered -/

variable {j : Nat} {w w' : Work σ} {start : σ}

section Stable

variable {Γ : Type*} (Covers : σ → Γ → Prop)

def Weaker (s t : σ) : Prop := ∀ c, Covers s c → Covers t c

/-- `merge` covers what either side covers, and its flag tells the truth. -/
structure Flow.Meets : Prop where
  left : ∀ a b, Weaker Covers a (F.merge a b).1
  right : ∀ a b, Weaker Covers b (F.merge a b).1
  same : ∀ a b, (F.merge a b).2 = false → (F.merge a b).1 = a

/-- What leaves node `i` has arrived at all its successors. -/
def Flow.Settled (w : Work σ) (i : Nat) : Prop :=
  ∀ s, w.entry i = some s → ∀ j ∈ F.succs i,
    ∃ t, w.entry j = some t ∧ Weaker Covers (F.transfer i s) t

/-- `w'` is `w` after some arrivals: states only got weaker, and a node whose state changed is
queued. -/
structure Later (w w' : Work σ) : Prop where
  entry : ∀ k s, w.entry k = some s → ∃ t, w'.entry k = some t ∧ Weaker Covers s t
  queue : ∀ k ∈ w.queue, k ∈ w'.queue
  fresh : ∀ k, w'.entry k ≠ w.entry k → k ∈ w'.queue

theorem Later.refl (w : Work σ) : Later Covers w w where
  entry := fun _ s h => ⟨s, h, fun _ hc => hc⟩
  queue := fun _ h => h
  fresh := fun _ h => absurd rfl h

variable {Covers}

theorem Later.trans {w'' : Work σ} (h : Later Covers w w') (h' : Later Covers w' w'') :
    Later Covers w w'' where
  entry := fun k s hk => by
    obtain ⟨t, ht, hst⟩ := h.entry k s hk
    obtain ⟨u, hu, htu⟩ := h'.entry k t ht
    exact ⟨u, hu, fun c hc => htu c (hst c hc)⟩
  queue := fun k hk => h'.queue k (h.queue k hk)
  fresh := fun k hk => by
    by_cases heq : w''.entry k = w'.entry k
    · apply h'.queue
      apply h.fresh
      rwa [← heq]
    · exact h'.fresh k heq

variable {F} {D}

-- The changed node is queued, so only its own entry has to be looked at.
theorem later_update {t : σ}
    (hweak : ∀ s, w.entry j = some s → Weaker Covers s t) :
    Later Covers w ⟨Function.update w.entry j (some t), D.push j w.queue⟩ where
  entry := fun k s hk => by
    by_cases hkj : k = j
    · subst hkj
      exact ⟨t, Function.update_self .., hweak s hk⟩
    · exact ⟨s, by rw [← hk]; exact Function.update_of_ne hkj .., fun _ hc => hc⟩
  queue := fun k hk => (D.mem_push j _ k).mpr (Or.inr hk)
  fresh := fun k hk => by
    apply (D.mem_push j _ k).mpr
    by_contra hnot
    apply hk
    exact Function.update_of_ne (fun heq => hnot (Or.inl heq)) ..

theorem arrive_later (hF : F.Meets Covers) (out : σ) (w : Work σ) (j : Nat) :
    Later Covers w (F.arrive D out w j) ∧
      ∃ t, (F.arrive D out w j).entry j = some t ∧ Weaker Covers out t := by
  unfold Flow.arrive
  cases hj : w.entry j with
  | none =>
    constructor
    · exact later_update fun s hs => by rw [hj] at hs; cases hs
    · exact ⟨out, Function.update_self .., fun _ hc => hc⟩
  | some t =>
    dsimp only
    split
    · constructor
      · apply later_update
        intro s hs
        rw [hj] at hs
        cases hs
        exact hF.left _ _
      · exact ⟨_, Function.update_self .., hF.right t out⟩
    · rename_i hsame
      have hsame := hF.same t out (Bool.eq_false_iff.mpr hsame)
      refine ⟨Later.refl Covers w, t, hj, ?_⟩
      have hright := hF.right t out
      rwa [hsame] at hright

theorem arrivals_later (hF : F.Meets Covers) (out : σ) (js : List Nat) (w : Work σ) :
    Later Covers w (js.foldl (F.arrive D out) w) ∧
      ∀ j ∈ js, ∃ t, (js.foldl (F.arrive D out) w).entry j = some t ∧ Weaker Covers out t := by
  induction js generalizing w with
  | nil => exact ⟨Later.refl Covers w, fun j hj => by cases hj⟩
  | cons a js ih =>
    obtain ⟨hfirst, t, ht, hout⟩ := arrive_later (D := D) hF out w a
    obtain ⟨hrest, hall⟩ := ih (F.arrive D out w a)
    refine ⟨hfirst.trans hrest, ?_⟩
    intro j hj
    rcases List.mem_cons.mp hj with rfl | hj
    · obtain ⟨u, hu, htu⟩ := hrest.entry j t ht
      exact ⟨u, hu, fun c hc => htu c (hout c hc)⟩
    · exact hall j hj

-- A node nothing has changed stays settled.
theorem Later.settled (h : Later Covers w w') {k : Nat} (hk : k ∉ w'.queue)
    (hw : F.Settled Covers w k) :
    F.Settled Covers w' k := by
  intro s hs j hj
  have hsame : w'.entry k = w.entry k := by
    by_contra hne
    exact hk (h.fresh k hne)
  obtain ⟨t, ht, hst⟩ := hw s (hsame ▸ hs) j hj
  obtain ⟨u, hu, htu⟩ := h.entry j t ht
  exact ⟨u, hu, fun c hc => htu c (hst c hc)⟩

structure Flow.Covered (F : Flow σ) (Covers : σ → Γ → Prop) (start : σ) (w : Work σ) : Prop where
  start : ∃ t, w.entry 0 = some t ∧ Weaker Covers start t
  settled : ∀ i, i ∉ w.queue → F.Settled Covers w i

theorem Flow.Covered.turn (hF : F.Meets Covers) (h : F.Covered Covers start w)
    (hturn : F.turn D w = some w') :
    F.Covered Covers start w' := by
  unfold Flow.turn at hturn
  cases hpop : D.pop w.queue with
  | none =>
    rw [hpop] at hturn
    cases hturn
  | some ip =>
    obtain ⟨i, queue⟩ := ip
    rw [hpop] at hturn
    dsimp only at hturn
    -- a node off the new queue was off the old one, or is the node just taken
    have hoff : ∀ k, k ∉ queue → k = i ∨ k ∉ w.queue := by
      intro k hk
      by_cases hki : k = i
      · exact Or.inl hki
      · exact Or.inr fun hmem => (D.mem_or_of_pop hpop k hmem).elim hki hk
    cases hi : w.entry i with
    | none =>
      rw [hi] at hturn
      cases hturn
      refine ⟨h.start, fun k hk => ?_⟩
      rcases hoff k hk with rfl | hk
      · intro s hs
        rw [show w.entry k = some s from hs] at hi
        cases hi
      · exact h.settled k hk
    | some s =>
      rw [hi] at hturn
      cases hturn
      obtain ⟨hlater, hall⟩ := arrivals_later (D := D) hF (F.transfer i s) (F.succs i)
        { w with queue }
      constructor
      · obtain ⟨t, ht, hst⟩ := h.start
        obtain ⟨u, hu, htu⟩ := hlater.entry 0 t ht
        exact ⟨u, hu, fun c hc => htu c (hst c hc)⟩
      · intro k hk
        rcases hoff k (fun hmem => hk (hlater.queue k hmem)) with rfl | hold
        · -- the node just taken: its state is the one that was sent out
          intro s' hs' j hj
          have hsame : w.entry k = some s' := by
            rw [← hs']
            by_contra hne
            exact hk (hlater.fresh k fun heq => hne heq.symm)
          rw [hi] at hsame
          cases hsame
          exact hall j hj
        · exact hlater.settled hk (h.settled k hold)

theorem Flow.covered_start (F : Flow σ) (Covers : σ → Γ → Prop) (start : σ) :
    F.Covered Covers start ⟨Function.update (fun _ => none) 0 (some start), [0]⟩ := by
  refine ⟨⟨start, by simp, fun _ hc => hc⟩, fun i hi s hs => ?_⟩
  have hne : i ≠ 0 := fun heq => hi (heq ▸ List.mem_cons_self)
  dsimp only at hs
  rw [Function.update_of_ne hne] at hs
  cases hs

theorem Flow.solve_settled (hF : F.Meets Covers) {n height : Nat}
    (h : F.solve D n height start = some w) :
    (∃ t, w.entry 0 = some t ∧ Weaker Covers start t) ∧ ∀ i, F.Settled Covers w i := by
  obtain ⟨hcov, hstop⟩ := rounds_invariant (fun _ _ => Flow.Covered.turn hF)
    (F.covered_start Covers start) h
  refine ⟨hcov.start, fun i => hcov.settled i ?_⟩
  unfold Flow.turn at hstop
  cases hpop : D.pop w.queue with
  | none =>
    rw [D.pop_none hpop]
    exact List.not_mem_nil
  | some ip =>
    rw [hpop] at hstop
    dsimp only at hstop
    split at hstop <;> cases hstop

end Stable

/-! ## 2. What is entered can be reached -/

section Reach

variable {F} {D}

def Flow.Reach (F : Flow σ) : Nat → Nat → Prop := Relation.ReflTransGen fun i j => j ∈ F.succs i

def Work.Entered (F : Flow σ) (w : Work σ) : Prop := ∀ i, w.entry i ≠ none → F.Reach 0 i

theorem entered_update (h : w.Entered F) (hj : F.Reach 0 j) (t : σ) (queue : List Nat) :
    Work.Entered F ⟨Function.update w.entry j (some t), queue⟩ := by
  intro k hk
  by_cases hkj : k = j
  · rw [hkj]
    exact hj
  · dsimp only at hk
    rw [Function.update_of_ne hkj] at hk
    exact h k hk

theorem entered_arrivals (out : σ) {js : List Nat} (hjs : ∀ j ∈ js, F.Reach 0 j) (h : w.Entered F) :
    (js.foldl (F.arrive D out) w).Entered F := by
  induction js generalizing w with
  | nil => exact h
  | cons j js ih =>
    obtain ⟨hj, hrest⟩ := List.forall_mem_cons.mp hjs
    refine ih hrest ?_
    unfold Flow.arrive
    split
    · exact entered_update h hj _ _
    · split
      · exact entered_update h hj _ _
      · exact h

theorem entered_turn (h : w.Entered F) (hturn : F.turn D w = some w') : w'.Entered F := by
  unfold Flow.turn at hturn
  split at hturn
  · cases hturn
  · rename_i i queue _
    split at hturn
    · cases hturn
      exact h
    · rename_i s hs
      cases hturn
      have hi : F.Reach 0 i := h i (by rw [hs]; exact Option.some_ne_none s)
      exact entered_arrivals _ (fun j hj => hi.tail hj) h

theorem Flow.solve_entered {n height : Nat} (h : F.solve D n height start = some w) :
    w.Entered F := by
  refine (rounds_invariant (fun _ _ => entered_turn) (fun i hi => ?_) h).1
  by_cases h0 : i = 0
  · rw [h0]
    exact .refl
  · dsimp only at hi
    rw [Function.update_of_ne h0] at hi
    exact absurd rfl hi

end Reach

/-! ## 3. The loop ends -/

section Termination

variable {F} {D}

/-- States of bounded height that a merge only changes downwards. -/
structure Flow.Bounded (F : Flow σ) (n bound : Nat) (height : σ → Nat) (Ok : σ → Prop) : Prop where
  succs_lt : ∀ i, i < n → ∀ j ∈ F.succs i, j < n
  transfer_ok : ∀ i s, Ok s → Ok (F.transfer i s)
  merge_ok : ∀ a b, Ok a → Ok b → Ok (F.merge a b).1
  height_le : ∀ s, Ok s → height s ≤ bound
  merge_lt : ∀ a b, Ok a → Ok b → (F.merge a b).2 = true → height (F.merge a b).1 < height a

variable {n bound : Nat} {height : σ → Nat} {Ok : σ → Prop}

/-- What an entry can still lose; a node not reached yet can lose one more than any state. -/
def weight (bound : Nat) (height : σ → Nat) : Option σ → Nat
  | none => bound + 1
  | some s => height s

/-- Queue length and all that the entries can still lose. -/
def Work.rank (n bound : Nat) (height : σ → Nat) (w : Work σ) : Nat :=
  w.queue.length + ∑ i ∈ Finset.range n, weight bound height (w.entry i)

structure Work.Fits (n : Nat) (Ok : σ → Prop) (w : Work σ) : Prop where
  entries : ∀ k s, w.entry k = some s → Ok s
  queue : ∀ k ∈ w.queue, k < n

-- One entry drops by at least one, the queue grows by at most one.
theorem rank_update {t : σ} (hj : j < n) (hlt : height t < weight bound height (w.entry j)) :
    Work.rank n bound height ⟨Function.update w.entry j (some t), D.push j w.queue⟩ ≤
      Work.rank n bound height w := by
  have hsum : ∑ i ∈ Finset.range n, weight bound height (Function.update w.entry j (some t) i) <
      ∑ i ∈ Finset.range n, weight bound height (w.entry i) := by
    apply Finset.sum_lt_sum
    · intro i _
      by_cases hij : i = j
      · subst hij
        rw [Function.update_self]
        exact hlt.le
      · rw [Function.update_of_ne hij]
    · refine ⟨j, Finset.mem_range.mpr hj, ?_⟩
      rw [Function.update_self]
      exact hlt
  have hlen := D.length_push j w.queue
  unfold Work.rank
  dsimp only
  omega

theorem fits_update {t : σ} (hw : w.Fits n Ok) (hj : j < n) (ht : Ok t) :
    Work.Fits n Ok ⟨Function.update w.entry j (some t), D.push j w.queue⟩ where
  entries := fun k s hk => by
    by_cases hkj : k = j
    · subst hkj
      dsimp only at hk
      rw [Function.update_self] at hk
      cases hk
      exact ht
    · dsimp only at hk
      rw [Function.update_of_ne hkj] at hk
      exact hw.entries k s hk
  queue := fun k hk => by
    rcases (D.mem_push j _ k).mp hk with rfl | hk
    · exact hj
    · exact hw.queue k hk

section

variable (hF : F.Bounded n bound height Ok)
include hF

theorem arrive_rank {out : σ} (hout : Ok out) (hw : w.Fits n Ok) (hj : j < n) :
    (F.arrive D out w j).Fits n Ok ∧
      Work.rank n bound height (F.arrive D out w j) ≤ Work.rank n bound height w := by
  unfold Flow.arrive
  cases hentry : w.entry j with
  | none =>
    refine ⟨fits_update hw hj hout, rank_update hj ?_⟩
    rw [hentry]
    exact Nat.lt_succ_of_le (hF.height_le out hout)
  | some t =>
    have ht := hw.entries j t hentry
    dsimp only
    split
    · rename_i hchanged
      refine ⟨fits_update hw hj (hF.merge_ok t out ht hout), rank_update hj ?_⟩
      rw [hentry]
      exact hF.merge_lt t out ht hout hchanged
    · exact ⟨hw, Nat.le_refl _⟩

theorem arrivals_rank {out : σ} (hout : Ok out) (js : List Nat) (hjs : ∀ j ∈ js, j < n)
    (hw : w.Fits n Ok) :
    (js.foldl (F.arrive D out) w).Fits n Ok ∧
      Work.rank n bound height (js.foldl (F.arrive D out) w) ≤ Work.rank n bound height w := by
  induction js generalizing w with
  | nil => exact ⟨hw, Nat.le_refl _⟩
  | cons a js ih =>
    obtain ⟨hfits, hle⟩ := arrive_rank (D := D) hF hout hw (hjs a List.mem_cons_self)
    obtain ⟨hfits', hle'⟩ := ih (fun j hj => hjs j (List.mem_cons_of_mem _ hj)) hfits
    exact ⟨hfits', hle'.trans hle⟩

theorem turn_rank (hw : w.Fits n Ok) (hturn : F.turn D w = some w') :
    w'.Fits n Ok ∧ Work.rank n bound height w' < Work.rank n bound height w := by
  unfold Flow.turn at hturn
  cases hpop : D.pop w.queue with
  | none =>
    rw [hpop] at hturn
    cases hturn
  | some ip =>
    obtain ⟨i, queue⟩ := ip
    rw [hpop] at hturn
    dsimp only at hturn
    have hshort := D.length_of_pop hpop
    obtain ⟨hmem, hsub⟩ := D.mem_of_pop hpop
    have hrest : Work.Fits n Ok { w with queue } :=
      ⟨hw.entries, fun k hk => hw.queue k (hsub k hk)⟩
    have hdrop : Work.rank n bound height { w with queue } < Work.rank n bound height w :=
      Nat.add_lt_add_right hshort _
    cases hi : w.entry i with
    | none =>
      rw [hi] at hturn
      cases hturn
      exact ⟨hrest, hdrop⟩
    | some s =>
      rw [hi] at hturn
      cases hturn
      obtain ⟨hfits, hle⟩ := arrivals_rank (D := D) hF
        (hF.transfer_ok i s (hw.entries i s hi)) (F.succs i)
        (hF.succs_lt i (hw.queue i hmem)) hrest
      exact ⟨hfits, hle.trans_lt hdrop⟩

end

-- the loop starts with one queued node
theorem start_fits (hn : 0 < n) (hstart : Ok start) :
    Work.Fits n Ok ⟨Function.update (fun _ => none) 0 (some start), [0]⟩ := by
  constructor
  · intro k s hk
    by_cases hk0 : k = 0
    · subst hk0
      dsimp only at hk
      rw [Function.update_self] at hk
      cases hk
      exact hstart
    · dsimp only at hk
      rw [Function.update_of_ne hk0] at hk
      cases hk
  · intro k hk
    rw [List.mem_singleton.mp hk]
    exact hn

theorem Flow.solve_ok (hF : F.Bounded n bound height Ok) (hn : 0 < n) (hstart : Ok start)
    (h : F.solve D n bound start = some w) :
    ∀ i s, w.entry i = some s → Ok s := by
  obtain ⟨hfits, -⟩ := rounds_invariant (fun _ _ hw hturn => (turn_rank hF hw hturn).1)
    (start_fits hn hstart) h
  exact hfits.entries

theorem Flow.solve_isSome (hF : F.Bounded n bound height Ok) (hn : 0 < n) (hstart : Ok start) :
    ∃ w, F.solve D n bound start = some w := by
  have hranking : Ranking (F.turn D) (fun c => (F.turn D c).isSome)
      (fun w r => w.Fits n Ok ∧ Work.rank n bound height w ≤ r) := by
    constructor
    · intro w r _ hstop hevent
      rw [hstop] at hevent
      cases hevent
    · intro w w' r ⟨hfits, hle⟩ hturn
      obtain ⟨hfits', hlt⟩ := turn_rank hF hfits hturn
      refine ⟨_, ⟨hfits', Nat.le_refl _⟩, ?_⟩
      split <;> omega
  -- one queued node, and at most `bound + 1` to lose at each node
  have hrank : Work.rank n bound height
      ⟨Function.update (fun _ => none) 0 (some start), [0]⟩ ≤ n * (bound + 1) + 1 := by
    have hsum : ∑ i ∈ Finset.range n,
      weight bound height (Function.update (fun _ => none) 0 (some start) i) ≤
          ∑ _i ∈ Finset.range n, (bound + 1) := by
      apply Finset.sum_le_sum
      intro i _
      by_cases hi0 : i = 0
      · subst hi0
        rw [Function.update_self]
        exact (hF.height_le start hstart).trans (Nat.le_succ _)
      · rw [Function.update_of_ne hi0]
        exact Nat.le_refl _
    rw [Finset.sum_const, Finset.card_range, smul_eq_mul] at hsum
    unfold Work.rank
    rw [List.length_singleton]
    dsimp only
    omega
  exact hranking.rounds_isSome ⟨start_fits hn hstart, hrank⟩ (Nat.lt_succ_self _)

/-! ## 4. What a solution is -/

/-- The start arrives at node 0, every edge is covered, and every state is within bounds. -/
structure Solved {Γ : Type*} (F : Flow σ) (Covers : σ → Γ → Prop) (Ok : σ → Prop) (start : σ)
    (entry : Nat → Option σ) : Prop where
  start : ∃ t, entry 0 = some t ∧ Weaker Covers start t
  edge : ∀ i s, entry i = some s → ∀ j ∈ F.succs i,
    ∃ t, entry j = some t ∧ Weaker Covers (F.transfer i s) t
  ok : ∀ i s, entry i = some s → Ok s

theorem solved_of_solve {Γ : Type*} {Covers : σ → Γ → Prop} (hmeets : F.Meets Covers)
    (hbounded : F.Bounded n bound height Ok) (hn : 0 < n) (hstart : Ok start)
    (h : F.solve D n bound start = some w) :
    Solved F Covers Ok start w.entry := by
  obtain ⟨hentry, hsettled⟩ := Flow.solve_settled hmeets h
  exact ⟨hentry, hsettled, Flow.solve_ok hbounded hn hstart h⟩

end Termination

end Lib
