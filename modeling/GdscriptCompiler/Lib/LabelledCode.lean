import Mathlib.Algebra.Order.Ring.Int
import Mathlib.Data.List.Basic

/-!
# LabelledCode — straight-line code with labels, and rewriting it piece by piece

An instruction falls through, goes to a label or returns, and may leave observations.
-/

namespace Lib

inductive Exit (L V : Type) where
  | next
  | goto (l : L)
  | ret (v : V)

structure Machine (I F L O V : Type) where
  labelOf : I → Option L
  exec : I → F → Option (List O × F × Exit L V)

structure Config (F V : Type) where
  pc : Nat
  frame : F
  result : Option V

namespace Machine

variable {I F L O V : Type} (M : Machine I F L O V)

/-! ## 1. Blocks -/

/-- A list of instructions from its first to where control leaves it, with the number executed. -/
def block : List I → F → Option (Nat × List O × F × Exit L V)
  | [], frame => some (0, [], frame, .next)
  | i :: rest, frame =>
    match M.exec i frame with
    | none => none
    | some (o, frame', .next) =>
      (block rest frame').map fun (n, os, frame'', flow) => (n + 1, o ++ os, frame'', flow)
    | some (o, frame', flow) => some (1, o, frame', flow)

variable {M} {i : I} {rest mid before after : List I} {frame frame' frame'' : F} {n m : Nat}
  {o os os' : List O} {flow : Exit L V}

theorem block_cons_next (h : M.exec i frame = some (o, frame', .next)) :
    M.block (i :: rest) frame =
      (M.block rest frame').map fun (n, os, frame'', flow) => (n + 1, o ++ os, frame'', flow) := by
  rw [block, h]

theorem block_cons_leaves (h : M.exec i frame = some (o, frame', flow)) (hflow : flow ≠ .next) :
    M.block (i :: rest) frame = some (1, o, frame', flow) := by
  rw [block, h]
  cases flow with
  | next => exact absurd rfl hflow
  | goto l => rfl
  | ret v => rfl

theorem block_single (h : M.exec i frame = some (o, frame', flow)) :
    M.block [i] frame = some (1, o, frame', flow) := by
  cases flow with
  | next =>
    rw [block_cons_next h]
    simp [block]
  | goto l => exact block_cons_leaves h nofun
  | ret v => exact block_cons_leaves h nofun

theorem exec_of_block_single (h : M.block [i] frame = some (n, os, frame', flow)) :
    n = 1 ∧ M.exec i frame = some (os, frame', flow) := by
  cases hexec : M.exec i frame with
  | none => rw [block, hexec] at h; cases h
  | some r =>
    obtain ⟨o, frame₁, flow₁⟩ := r
    rw [block_single hexec] at h
    cases h
    exact ⟨rfl, rfl⟩

theorem block_cons_cases (h : M.block (i :: rest) frame = some (n, os, frame'', flow)) :
    (∃ o frame' m os', M.exec i frame = some (o, frame', .next) ∧ n = m + 1 ∧ os = o ++ os' ∧
        M.block rest frame' = some (m, os', frame'', flow)) ∨
      (M.exec i frame = some (os, frame'', flow) ∧ flow ≠ .next ∧ n = 1) := by
  cases hexec : M.exec i frame with
  | none => rw [block, hexec] at h; cases h
  | some r =>
    obtain ⟨o, frame₁, flow₁⟩ := r
    by_cases hflow : flow₁ = .next
    · subst hflow
      rw [block_cons_next hexec] at h
      obtain ⟨⟨m, os', frame₂, flow₂⟩, hrest, heq⟩ := Option.map_eq_some_iff.mp h
      cases heq
      exact .inl ⟨o, frame₁, m, os', rfl, rfl, rfl, hrest⟩
    · rw [block_cons_leaves hexec hflow] at h
      cases h
      exact .inr ⟨rfl, hflow, rfl⟩

theorem block_pos (h : M.block mid frame = some (n, os, frame', flow)) (hflow : flow ≠ .next) :
    0 < n := by
  cases mid with
  | nil => cases h; exact absurd rfl hflow
  | cons i mid =>
    rcases block_cons_cases h with ⟨o, frame₁, m, os', -, rfl, -, -⟩ | ⟨-, -, rfl⟩
    · exact Nat.succ_pos m
    · exact Nat.one_pos

/-! ## 2. Runs -/

variable (M) [DecidableEq L]

def target (code : List I) (l : L) : Option Nat := code.findIdx? fun i => M.labelOf i = some l

/-- Where a frame goes on; `next` is the place after the instruction. -/
def lands (code : List I) (next : Nat) (frame : F) : Exit L V → Option (Config F V)
  | .next => some ⟨next, frame, none⟩
  | .goto l => (M.target code l).map fun t => ⟨t, frame, none⟩
  | .ret v => some ⟨0, frame, some v⟩

def step (code : List I) (c : Config F V) : Option (List O × Config F V) :=
  if c.result.isSome then none
  else
    match code[c.pc]? with
    | none => none
    | some i =>
      match M.exec i c.frame with
      | none => none
      | some (o, frame, flow) => (M.lands code (c.pc + 1) frame flow).map fun c' => (o, c')

inductive Steps (code : List I) : Config F V → Nat → List O → Config F V → Prop
  | refl (c : Config F V) : Steps code c 0 [] c
  | head {c c' c'' : Config F V} {o os : List O} {n : Nat} (h : M.step code c = some (o, c'))
      (rest : Steps code c' n os c'') : Steps code c (n + 1) (o ++ os) c''

def Halted (code : List I) (c : Config F V) : Prop := c.result.isSome = true ∨ code.length ≤ c.pc

variable {M} {code : List I} {c c' c'' : Config F V}

theorem Steps.trans (h : M.Steps code c n os c') (h' : M.Steps code c' m os' c'') :
    M.Steps code c (n + m) (os ++ os') c'' := by
  induction h with
  | refl c => simpa using h'
  | head hstep _ ih =>
    rw [List.append_assoc, Nat.add_right_comm]
    exact .head hstep (ih h')

theorem step_of_halted (h : Halted code c) : M.step code c = none := by
  unfold step
  rcases h with h | h
  · rw [if_pos h]
  · rw [List.getElem?_eq_none h]
    split <;> rfl

theorem Steps.eq_of_halted (h : M.Steps code c n os c') (hc : Halted code c) :
    n = 0 ∧ os = [] ∧ c' = c := by
  cases h with
  | refl => exact ⟨rfl, rfl, rfl⟩
  | head hstep _ => rw [step_of_halted hc] at hstep; cases hstep

theorem Steps.eq_of_completed (h : M.Steps code c n os c') (hc' : Halted code c')
    (h' : M.Steps code c m os' c'') (hc'' : Halted code c'') :
    os = os' ∧ c' = c'' := by
  induction h generalizing m os' with
  | refl c =>
    obtain ⟨-, rfl, rfl⟩ := h'.eq_of_halted hc'
    exact ⟨rfl, rfl⟩
  | head hstep _ ih =>
    cases h' with
    | refl =>
      rw [step_of_halted hc''] at hstep
      cases hstep
    | head hstep' hrest =>
      rw [hstep] at hstep'
      cases hstep'
      obtain ⟨hos, hc⟩ := ih hc' hrest
      exact ⟨by rw [hos], hc⟩

theorem step_at {pc : Nat} (hi : code[pc]? = some i) (frame : F) :
    M.step code ⟨pc, frame, none⟩ = (M.exec i frame).bind fun (o, frame', flow) =>
      (M.lands code (pc + 1) frame' flow).map fun c' => (o, c') := by
  simp only [step, Option.isSome_none, Bool.false_eq_true, if_false, hi]
  cases M.exec i frame <;> rfl

-- one step into the middle of the code
theorem step_eq (hcode : code = before ++ i :: after) (frame : F) :
    M.step code ⟨before.length, frame, none⟩ = (M.exec i frame).bind fun (o, frame', flow) =>
      (M.lands code (before.length + 1) frame' flow).map fun c' => (o, c') :=
  step_at (by simp [hcode]) frame

theorem steps_of_block (hcode : code = before ++ mid ++ after)
    (h : M.block mid frame = some (n, os, frame', flow))
    (hlands : M.lands code (before.length + mid.length) frame' flow = some c) :
    M.Steps code ⟨before.length, frame, none⟩ n os c := by
  induction mid generalizing before frame n os with
  | nil =>
    cases h
    cases hlands
    exact .refl _
  | cons i mid ih =>
    have hsplit : code = before ++ i :: (mid ++ after) := by simp [hcode]
    have hstep := step_eq (M := M) hsplit frame
    rcases block_cons_cases h with ⟨o, frame₁, m, os', hexec, rfl, rfl, hmid⟩ | ⟨hexec, hflow, rfl⟩
    · simp only [hexec, Option.bind_some] at hstep
      refine .head hstep ?_
      rw [show before.length + 1 = (before ++ [i]).length by simp]
      refine ih (by simp [hcode]) hmid ?_
      rw [← hlands]
      congr 1
      simp only [List.length_append, List.length_cons, List.length_nil]
      omega
    · have hland : M.lands code (before.length + 1) frame' flow = some c := by
        cases flow with
        | next => exact absurd rfl hflow
        | goto l => exact hlands
        | ret v => exact hlands
      simp only [hexec, Option.bind_some, hland] at hstep
      simpa using Steps.head hstep (.refl c)

theorem block_of_steps (hcode : code = before ++ mid ++ after)
    (h : M.Steps code ⟨before.length, frame, none⟩ n os c) (hc : Halted code c) :
    ∃ m os₁ frame₁ flow k os₂ c₁, M.block mid frame = some (m, os₁, frame₁, flow) ∧
      M.lands code (before.length + mid.length) frame₁ flow = some c₁ ∧
      M.Steps code c₁ k os₂ c ∧ n = m + k ∧ os = os₁ ++ os₂ := by
  induction mid generalizing before frame n os with
  | nil => exact ⟨0, [], frame, .next, n, os, _, rfl, rfl, h, by simp, rfl⟩
  | cons i mid ih =>
    have hsplit : code = before ++ i :: (mid ++ after) := by simp [hcode]
    cases h with
    | refl =>
      rcases hc with hc | hc
      · cases hc
      · have hlen : before.length < code.length := by simp [hsplit]
        exact absurd hc (Nat.not_le.mpr hlen)
    | @head _ c₁ _ o os' k hstep hrest =>
      rw [step_eq hsplit] at hstep
      cases hexec : M.exec i frame with
      | none => rw [hexec] at hstep; cases hstep
      | some r =>
        obtain ⟨o₁, frame₁, flow₁⟩ := r
        simp only [hexec, Option.bind_some] at hstep
        obtain ⟨c₂, hland, heq⟩ := Option.map_eq_some_iff.mp hstep
        cases heq
        by_cases hflow : flow₁ = .next
        · subst hflow
          cases hland
          rw [show before.length + 1 = (before ++ [i]).length by simp] at hrest
          obtain ⟨m, os₁, frame₂, flow, k', os₂, c₃, hmid, hland, hsteps, rfl, rfl⟩ :=
            ih (by simp [hcode]) hrest
          refine ⟨m + 1, o ++ os₁, frame₂, flow, k', os₂, c₃, ?_, ?_, hsteps, by omega, by simp⟩
          · rw [block_cons_next hexec, hmid]
            rfl
          · rw [← hland]
            congr 1
            simp only [List.length_append, List.length_cons, List.length_nil]
            omega
        · refine ⟨1, o, frame₁, flow₁, k, os', c₁, block_cons_leaves hexec hflow, ?_, hrest,
            by omega, rfl⟩
          cases flow₁ with
          | next => exact absurd rfl hflow
          | goto l => exact hland
          | ret v => exact hland

/-! ## 3. Runs that meet a condition -/

/-- The machine that stops where an instruction is not allowed. -/
def restrict (M : Machine I F L O V) (allowed : I → F → Bool) : Machine I F L O V where
  labelOf := M.labelOf
  exec i frame := if allowed i frame then M.exec i frame else none

omit [DecidableEq L] in
theorem restrict_true : (M.restrict fun _ _ => true) = M := rfl

omit [DecidableEq L] in
theorem exec_of_restrict {allowed : I → F → Bool}
    (h : (M.restrict allowed).exec i frame = some (o, frame', flow)) :
    allowed i frame = true ∧ M.exec i frame = some (o, frame', flow) := by
  unfold restrict at h
  dsimp only at h
  split at h
  · exact ⟨by assumption, h⟩
  · cases h

theorem Steps.restrict {allowed : I → F → Bool} (h : M.Steps code c n os c')
    (hall : ∀ m os' d, M.Steps code c m os' d → d.result = none → ∀ i, code[d.pc]? = some i →
      allowed i d.frame = true) :
    (M.restrict allowed).Steps code c n os c' := by
  induction h with
  | refl c => exact .refl c
  | @head c c₁ _ o os n hstep _ ih =>
    refine .head ?_ (ih fun m os' d hsteps => hall _ _ d (.head hstep hsteps))
    have hsome := hstep
    obtain ⟨pc, frame, result⟩ := c
    cases result with
    | some v => rw [step_of_halted (.inl rfl)] at hsome; cases hsome
    | none =>
      cases hi : code[pc]? with
      | none => rw [step_of_halted (.inr (List.getElem?_eq_none_iff.mp hi))] at hsome; cases hsome
      | some i =>
        rw [step_at hi] at hsome ⊢
        unfold Machine.restrict
        dsimp only
        rw [hall 0 [] _ (.refl _) rfl i hi, if_pos rfl]
        exact hsome

/-- A machine that does what `M` does wherever `M` does not get stuck has the runs of `M`. -/
theorem Steps.mono {M' : Machine I F L O V} (hlabels : M'.labelOf = M.labelOf)
    (hexec : ∀ i frame r, M.exec i frame = some r → M'.exec i frame = some r)
    (h : M.Steps code c n os c') :
    M'.Steps code c n os c' := by
  have hlands (next : Nat) (frame : F) (flow : Exit L V) :
      M'.lands code next frame flow = M.lands code next frame flow := by
    cases flow with
    | goto l => unfold lands target; rw [hlabels]
    | _ => rfl
  induction h with
  | refl c => exact .refl c
  | head hstep _ ih =>
    refine .head ?_ ih
    unfold step at hstep ⊢
    split at hstep
    · cases hstep
    · rw [if_neg (by assumption)]
      split at hstep
      · cases hstep
      · split at hstep
        · cases hstep
        · rename_i hran
          rw [hexec _ _ _ hran]
          dsimp only
          rw [hlands]
          exact hstep

end Machine

end Lib
