import GdscriptCompiler.Lib.LabelledCode

/-!
# Iteration — counted loops and the labelled code that runs them

Code refines a loop when one relation holds at the head of every iteration and another inside the
body.
-/

namespace Lib

/-- How a body is left: on to the next iteration, out of the loop, or out of the function. -/
inductive Leave (V : Type) where
  | again
  | breaks
  | returns (v : V)

section Loop

variable {S O V : Type} (enter : Nat → S → Option S) (body : S → List O → S → Leave V → Prop)

/-- The loop comes to the head of iteration `k`. -/
inductive Comes (s₀ : S) : Nat → List O → S → Prop
  | start : Comes s₀ 0 [] s₀
  | again {k : Nat} {os o : List O} {s s' s'' : S} (h : Comes s₀ k os s) (henter : enter k s = some s')
      (hbody : body s' o s'' .again) : Comes s₀ (k + 1) (os ++ o) s''

/-- The loop is left, with the value its body returned if it did. -/
inductive Completes (s₀ : S) : List O → S → Option V → Prop
  | runsOut {k : Nat} {os : List O} {s : S} (h : Comes enter body s₀ k os s)
    (henter : enter k s = none) :
      Completes s₀ os s none
  | breaks {k : Nat} {os o : List O} {s s' s'' : S} (h : Comes enter body s₀ k os s)
      (henter : enter k s = some s') (hbody : body s' o s'' .breaks) : Completes s₀ (os ++ o) s'' none
  | returns {k : Nat} {os o : List O} {s s' s'' : S} {v : V} (h : Comes enter body s₀ k os s)
      (henter : enter k s = some s') (hbody : body s' o s'' (.returns v)) :
      Completes s₀ (os ++ o) s'' (some v)

end Loop

namespace Machine

/-! ## 1. Code that runs a loop -/

section Refines

variable {I F L O V S : Type} [DecidableEq L]

/-- What code has to do at the head of an iteration and inside the body. -/
structure Refines (M : Machine I F L O V) (code : List I) (enter : Nat → S → Option S)
    (body : S → List O → S → Leave V → Prop) (head inside : Nat → S → Config F V → Prop)
    (left : S → Option V → Config F V → Prop) : Prop where
  enters : ∀ {k s s' c}, head k s c → enter k s = some s' →
    ∃ n c', M.Steps code c n [] c' ∧ inside k s' c'
  ends : ∀ {k s c}, head k s c → enter k s = none → ∃ n c', M.Steps code c n [] c' ∧ left s none c'
  again : ∀ {k s os s' c}, inside k s c → body s os s' .again →
    ∃ n c', M.Steps code c n os c' ∧ head (k + 1) s' c'
  breaks : ∀ {k s os s' c}, inside k s c → body s os s' .breaks →
    ∃ n c', M.Steps code c n os c' ∧ left s' none c'
  returns : ∀ {k s os s' v c}, inside k s c → body s os s' (.returns v) →
    ∃ n c', M.Steps code c n os c' ∧ left s' (some v) c'

variable {M : Machine I F L O V} {code : List I} {enter : Nat → S → Option S}
  {body : S → List O → S → Leave V → Prop} {head inside : Nat → S → Config F V → Prop}
  {left : S → Option V → Config F V → Prop} {s₀ s s' : S} {c₀ : Config F V} {k : Nat} {os : List O}
  {r : Option V}

theorem Steps.trans_silent {c c' c'' : Config F V} {n m : Nat} (h : M.Steps code c n os c')
    (h' : M.Steps code c' m [] c'') :
    M.Steps code c (n + m) os c'' := by
  have hsteps := h.trans h'
  rwa [List.append_nil] at hsteps

section

variable (R : Refines M code enter body head inside left) (hhead : head 0 s₀ c₀)
include R hhead

theorem Refines.comes (h : Comes enter body s₀ k os s) :
    ∃ n c, M.Steps code c₀ n os c ∧ head k s c := by
  induction h with
  | start => exact ⟨0, c₀, .refl c₀, hhead⟩
  | again _ henter hbody ih =>
    obtain ⟨n, c, hsteps, hc⟩ := ih
    obtain ⟨m, c', henters, hinside⟩ := R.enters hc henter
    obtain ⟨m', c'', hagain, hc''⟩ := R.again hinside hbody
    exact ⟨_, c'', (hsteps.trans_silent henters).trans hagain, hc''⟩

theorem Refines.comes_inside (h : Comes enter body s₀ k os s) (henter : enter k s = some s') :
    ∃ n c, M.Steps code c₀ n os c ∧ inside k s' c := by
  obtain ⟨n, c, hsteps, hc⟩ := R.comes hhead h
  obtain ⟨m, c', henters, hinside⟩ := R.enters hc henter
  exact ⟨_, c', hsteps.trans_silent henters, hinside⟩

theorem Refines.completes (h : Completes enter body s₀ os s r) :
    ∃ n c, M.Steps code c₀ n os c ∧ left s r c := by
  cases h with
  | runsOut h henter =>
    obtain ⟨n, c, hsteps, hc⟩ := R.comes hhead h
    obtain ⟨m, c', hends, hleft⟩ := R.ends hc henter
    exact ⟨_, c', hsteps.trans_silent hends, hleft⟩
  | breaks h henter hbody =>
    obtain ⟨n, c, hsteps, hc⟩ := R.comes_inside hhead h henter
    obtain ⟨m, c', hbreaks, hleft⟩ := R.breaks hc hbody
    exact ⟨_, c', hsteps.trans hbreaks, hleft⟩
  | returns h henter hbody =>
    obtain ⟨n, c, hsteps, hc⟩ := R.comes_inside hhead h henter
    obtain ⟨m, c', hreturns, hleft⟩ := R.returns hc hbody
    exact ⟨_, c', hsteps.trans hreturns, hleft⟩

end

end Refines

/-! ## 2. Positions as the code that is left -/

section Runs

variable {I F L O V : Type} [DecidableEq L] (M : Machine I F L O V) (code : List I)

/-- The configuration at the start of a suffix of the code. -/
def place (rest : List I) (frame : F) : Config F V := ⟨code.length - rest.length, frame, none⟩

/-- Running from one suffix of the code to another; a jump goes to a suffix that starts with its
label. -/
inductive Runs : List I → F → List O → List I → F → Prop
  | refl (rest : List I) (frame : F) : Runs rest frame [] rest frame
  | next {i : I} {rest rest' : List I} {frame frame' frame'' : F} {o os : List O}
      (hexec : M.exec i frame = some (o, frame', .next)) (h : Runs rest frame' os rest' frame'') :
      Runs (i :: rest) frame (o ++ os) rest' frame''
  | goto {i j : I} {rest rest₁ rest' : List I} {frame frame' frame'' : F} {o os : List O} {l : L}
      (hexec : M.exec i frame = some (o, frame', .goto l)) (hj : M.labelOf j = some l)
      (hplace : j :: rest₁ <:+ code) (h : Runs (j :: rest₁) frame' os rest' frame'') :
      Runs (i :: rest) frame (o ++ os) rest' frame''

variable {M code}

theorem target_suffix {j : I} {rest : List I} {l : L} (hlabels : (code.filterMap M.labelOf).Nodup)
    (hj : M.labelOf j = some l) (h : j :: rest <:+ code) :
    M.target code l = some (code.length - (j :: rest).length) := by
  obtain ⟨before, rfl⟩ := h
  have hbefore : ∀ i ∈ before, M.labelOf i ≠ some l := by
    intro i hi hl
    rw [List.filterMap_append, List.filterMap_cons_some hj] at hlabels
    have happ := (List.nodup_append.mp hlabels).2.2 l (List.mem_filterMap.mpr ⟨i, hi, hl⟩) l
      (List.mem_cons_self ..)
    exact happ rfl
  rw [target, List.length_append, Nat.add_sub_cancel]
  refine List.findIdx?_eq_some_iff_getElem.mpr ⟨by simp, ?_, ?_⟩
  · simp [hj]
  · intro m hm
    simpa [List.getElem_append_left hm] using hbefore _ (List.getElem_mem hm)

theorem step_place {i : I} {rest : List I} (h : i :: rest <:+ code) (frame : F) :
    M.step code (place code (i :: rest) frame) = (M.exec i frame).bind fun (o, frame', flow) =>
      (M.lands code (code.length - rest.length) frame' flow).map fun c' => (o, c') := by
  obtain ⟨before, rfl⟩ := h
  have hplace : (before ++ i :: rest).length - (i :: rest).length = before.length := by simp
  have hnext : (before ++ i :: rest).length - rest.length = before.length + 1 := by
    simp only [List.length_append, List.length_cons]
    omega
  rw [place, hplace, hnext]
  exact step_eq rfl frame

theorem Runs.steps {rest rest' : List I} {frame frame' : F} {os : List O}
    (hlabels : (code.filterMap M.labelOf).Nodup) (h : M.Runs code rest frame os rest' frame')
    (hrest : rest <:+ code) :
    ∃ n, M.Steps code (place code rest frame) n os (place code rest' frame') := by
  induction h with
  | refl rest frame => exact ⟨0, .refl _⟩
  | next hexec _ ih =>
    obtain ⟨n, hsteps⟩ := ih ((List.suffix_cons _ _).trans hrest)
    refine ⟨n + 1, .head ?_ hsteps⟩
    rw [step_place hrest, hexec]
    rfl
  | goto hexec hj hplace _ ih =>
    obtain ⟨n, hsteps⟩ := ih hplace
    refine ⟨n + 1, .head ?_ hsteps⟩
    rw [step_place hrest, hexec]
    dsimp only [Option.bind_some, lands]
    rw [target_suffix hlabels hj hplace]
    rfl

omit [DecidableEq L] in
theorem Runs.trans {rest rest' rest'' : List I} {frame frame' frame'' : F} {os os' : List O}
    (h : M.Runs code rest frame os rest' frame')
    (h' : M.Runs code rest' frame' os' rest'' frame'') :
    M.Runs code rest frame (os ++ os') rest'' frame'' := by
  induction h with
  | refl rest frame => exact h'
  | next hexec _ ih =>
    rw [List.append_assoc]
    exact .next hexec (ih h')
  | goto hexec hj hplace _ ih =>
    rw [List.append_assoc]
    exact .goto hexec hj hplace (ih h')

end Runs

end Machine

end Lib
