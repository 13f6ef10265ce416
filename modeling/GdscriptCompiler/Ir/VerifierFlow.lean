import GdscriptCompiler.Ir.Accepted

/-!
# VerifierFlow — the two dataflow problems of the verifier

Both are must-analyses: instances of the general worklist.
-/

namespace Ir

open Lib

/-! ## 1. Merging -/

section Merge

variable {α β : Type}

-- Positions a merge changes are positions that stop counting.
theorem countP_zipWith (p : α → Bool) (merge : α → β → α)
    (hkeep : ∀ a b, p (merge a b) = true → merge a b = a)
    (hdrop : ∀ a b, p (merge a b) = false → p a = true ∨ merge a b = a) (l : List α) (l' : List β)
    (hlen : l.length = l'.length) :
    (List.zipWith merge l l').countP p ≤ l.countP p ∧
      (List.zipWith merge l l' ≠ l → (List.zipWith merge l l').countP p < l.countP p) := by
  induction l generalizing l' with
  | nil =>
    rw [List.zipWith_nil_left]
    exact ⟨Nat.le_refl _, fun h => absurd rfl h⟩
  | cons a l ih =>
    cases l' with
    | nil => cases hlen
    | cons b l' =>
      obtain ⟨hle, hlt⟩ := ih l' (Nat.succ.inj hlen)
      rw [List.zipWith_cons_cons, List.countP_cons, List.countP_cons]
      cases hp : p (merge a b) with
      | true =>
        have hsame := hkeep a b hp
        rw [hsame] at hp ⊢
        rw [hp]
        refine ⟨Nat.add_le_add_right hle _, fun hne => Nat.add_lt_add_right (hlt ?_) _⟩
        intro heq
        exact hne (congrArg _ heq)
      | false =>
        rw [if_neg Bool.false_ne_true, Nat.add_zero]
        refine ⟨Nat.le_add_right_of_le hle, fun hne => ?_⟩
        rcases hdrop a b hp with ha | hsame
        · rw [ha, if_pos rfl]
          omega
        · rw [hsame] at hne
          apply Nat.lt_add_right
          apply hlt
          intro heq
          exact hne (congrArg _ heq)

end Merge

theorem mergeType_cases (mine other : TypeHint) :
    mergeType mine other = mine ∨ mergeType mine other = typeUnknown ∧ mine ≠ typeUnknown := by
  unfold mergeType
  split
  · rename_i h
    exact Or.inr ⟨rfl, h.1⟩
  · exact Or.inl rfl

/-! ## 2. Successors -/

section Successors

variable {strings : Option StringTable} {f : IRFunction}

theorem labelIndex_lt {name : String} {i : Nat} (h : f.labelIndex strings name = some i) :
    i < f.instructions.length := by
  unfold IRFunction.labelIndex at h
  obtain ⟨⟨instr, j⟩, hfind, rfl⟩ := Option.map_eq_some_iff.mp h
  have hmem := List.mem_reverse.mp (List.mem_of_find?_eq_some hfind)
  exact (List.getElem?_eq_some_iff.mp (List.mem_zipIdx_iff_getElem?.mp hmem)).1

theorem blocks_length (strings : Option StringTable) (f : IRFunction) :
    (f.blocks strings).length = f.leaders.length := by
  unfold IRFunction.blocks
  rw [List.length_map, List.length_zipIdx]

theorem blockOf_lt {i : Nat} (hi : i < f.instructions.length) : f.blockOf i < f.leaders.length := by
  obtain ⟨block, hblock⟩ := exists_inBlock none f hi
  rw [← blocks_length none f]
  exact (List.getElem?_eq_some_iff.mp hblock.found).1

theorem successorsOf_lt {b : Nat} {last : IRInstruction} :
    ∀ j ∈ f.successorsOf strings b last, j < f.leaders.length := by
  intro j hj
  unfold IRFunction.successorsOf at hj
  rcases List.mem_append.mp hj with hj | hj
  · obtain ⟨name, -, hname⟩ := List.mem_filterMap.mp hj
    obtain ⟨i, hi, rfl⟩ := Option.map_eq_some_iff.mp hname
    exact blockOf_lt (labelIndex_lt hi)
  · split at hj
    · rename_i hnext
      rw [List.mem_singleton.mp hj]
      simp only [Bool.and_eq_true, decide_eq_true_eq] at hnext
      exact hnext.2
    · cases hj

variable {block : BasicBlock}

theorem successors_lt {b : Nat} (h : (f.blocks strings)[b]? = some block) :
    ∀ j ∈ block.successors, j < f.leaders.length := by
  unfold IRFunction.blocks at h
  rw [List.getElem?_map] at h
  obtain ⟨⟨start, b'⟩, -, rfl⟩ := Option.map_eq_some_iff.mp h
  dsimp only
  cases f.instructions[f.leaders.getD (b' + 1) f.instructions.length - 1]? with
  | none =>
    intro j hj
    cases hj
  | some last => exact successorsOf_lt

theorem mem_block_instructions {p : IRInstruction × Nat} (h : p ∈ block.instructions f) :
    f.instructions[p.2]? = some p.1 :=
  List.mem_zipIdx_iff_getElem?.mp (List.mem_of_mem_take (List.mem_of_mem_drop h))

end Successors

/-! ## 3. Definedness -/

/-- Every register of the state is among those the run has written. -/
def CoversDefined (state : RegisterState) (written : Int → Prop) : Prop :=
  ∀ r : Nat, state.defined.getD r false = true → written r

def RegisterState.Sized (f : IRFunction) (state : RegisterState) : Prop :=
  state.defined.length = f.registerCount ∧ state.type.length = f.registerCount

def RegisterState.height (state : RegisterState) : Nat :=
  state.defined.countP id + state.type.countP (· ≠ typeUnknown)

section Definedness

variable {strings : Option StringTable} {f : IRFunction}

theorem getD_zipWith_and {l l' : List Bool} {r : Nat}
    (h : (List.zipWith (· && ·) l l').getD r false = true) :
    l.getD r false = true ∧ l'.getD r false = true := by
  rw [List.getD_eq_getElem?_getD, List.getElem?_zipWith] at h
  rw [List.getD_eq_getElem?_getD, List.getD_eq_getElem?_getD]
  cases hl : l[r]? with
  | none =>
    rw [hl] at h
    cases h
  | some a =>
    cases hl' : l'[r]? with
    | none =>
      rw [hl, hl'] at h
      cases h
    | some b =>
      rw [hl, hl'] at h
      exact Bool.and_eq_true_iff.mp h

theorem definednessFlow_meets : (f.definednessFlow strings).Meets CoversDefined where
  left := fun _ _ _ hc r hr => hc r (getD_zipWith_and hr).1
  right := fun _ _ _ hc r hr => hc r (getD_zipWith_and hr).2
  same := fun _ _ h => Decidable.not_not.mp (of_decide_eq_false h)

variable {state : RegisterState}

theorem sized_apply (h : state.Sized f) (instr : IRInstruction) : (state.apply instr).Sized f := by
  unfold RegisterState.apply
  dsimp only
  split
  · exact ⟨by rw [List.length_set]; exact h.1, by rw [List.length_set]; exact h.2⟩
  · exact h

theorem sized_foldl (h : state.Sized f) (instrs : List (IRInstruction × Nat)) :
    (instrs.foldl (fun state p => state.apply p.1) state).Sized f := by
  induction instrs generalizing state with
  | nil => exact h
  | cons p instrs ih => exact ih (sized_apply h p.1)

theorem mergeFrom_height {a b : RegisterState} (ha : a.Sized f) (hb : b.Sized f)
    (hchanged : (a.mergeFrom b).2 = true) :
    (a.mergeFrom b).1.height < a.height := by
  have hne : (a.mergeFrom b).1 ≠ a := of_decide_eq_true hchanged
  obtain ⟨hle, hlt⟩ := countP_zipWith id (fun x y : Bool => x && y)
    (fun x y h => by revert h; cases x <;> cases y <;> decide)
    (fun x y h => by revert h; cases x <;> cases y <;> decide) a.defined b.defined
    (ha.1.trans hb.1.symm)
  obtain ⟨hle', hlt'⟩ := countP_zipWith (fun t => decide (t ≠ typeUnknown)) mergeType
    (fun x y h => by
      rcases mergeType_cases x y with hc | ⟨hc, -⟩
      · exact hc
      · exact absurd hc (of_decide_eq_true h))
    (fun x y h => by
      rcases mergeType_cases x y with hc | ⟨-, hx⟩
      · exact Or.inr hc
      · exact Or.inl (decide_eq_true hx)) a.type b.type (ha.2.trans hb.2.symm)
  unfold RegisterState.height
  unfold RegisterState.mergeFrom at hne ⊢
  dsimp only at hne ⊢
  by_cases hdef : List.zipWith (fun x y : Bool => x && y) a.defined b.defined = a.defined
  · have htype : List.zipWith mergeType a.type b.type ≠ a.type := by
      intro heq
      apply hne
      rw [hdef, heq]
    have := hlt' htype
    omega
  · have := hlt hdef
    omega

theorem definednessFlow_bounded (strings : Option StringTable) (f : IRFunction) :
    (f.definednessFlow strings).Bounded f.leaders.length (2 * f.registerCount)
      RegisterState.height (RegisterState.Sized f) where
  succs_lt := fun i _ j hj => by
    unfold IRFunction.definednessFlow at hj
    dsimp only at hj
    cases hb : (f.blocks strings)[i]? with
    | none =>
      rw [hb] at hj
      cases hj
    | some block =>
      rw [hb] at hj
      exact successors_lt hb j hj
  transfer_ok := fun i s hs => by
    unfold IRFunction.definednessFlow
    dsimp only
    cases (f.blocks strings)[i]? with
    | none => exact hs
    | some block => exact sized_foldl hs _
  merge_ok := fun a b ha hb => by
    constructor
    · change (List.zipWith _ a.defined b.defined).length = _
      rw [List.length_zipWith, ha.1, hb.1, Nat.min_self]
    · change (List.zipWith _ a.type b.type).length = _
      rw [List.length_zipWith, ha.2, hb.2, Nat.min_self]
  height_le := fun s hs => by
    have h1 : s.defined.countP id ≤ s.defined.length := List.countP_le_length
    have h2 : s.type.countP (· ≠ typeUnknown) ≤ s.type.length := List.countP_le_length
    have h3 := hs.1
    have h4 := hs.2
    unfold RegisterState.height
    omega
  merge_lt := fun _ _ ha hb h => mergeFrom_height ha hb h

theorem entryState_sized : f.entryState.Sized f := by
  unfold IRFunction.entryState
  constructor
  · rw [List.length_map, List.length_range]
  · exact List.length_replicate

theorem leaders_pos (hn : 0 < f.instructions.length) : 0 < f.leaders.length :=
  Nat.lt_of_le_of_lt (Nat.zero_le _) (blockOf_lt hn)

theorem definedness_solved (strings : Option StringTable) (f : IRFunction)
    (hn : 0 < f.instructions.length) :
    Solved (f.definednessFlow strings) CoversDefined (RegisterState.Sized f) f.entryState
      (f.definedness strings) := by
  obtain ⟨w, hw⟩ := Flow.solve_isSome (D := .smallest) (definednessFlow_bounded strings f)
    (leaders_pos hn) entryState_sized
  unfold IRFunction.definedness
  rw [hw]
  exact solved_of_solve definednessFlow_meets (definednessFlow_bounded strings f) (leaders_pos hn)
    entryState_sized hw

end Definedness

/-! ## 4. Scope marks -/

/-- Every scope of the state is among those the run has marked. -/
def CoversMarked (state : Finset Int64) (marked : Int64 → Prop) : Prop := ∀ id ∈ state, marked id

section Scopes

variable {strings : Option StringTable} {f : IRFunction}

-- every scope the function names, marked or not
def IRFunction.scopeIds (f : IRFunction) : Finset Int64 :=
  (f.instructions.map IRInstruction.scopeId).toFinset

theorem scopeFlow_meets : (f.scopeFlow strings).Meets CoversMarked where
  left := fun _ _ _ hc id hid => hc id (Finset.mem_inter.mp hid).1
  right := fun _ _ _ hc id hid => hc id (Finset.mem_inter.mp hid).2
  same := fun _ _ h => Decidable.not_not.mp (of_decide_eq_false h)

variable {marked : Finset Int64}

theorem applyScope_subset (h : marked ⊆ f.scopeIds) {instr : IRInstruction}
    (hmem : instr ∈ f.instructions) :
    applyScope marked instr ⊆ f.scopeIds := by
  unfold applyScope
  split
  · apply Finset.insert_subset _ h
    unfold IRFunction.scopeIds
    rw [List.mem_toFinset]
    exact List.mem_map_of_mem hmem
  · exact h

theorem foldl_applyScope_subset (h : marked ⊆ f.scopeIds)
    (instrs : List (IRInstruction × Nat)) (hmem : ∀ p ∈ instrs, p.1 ∈ f.instructions) :
    instrs.foldl (fun marked p => applyScope marked p.1) marked ⊆ f.scopeIds := by
  induction instrs generalizing marked with
  | nil => exact h
  | cons p instrs ih =>
    obtain ⟨hp, hrest⟩ := List.forall_mem_cons.mp hmem
    exact ih (applyScope_subset h hp) hrest

theorem scopeFlow_bounded (strings : Option StringTable) (f : IRFunction) :
    (f.scopeFlow strings).Bounded f.leaders.length f.instructions.length Finset.card
      (· ⊆ f.scopeIds) where
  succs_lt := (definednessFlow_bounded strings f).succs_lt
  transfer_ok := fun i s hs => by
    unfold IRFunction.scopeFlow
    dsimp only
    cases (f.blocks strings)[i]? with
    | none => exact hs
    | some block =>
      apply foldl_applyScope_subset hs
      intro p hp
      exact List.mem_of_getElem? (mem_block_instructions hp)
  merge_ok := fun a _ ha _ => (Finset.inter_subset_left).trans ha
  height_le := fun s hs => by
    calc s.card ≤ f.scopeIds.card := Finset.card_le_card hs
      _ ≤ (f.instructions.map IRInstruction.scopeId).length := List.toFinset_card_le _
      _ = f.instructions.length := List.length_map _
  merge_lt := fun a b _ _ h => by
    apply Finset.card_lt_card
    apply Finset.ssubset_iff_subset_ne.mpr
    exact ⟨Finset.inter_subset_left, of_decide_eq_true h⟩

theorem scopeMarks_solved (strings : Option StringTable) (f : IRFunction)
    (hn : 0 < f.instructions.length) :
    Solved (f.scopeFlow strings) CoversMarked (· ⊆ f.scopeIds) ∅ (f.scopeMarks strings) := by
  obtain ⟨w, hw⟩ := Flow.solve_isSome (D := .fifo) (scopeFlow_bounded strings f)
    (leaders_pos hn) (Finset.empty_subset _)
  unfold IRFunction.scopeMarks
  rw [hw]
  exact solved_of_solve scopeFlow_meets (scopeFlow_bounded strings f) (leaders_pos hn)
    (Finset.empty_subset _) hw

end Scopes

end Ir
