import GdscriptCompiler.Lib.Results
import Mathlib.Data.List.Nodup
import Mathlib.Data.List.Perm.Subperm
import Mathlib.Logic.Relation

/-!
# DepthFirst — topological order of what is reachable, by depth-first search

`next` gives the successors of a node, or `none` where there is no such node; the stack holds the
nodes still open.
-/

namespace Lib

namespace DepthFirst

variable {α : Type}

inductive Failure (α : Type) where
  -- a node that does not exist, and the one that asked for it
  | missing (node : α) (user : Option α)
  | cycle (path : List α)
  | exhausted

section Search

variable [DecidableEq α] (next : α → Option (List α))

def visit (fuel : Nat) (stack out : List α) (a : α) : Except (Failure α) (List α) :=
  match next a with
  | none => .error (.missing a stack.getLast?)
  | some successors =>
    if a ∈ out then .ok out
    else if a ∈ stack then .error (.cycle (stack.dropWhile (· ≠ a) ++ [a]))
    else
      match fuel with
      | 0 => .error .exhausted
      | fuel + 1 => do
          let out ← successors.foldlM (visit fuel (stack ++ [a])) out
          return out ++ [a]

def order (fuel : Nat) (roots : List α) : Except (Failure α) (List α) :=
  roots.foldlM (visit next fuel []) []

end Search

/-! ## 1. Graphs -/

variable (next : α → Option (List α))

def Edge (a b : α) : Prop := ∃ successors, next a = some successors ∧ b ∈ successors

def Reaches : α → α → Prop := Relation.ReflTransGen (Edge next)

def Sound (a : α) : Prop :=
  ∀ b, Reaches next a b → (next b).isSome = true ∧ ¬Relation.TransGen (Edge next) b b

/-- Every node once, behind its successors. -/
inductive Sorted : List α → Prop where
  | nil : Sorted []
  | snoc {out successors : List α} {a : α} (init : Sorted out) (fresh : a ∉ out)
      (found : next a = some successors) (closed : ∀ b ∈ successors, b ∈ out) : Sorted (out ++ [a])

variable {next} {out : List α}

namespace Sorted

section

variable (h : Sorted next out)
include h

theorem nodup : out.Nodup := by
  induction h with
  | nil => exact List.nodup_nil
  | snoc _ fresh _ _ ih =>
    refine List.nodup_append.mpr ⟨ih, List.nodup_singleton _, ?_⟩
    intro b hb c hc
    rw [List.mem_singleton.mp hc]
    rintro rfl
    exact fresh hb

theorem closed_edge {a b : α} (ha : a ∈ out) (hedge : Edge next a b) : b ∈ out := by
  induction h with
  | nil => cases ha
  | snoc _ _ found closed ih =>
    rcases List.mem_append.mp ha with ha | ha
    · exact List.mem_append_left _ (ih ha)
    · obtain ⟨successors, hnext, hb⟩ := hedge
      rw [List.mem_singleton.mp ha, found] at hnext
      cases hnext
      exact List.mem_append_left _ (closed b hb)

theorem closed_reaches {a b : α} (ha : a ∈ out) (hreach : Reaches next a b) : b ∈ out := by
  induction hreach with
  | refl => exact ha
  | tail _ hedge ih => exact h.closed_edge ih hedge

theorem declared {a : α} (ha : a ∈ out) : (next a).isSome = true := by
  induction h with
  | nil => cases ha
  | snoc _ _ found _ ih =>
    rcases List.mem_append.mp ha with ha | ha
    · exact ih ha
    · rw [List.mem_singleton.mp ha, found]
      rfl

theorem acyclic {a : α} (ha : a ∈ out) : ¬Relation.TransGen (Edge next) a a := by
  induction h with
  | nil => cases ha
  | @snoc out successors c init fresh found closed ih =>
    rcases List.mem_append.mp ha with ha | ha
    · exact ih ha
    · rw [List.mem_singleton.mp ha]
      intro hcycle
      -- the first edge leads into `out`, which has no way back to `c`
      obtain ⟨b, hedge, hback⟩ := Relation.TransGen.head'_iff.mp hcycle
      obtain ⟨successors', hnext, hb⟩ := hedge
      rw [found] at hnext
      cases hnext
      exact fresh (init.closed_reaches (closed b hb) hback)

theorem sound {a : α} (ha : a ∈ out) : Sound next a := by
  intro b hreach
  have hb := h.closed_reaches ha hreach
  exact ⟨h.declared hb, h.acyclic hb⟩

theorem behind {earlier later : List α} {a b : α} (hsplit : out = earlier ++ a :: later)
    (hedge : Edge next a b) :
    b ∈ earlier := by
  induction h generalizing later with
  | nil => simp at hsplit
  | snoc _ _ found closed ih =>
    rcases List.eq_nil_or_concat later with rfl | ⟨later', d, rfl⟩
    · obtain ⟨hinit, hlast⟩ := List.append_inj' hsplit rfl
      cases hlast
      obtain ⟨successors, hnext, hb⟩ := hedge
      rw [found] at hnext
      cases hnext
      exact hinit ▸ closed b hb
    · rw [List.concat_eq_append, ← List.cons_append, ← List.append_assoc] at hsplit
      exact ih (List.append_inj' hsplit rfl).1

end

end Sorted

/-! ## 2. The search -/

variable {fuel : Nat} {stack out' : List α} {a : α}

/-- What a search that found the roots in order has done to the output. -/
structure Found (next : α → Option (List α)) (stack out roots out' : List α) : Prop where
  sorted : Sorted next out'
  grows : ∀ b ∈ out, b ∈ out'
  complete : ∀ a ∈ roots, a ∈ out'
  new : ∀ b ∈ out', b ∈ out ∨ (b ∉ stack ∧ ∃ a ∈ roots, Reaches next a b)

theorem Found.trans {roots more mid : List α} (h : Found next stack out roots mid)
    (h' : Found next stack mid more out') :
    Found next stack out (roots ++ more) out' where
  sorted := h'.sorted
  grows b hb := h'.grows b (h.grows b hb)
  complete a ha := by
    rcases List.mem_append.mp ha with ha | ha
    · exact h'.grows a (h.complete a ha)
    · exact h'.complete a ha
  new b hb := by
    rcases h'.new b hb with hmid | ⟨hopen, a, ha, hreach⟩
    · rcases h.new b hmid with hout | ⟨hopen, a, ha, hreach⟩
      · exact .inl hout
      · exact .inr ⟨hopen, a, List.mem_append_left _ ha, hreach⟩
    · exact .inr ⟨hopen, a, List.mem_append_right _ ha, hreach⟩

/-- The open nodes of a search, each among `nodes` and none twice. -/
structure Open (nodes stack : List α) : Prop where
  nodup : stack.Nodup
  sub : ∀ s ∈ stack, s ∈ nodes

theorem open_nil (nodes : List α) : Open nodes [] :=
  ⟨List.nodup_nil, fun _ hs => (List.not_mem_nil hs).elim⟩

theorem Open.snoc {nodes : List α} (h : Open nodes stack) (ha : a ∈ nodes) (hopen : a ∉ stack) :
    Open nodes (stack ++ [a]) where
  nodup := List.nodup_append.mpr ⟨h.nodup, List.nodup_singleton a, by
    intro b hb c hc
    rw [List.mem_singleton.mp hc]
    rintro rfl
    exact hopen hb⟩
  sub s hs := by
    rcases List.mem_append.mp hs with hs | hs
    · exact h.sub s hs
    · rw [List.mem_singleton.mp hs]
      exact ha

-- the open nodes are distinct nodes, so there is fuel for one more
theorem Open.fuel_left {nodes : List α} (h : Open nodes stack) (ha : a ∈ nodes) (hopen : a ∉ stack)
    (hfuel : nodes.length ≤ fuel + stack.length) :
    ∃ fuel', fuel = fuel' + 1 ∧ nodes.length ≤ fuel' + (stack ++ [a]).length := by
  have hlength : (a :: stack).length ≤ nodes.length := by
    refine (List.subperm_of_subset (List.nodup_cons.mpr ⟨hopen, h.nodup⟩) ?_).length_le
    intro b hb
    rcases List.mem_cons.mp hb with rfl | hb
    · exact ha
    · exact h.sub b hb
  rw [List.length_cons] at hlength
  refine ⟨fuel - 1, by omega, ?_⟩
  rw [List.length_append, List.length_singleton]
  omega

theorem Sound.edge {b : α} (h : Sound next a) (hedge : Edge next a b) : Sound next b :=
  fun c hreach => h c (hreach.head hedge)

variable [DecidableEq α]

theorem visit_eq_ok (h : visit next fuel stack out a = .ok out') :
    (a ∈ out ∧ out' = out) ∨
      (a ∉ out ∧ a ∉ stack ∧ ∃ fuel' successors mid, fuel = fuel' + 1 ∧ next a = some successors ∧
        successors.foldlM (visit next fuel' (stack ++ [a])) out = .ok mid ∧ out' = mid ++ [a]) := by
  unfold visit at h
  cases hnext : next a with
  | none =>
    rw [hnext] at h
    cases h
  | some successors =>
    simp only [hnext] at h
    split at h
    · rename_i hmem
      cases h
      exact .inl ⟨hmem, rfl⟩
    · rename_i hfresh
      split at h
      · cases h
      · rename_i hopen
        cases fuel with
        | zero => cases h
        | succ fuel =>
          obtain ⟨mid, hmid, hpure⟩ := bind_eq_ok.mp h
          cases hpure
          exact .inr ⟨hfresh, hopen, fuel, successors, mid, rfl, rfl, hmid, rfl⟩

theorem found_foldlM {roots : List α}
    (hvisit : ∀ a out out', Sorted next out → visit next fuel stack out a = .ok out' →
        Found next stack out [a] out') (hsorted : Sorted next out)
    (h : roots.foldlM (visit next fuel stack) out = .ok out') :
    Found next stack out roots out' := by
  induction roots generalizing out with
  | nil =>
    cases h
    exact ⟨hsorted, fun _ hb => hb, fun _ ha => (List.not_mem_nil ha).elim, fun _ hb => .inl hb⟩
  | cons a roots ih =>
    rw [List.foldlM_cons] at h
    obtain ⟨mid, hmid, h⟩ := bind_eq_ok.mp h
    have hfirst := hvisit a out mid hsorted hmid
    exact hfirst.trans (ih hfirst.sorted h)

theorem found_visit (hsorted : Sorted next out) (h : visit next fuel stack out a = .ok out') :
    Found next stack out [a] out' := by
  induction fuel generalizing stack out out' a with
  | zero =>
    rcases visit_eq_ok h with ⟨hmem, rfl⟩ | ⟨-, -, fuel', _, _, hfuel, -⟩
    · exact ⟨hsorted, fun _ hb => hb, by simpa using hmem, fun _ hb => .inl hb⟩
    · cases hfuel
  | succ fuel ih =>
    rcases visit_eq_ok h with ⟨hmem, rfl⟩ | ⟨hfresh, hopen, fuel', successors, mid, hfuel, hnext,
      hmid, rfl⟩
    · exact ⟨hsorted, fun _ hb => hb, by simpa using hmem, fun _ hb => .inl hb⟩
    · cases hfuel
      have hfound := found_foldlM (fun _ _ _ => ih) hsorted hmid
      have hnew : a ∉ mid := by
        intro hmem
        rcases hfound.new a hmem with hout | ⟨hclosed, -⟩
        · exact hfresh hout
        · exact hclosed (by simp)
      refine ⟨.snoc hfound.sorted hnew hnext hfound.complete, ?_, by simp, ?_⟩
      · intro b hb
        exact List.mem_append_left _ (hfound.grows b hb)
      · intro b hb
        rcases List.mem_append.mp hb with hb | hb
        · rcases hfound.new b hb with hout | ⟨hclosed, c, hc, hreach⟩
          · exact .inl hout
          · refine .inr ⟨fun hstack => hclosed (List.mem_append_left _ hstack), a,
              List.mem_cons_self, ?_⟩
            exact hreach.head ⟨successors, hnext, hc⟩
        · rw [List.mem_singleton.mp hb]
          exact .inr ⟨hopen, a, List.mem_cons_self, .refl⟩

/-! ## 3. The search ends -/

theorem visit_open {successors : List α} (hnext : next a = some successors) (hfresh : a ∉ out)
    (hopen : a ∉ stack) :
    visit next (fuel + 1) stack out a = (do
      let mid ← successors.foldlM (visit next fuel (stack ++ [a])) out
      return mid ++ [a]) := by
  rw [visit, hnext]
  simp only [if_neg hfresh, if_neg hopen]

theorem foldlM_total {roots : List α}
    (h : ∀ a ∈ roots, ∀ out, ∃ out', visit next fuel stack out a = .ok out') :
    ∃ out', roots.foldlM (visit next fuel stack) out = .ok out' := by
  induction roots generalizing out with
  | nil => exact ⟨out, rfl⟩
  | cons a roots ih =>
    obtain ⟨mid, hmid⟩ := h a List.mem_cons_self out
    have hrest : ∃ out', roots.foldlM (visit next fuel stack) mid = .ok out' :=
      ih fun b hb => h b (List.mem_cons_of_mem _ hb)
    obtain ⟨out', hout'⟩ := hrest
    refine ⟨out', ?_⟩
    rw [List.foldlM_cons]
    exact bind_eq_ok.mpr ⟨mid, hmid, hout'⟩

theorem foldlM_ne_exhausted {roots : List α}
    (h : ∀ a ∈ roots, ∀ out, visit next fuel stack out a ≠ .error .exhausted) :
    roots.foldlM (visit next fuel stack) out ≠ .error .exhausted := by
  induction roots generalizing out with
  | nil => exact nofun
  | cons a roots ih =>
    rw [List.foldlM_cons]
    cases hvisit : visit next fuel stack out a with
    | error failure =>
      intro herror
      cases herror
      exact h a List.mem_cons_self out hvisit
    | ok mid => exact ih fun b hb => h b (List.mem_cons_of_mem _ hb)

theorem visit_eq_exhausted (h : visit next fuel stack out a = .error .exhausted) :
    a ∉ stack ∧ ∃ successors, next a = some successors ∧
      ∀ fuel', fuel = fuel' + 1 → successors.foldlM (visit next fuel' (stack ++ [a])) out =
        .error .exhausted := by
  unfold visit at h
  cases hnext : next a with
  | none =>
    rw [hnext] at h
    cases h
  | some successors =>
    simp only [hnext] at h
    split at h
    · cases h
    · split at h
      · cases h
      · rename_i hopen
        refine ⟨hopen, successors, rfl, ?_⟩
        rintro fuel' rfl
        simp only at h
        cases hfold : successors.foldlM (visit next fuel' (stack ++ [a])) out with
        | error failure =>
          rw [hfold] at h
          exact h
        | ok mid =>
          rw [hfold] at h
          cases h

variable {roots : List α} {nodes : List α} (hnodes : ∀ b, (next b).isSome = true → b ∈ nodes)
include hnodes

theorem visit_total (hsound : Sound next a) (hpath : ∀ s ∈ stack, Relation.TransGen (Edge next) s a)
    (hopen : Open nodes stack) (hfuel : nodes.length ≤ fuel + stack.length) :
    ∃ out', visit next fuel stack out a = .ok out' := by
  induction fuel generalizing stack out a with
  | zero =>
    obtain ⟨hdeclared, hacyclic⟩ := hsound a .refl
    have hclosed : a ∉ stack := fun hmem => hacyclic (hpath a hmem)
    obtain ⟨_, hzero, -⟩ := hopen.fuel_left (hnodes a hdeclared) hclosed hfuel
    cases hzero
  | succ fuel ih =>
    obtain ⟨hdeclared, hacyclic⟩ := hsound a .refl
    have hclosed : a ∉ stack := fun hmem => hacyclic (hpath a hmem)
    obtain ⟨successors, hnext⟩ := Option.isSome_iff_exists.mp hdeclared
    obtain ⟨fuel', hsucc, hfuel⟩ := hopen.fuel_left (hnodes a hdeclared) hclosed hfuel
    cases hsucc
    by_cases hfresh : a ∈ out
    · refine ⟨out, ?_⟩
      rw [visit, hnext]
      simp only [if_pos hfresh]
    · have hvisits : ∃ mid, successors.foldlM (visit next fuel (stack ++ [a])) out = .ok mid := by
        refine foldlM_total fun b hb _ => ?_
        have hedge : Edge next a b := ⟨successors, hnext, hb⟩
        refine ih (hsound.edge hedge) ?_ (hopen.snoc (hnodes a hdeclared) hclosed) hfuel
        intro s hs
        rcases List.mem_append.mp hs with hs | hs
        · exact (hpath s hs).tail hedge
        · rw [List.mem_singleton.mp hs]
          exact .single hedge
      obtain ⟨mid, hmid⟩ := hvisits
      refine ⟨mid ++ [a], ?_⟩
      rw [visit_open hnext hfresh hclosed]
      exact bind_eq_ok.mpr ⟨mid, hmid, rfl⟩

theorem visit_ne_exhausted (hopen : Open nodes stack) (hfuel : nodes.length ≤ fuel + stack.length) :
    visit next fuel stack out a ≠ .error .exhausted := by
  induction fuel generalizing stack out a with
  | zero =>
    intro h
    obtain ⟨hclosed, successors, hnext, -⟩ := visit_eq_exhausted h
    obtain ⟨_, hzero, -⟩ := hopen.fuel_left (hnodes a (by rw [hnext]; rfl)) hclosed hfuel
    cases hzero
  | succ fuel ih =>
    intro h
    obtain ⟨hclosed, successors, hnext, hfold⟩ := visit_eq_exhausted h
    have ha : a ∈ nodes := hnodes a (by rw [hnext]; rfl)
    obtain ⟨fuel', hsucc, hfuel⟩ := hopen.fuel_left ha hclosed hfuel
    cases hsucc
    exact foldlM_ne_exhausted (fun _ _ _ => ih (hopen.snoc ha hclosed) hfuel) (hfold fuel rfl)

/-! ## 4. The order -/

omit hnodes in
theorem order_ok (h : order next fuel roots = .ok out) :
    Sorted next out ∧ ∀ b, b ∈ out ↔ ∃ a ∈ roots, Reaches next a b := by
  have hfound := found_foldlM (fun _ _ _ => found_visit) .nil h
  refine ⟨hfound.sorted, fun b => ⟨fun hb => ?_, ?_⟩⟩
  · rcases hfound.new b hb with hnil | ⟨-, hreach⟩
    · cases hnil
    · exact hreach
  · rintro ⟨a, ha, hreach⟩
    exact hfound.sorted.closed_reaches (hfound.complete a ha) hreach

/-- The search succeeds exactly when no missing node and no cycle can be reached. -/
theorem order_eq_ok_iff :
    (∃ out, order next nodes.length roots = .ok out) ↔ ∀ a ∈ roots, Sound next a := by
  constructor
  · rintro ⟨out, h⟩ a ha
    obtain ⟨hsorted, hmem⟩ := order_ok h
    exact hsorted.sound ((hmem a).mpr ⟨a, ha, .refl⟩)
  · intro hsound
    exact foldlM_total fun a ha _ =>
      visit_total hnodes (hsound a ha) (fun _ hs => (List.not_mem_nil hs).elim) (open_nil nodes)
        (Nat.le_refl _)

theorem order_ne_exhausted : order next nodes.length roots ≠ .error .exhausted :=
  foldlM_ne_exhausted fun _ _ _ => visit_ne_exhausted hnodes (open_nil nodes) (Nat.le_refl _)

end DepthFirst

end Lib
