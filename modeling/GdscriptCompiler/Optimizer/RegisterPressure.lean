import GdscriptCompiler.Optimizer.Renaming
import Mathlib.Data.Finset.Card

/-!
# RegisterPressure — `IROptimizer::reduce_register_pressure`

A variable whose register the text no longer names keeps the old number, which may by then be
another register's.
-/

namespace Optimizer

open Ir Lib

/-! ## 1. The pass -/

/-- The registers pinned by the calling convention: the return register and the parameters. -/
def Pinned (f : IRFunction) (r : Int) : Prop := r = 0 ∨ 0 ≤ r ∧ r < f.parameters.length

instance (f : IRFunction) (r : Int) : Decidable (Pinned f r) := inferInstanceAs (Decidable (_ ∨ _))

def namedRegisters (f : IRFunction) : List Int :=
  f.instructions.flatMap fun instr => instr.operands.filterMap fun
    | .reg r => some r
    | _ => none

/-- `reg_map` and `next_reg`. -/
structure RegMap where
  map : Int → Option Int
  next : Int

def RegMap.start (f : IRFunction) : RegMap where
  map r := if Pinned f r then some r else none
  next := max 1 (f.parameters.length : Int)

def RegMap.visit (m : RegMap) (r : Int) : RegMap :=
  if (m.map r).isNone then ⟨Function.update m.map r (some m.next), m.next + 1⟩ else m

def regMap (f : IRFunction) : RegMap := (namedRegisters f).foldl RegMap.visit (.start f)

/-- `IRFunction::DebugLocal`: a variable and the register that carries it. -/
structure DebugLocal where
  name : String
  registerNum : Int
deriving DecidableEq

-- what is not in the map stays
def RegMap.apply (m : RegMap) (r : Int) : Int := (m.map r).getD r

def reduceRegisterPressure (f : IRFunction) (locals : List DebugLocal) :
    IRFunction × List DebugLocal :=
  ({ f with instructions := f.instructions.map (renameInstruction (regMap f).apply) },
    locals.map fun l => { l with registerNum := (regMap f).apply l.registerNum })

/-- The end of `optimize_function`. -/
def recomputeMaxRegisters (f : IRFunction) : IRFunction :=
  { f with maxRegisters := max ((namedRegisters f).foldl max 0 + 1) (f.parameters.length : Int) }

/-- The variables the compiler leaves in the table after the passes. -/
def DebugLocal.Kept (f : IRFunction) (l : DebugLocal) : Prop :=
  ¬ (l.registerNum < 0 ∨ f.maxRegisters ≤ l.registerNum)

/-! ## 2. The map -/

/-- How many registers there are when the others follow the pinned ones without a gap. -/
def compactCount (f : IRFunction) : Int :=
  max 1 (f.parameters.length : Int) + ((namedRegisters f).toFinset.filter (¬ Pinned f ·)).card

/-- The map after the registers `named` were visited. -/
structure RegMap.Covers (f : IRFunction) (named : List Int) (m : RegMap) : Prop where
  dom : ∀ r, (∃ v, m.map r = some v) ↔ Pinned f r ∨ r ∈ named
  pinned : ∀ r, Pinned f r → m.map r = some r
  range : ∀ r v, m.map r = some v → 0 ≤ v ∧ v < m.next
  inj : ∀ r s v, m.map r = some v → m.map s = some v → r = s
  onto : ∀ v, 0 ≤ v → v < m.next → ∃ r, m.map r = some v
  next : m.next = max 1 (f.parameters.length : Int) + (named.toFinset.filter (¬ Pinned f ·)).card

variable {r : Int}

section Map

variable {f : IRFunction} {named : List Int} {m : RegMap}

theorem covers_start (f : IRFunction) : (RegMap.start f).Covers f [] where
  dom r := by
    unfold RegMap.start
    dsimp only
    by_cases h : Pinned f r
    · simp [h]
    · simp [h]
  pinned r h := if_pos h
  range r v h := by
    unfold RegMap.start at h ⊢
    dsimp only at h ⊢
    split at h
    · rename_i hpinned
      cases h
      rcases hpinned with rfl | ⟨hpos, hlt⟩
      · omega
      · omega
    · cases h
  inj r s v hr hs := by
    unfold RegMap.start at hr hs
    dsimp only at hr hs
    split at hr
    · split at hs
      · cases hr
        cases hs
        rfl
      · cases hs
    · cases hr
  onto v hpos hlt := by
    refine ⟨v, if_pos ?_⟩
    unfold RegMap.start at hlt
    dsimp only at hlt
    unfold Pinned
    omega
  next := by
    unfold RegMap.start
    simp

theorem RegMap.Covers.visit (h : m.Covers f named) (r : Int) :
    (m.visit r).Covers f (named ++ [r]) := by
  unfold RegMap.visit
  split
  · rename_i hnone
    have hnone := Option.isNone_iff_eq_none.mp hnone
    have hnew : ¬ (Pinned f r ∨ r ∈ named) := by
      intro hmem
      obtain ⟨v, hv⟩ := (h.dom r).mpr hmem
      rw [hnone] at hv
      cases hv
    have hne (s v : Int) (hs : m.map s = some v) : s ≠ r := by
      rintro rfl
      rw [hnone] at hs
      cases hs
    have hnext : 0 ≤ m.next := by
      have := h.next
      omega
    constructor
    case dom =>
      intro s
      by_cases hs : s = r
      · subst hs
        simp
      · dsimp only
        rw [Function.update_of_ne hs, h.dom s, List.mem_append, List.mem_singleton]
        simp [hs]
    case pinned =>
      intro s hs
      have hsr : s ≠ r := by
        rintro rfl
        exact hnew (.inl hs)
      dsimp only
      rw [Function.update_of_ne hsr]
      exact h.pinned s hs
    case range =>
      intro s v hs
      dsimp only at hs ⊢
      by_cases hsr : s = r
      · rw [hsr, Function.update_self] at hs
        cases hs
        omega
      · rw [Function.update_of_ne hsr] at hs
        have := h.range s v hs
        omega
    case inj =>
      -- the new name is above all the others
      intro s t v hs ht
      dsimp only at hs ht
      by_cases hsr : s = r
      · by_cases htr : t = r
        · rw [hsr, htr]
        · rw [hsr, Function.update_self] at hs
          rw [Function.update_of_ne htr] at ht
          cases hs
          have := h.range t _ ht
          omega
      · rw [Function.update_of_ne hsr] at hs
        by_cases htr : t = r
        · rw [htr, Function.update_self] at ht
          cases ht
          have := h.range s _ hs
          omega
        · rw [Function.update_of_ne htr] at ht
          exact h.inj s t v hs ht
    case onto =>
      intro v hpos hlt
      dsimp only at hlt
      by_cases hv : v = m.next
      · exact ⟨r, by rw [hv]; exact Function.update_self ..⟩
      · obtain ⟨s, hs⟩ := h.onto v hpos (by omega)
        exact ⟨s, (Function.update_of_ne (hne s v hs) ..).trans hs⟩
    case next =>
      have hcard : ((named ++ [r]).toFinset.filter (¬ Pinned f ·)).card =
          (named.toFinset.filter (¬ Pinned f ·)).card + 1 := by
        rw [List.toFinset_append, List.toFinset_cons, List.toFinset_nil, Finset.filter_union]
        rw [Finset.filter_insert, if_pos fun hpinned => hnew (.inl hpinned), Finset.filter_empty,
          Finset.union_insert, Finset.union_empty, Finset.card_insert_of_notMem]
        intro hmem
        exact hnew (.inr (List.mem_toFinset.mp (Finset.mem_of_mem_filter r hmem)))
      dsimp only
      rw [hcard, h.next]
      push_cast
      omega
  · rename_i hsome
    obtain ⟨v, hv⟩ : ∃ v, m.map r = some v := by
      cases hv : m.map r with
      | none => exact absurd (by rw [hv]; rfl) hsome
      | some v => exact ⟨v, rfl⟩
    have hold := (h.dom r).mp ⟨v, hv⟩
    have hfilter : (named ++ [r]).toFinset.filter (¬ Pinned f ·) = named.toFinset.filter
      (¬ Pinned f ·) := by
      ext s
      simp only [List.toFinset_append, List.toFinset_cons, List.toFinset_nil, Finset.mem_filter,
        Finset.mem_union, List.mem_toFinset, Finset.mem_insert, Finset.notMem_empty, or_false]
      constructor
      · rintro ⟨hmem | rfl, hs⟩
        · exact ⟨hmem, hs⟩
        · exact ⟨hold.resolve_left hs, hs⟩
      · exact fun ⟨hmem, hs⟩ => ⟨.inl hmem, hs⟩
    refine ⟨fun s => ?_, h.pinned, h.range, h.inj, h.onto, by rw [hfilter]; exact h.next⟩
    rw [h.dom s, List.mem_append, List.mem_singleton]
    refine ⟨fun hs => hs.imp_right .inl, ?_⟩
    rintro (hs | hs | rfl)
    · exact .inl hs
    · exact .inr hs
    · exact hold

theorem RegMap.Covers.foldl (h : m.Covers f named) (rs : List Int) :
    (rs.foldl RegMap.visit m).Covers f (named ++ rs) := by
  induction rs generalizing m named with
  | nil => simpa using h
  | cons r rs ih => simpa using ih (h.visit r)

theorem regMap_covers (f : IRFunction) : (regMap f).Covers f (namedRegisters f) :=
  (covers_start f).foldl (namedRegisters f)

theorem apply_of_some {v : Int} (h : m.map r = some v) : m.apply r = v := by
  unfold RegMap.apply
  rw [h]
  rfl

theorem regMap_named (h : Pinned f r ∨ r ∈ namedRegisters f) :
    (regMap f).map r = some ((regMap f).apply r) := by
  obtain ⟨v, hv⟩ := ((regMap_covers f).dom r).mpr h
  rw [apply_of_some hv, hv]

theorem regMap_other (h : ¬ (Pinned f r ∨ r ∈ namedRegisters f)) : (regMap f).apply r = r := by
  have hnone : (regMap f).map r = none := by
    cases hv : (regMap f).map r with
    | none => rfl
    | some v => exact absurd (((regMap_covers f).dom r).mp ⟨v, hv⟩) h
  unfold RegMap.apply
  rw [hnone]
  rfl

end Map

/-! ## 3. The renamed function -/

section Function

variable {strings : StringTable} {f : IRFunction}

theorem mem_namedRegisters :
    r ∈ namedRegisters f ↔ ∃ instr ∈ f.instructions, .reg r ∈ instr.operands := by
  unfold namedRegisters
  rw [List.mem_flatMap]
  refine exists_congr fun instr => and_congr_right fun _ => ?_
  rw [List.mem_filterMap]
  constructor
  · rintro ⟨operand, hmem, heq⟩
    cases operand with
    | reg s =>
      cases heq
      exact hmem
    | _ => cases heq
  · exact fun hmem => ⟨.reg r, hmem, rfl⟩

theorem namedRegisters_rename {σ : Int → Int} {f' : IRFunction}
    (h : f'.instructions = f.instructions.map (renameInstruction σ)) :
    r ∈ namedRegisters f' ↔ ∃ s ∈ namedRegisters f, σ s = r := by
  rw [mem_namedRegisters, h]
  constructor
  · rintro ⟨_, hmem, hr⟩
    obtain ⟨instr, hinstr, rfl⟩ := List.mem_map.mp hmem
    obtain ⟨operand, hoperand, heq⟩ := List.mem_map.mp hr
    cases operand with
    | reg s =>
      cases heq
      exact ⟨s, mem_namedRegisters.mpr ⟨instr, hinstr, hoperand⟩, rfl⟩
    | _ => cases heq
  · rintro ⟨s, hs, rfl⟩
    obtain ⟨instr, hinstr, hoperand⟩ := mem_namedRegisters.mp hs
    exact ⟨_, List.mem_map_of_mem hinstr, List.mem_map.mpr ⟨.reg s, hoperand, rfl⟩⟩

theorem regMap_injOn (f : IRFunction) :
    Set.InjOn (regMap f).apply { r | Pinned f r ∨ r ∈ namedRegisters f } := by
  intro r hr s hs heq
  refine (regMap_covers f).inj r s _ (regMap_named hr) ?_
  rw [heq]
  exact regMap_named hs

theorem apply_pinned (h : Pinned f r) : (regMap f).apply r = r :=
  apply_of_some ((regMap_covers f).pinned r h)

theorem apply_range (h : Pinned f r ∨ r ∈ namedRegisters f) :
    0 ≤ (regMap f).apply r ∧ (regMap f).apply r < (regMap f).next :=
  (regMap_covers f).range r _ (regMap_named h)

theorem named_nonneg (hf : Verified strings f) (h : Pinned f r ∨ r ∈ namedRegisters f) : 0 ≤ r := by
  rcases h with (rfl | ⟨hpos, -⟩) | hmem
  · exact Int.le_refl 0
  · exact hpos
  · obtain ⟨instr, hinstr, hr⟩ := mem_namedRegisters.mp hmem
    exact (hf.registers instr hinstr r hr).1

theorem reduceRegisterPressure_renamed (hf : Verified strings f) (locals : List DebugLocal) :
    RenamedFunction (regMap f).apply (insert (-1) { r | Pinned f r ∨ r ∈ namedRegisters f }) f
      (recomputeMaxRegisters (reduceRegisterPressure f locals).1) := by
  -- no register is -1, and none is renamed to it
  have hother : -1 ∉ { r | Pinned f r ∨ r ∈ namedRegisters f } := fun h => by
    have := named_nonneg hf h
    omega
  have hminus : (regMap f).apply (-1) = -1 := regMap_other hother
  constructor
  case renames =>
    refine ⟨(Set.injOn_insert hother).mpr ⟨regMap_injOn f, ?_⟩,
      ⟨.inr (.inl (.inl rfl)), apply_pinned (.inl rfl)⟩, .inl rfl, hminus⟩
    rintro ⟨r, hr, heq⟩
    have := apply_range hr
    omega
  case instructions => rfl
  case registers => exact fun instr hmem r hr => .inr (.inr (mem_namedRegisters.mpr ⟨instr, hmem, hr⟩))
  case parameters => rfl
  case parameter => exact fun r hpos hlt => ⟨.inr (.inl (.inr ⟨hpos, hlt⟩)),
    apply_pinned (.inr ⟨hpos, hlt⟩)⟩
  case name => rfl

theorem le_foldl_max (rs : List Int) (m : Int) :
    m ≤ rs.foldl max m ∧ ∀ r ∈ rs, r ≤ rs.foldl max m := by
  induction rs generalizing m with
  | nil => exact ⟨Int.le_refl m, List.forall_mem_nil _⟩
  | cons r rs ih =>
    obtain ⟨hle, hall⟩ := ih (max m r)
    rw [List.foldl_cons]
    refine ⟨by omega, List.forall_mem_cons.mpr ⟨by omega, hall⟩⟩

theorem foldl_max_lt {rs : List Int} {m bound : Int} (hm : m < bound) (h : ∀ r ∈ rs, r < bound) :
    rs.foldl max m < bound := by
  induction rs generalizing m with
  | nil => exact hm
  | cons r rs ih =>
    obtain ⟨hr, hrest⟩ := List.forall_mem_cons.mp h
    exact ih (by omega) hrest

theorem maxRegisters_eq (f : IRFunction) (locals : List DebugLocal) :
    (recomputeMaxRegisters (reduceRegisterPressure f locals).1).maxRegisters = (regMap f).next := by
  have hcovers := regMap_covers f
  have hnext : max 1 (f.parameters.length : Int) ≤ (regMap f).next := by
    have := hcovers.next
    omega
  have hnamed {r : Int} : r ∈ namedRegisters (reduceRegisterPressure f locals).1 ↔
      ∃ s ∈ namedRegisters f, (regMap f).apply s = r := namedRegisters_rename rfl
  have hupper : (namedRegisters (reduceRegisterPressure f locals).1).foldl max 0 < (regMap f).next := by
    refine foldl_max_lt (by omega) fun r hr => ?_
    obtain ⟨s, hs, rfl⟩ := hnamed.mp hr
    exact (apply_range (.inr hs)).2
  obtain ⟨hzero, hle⟩ := le_foldl_max (namedRegisters (reduceRegisterPressure f locals).1) 0
  have hlower : (regMap f).next ≤ max ((namedRegisters (reduceRegisterPressure f locals).1).foldl
    max 0 + 1)
      (f.parameters.length : Int) := by
    -- the last name belongs to a pinned register or to one in the text
    obtain ⟨r, hr⟩ := hcovers.onto ((regMap f).next - 1) (by omega) (by omega)
    rcases (hcovers.dom r).mp ⟨_, hr⟩ with hpinned | hmem
    · have hsame := (hcovers.pinned r hpinned).symm.trans hr
      cases hsame
      rcases hpinned with hpinned | ⟨-, hpinned⟩
      · omega
      · omega
    · have := hle _ (hnamed.mpr ⟨r, hmem, apply_of_some hr⟩)
      omega
  change max ((namedRegisters (reduceRegisterPressure f locals).1).foldl max 0 + 1)
    (f.parameters.length : Int) = _
  omega

end Function

/-! ## 4. The variables -/

/-- Each variable `l` is now `l'`, and if that is kept, what its register carries is what the
register of `l` carried: of the registers renamed to it there is no other. -/
def LocalsFollow (σ : Int → Int) (f f' : IRFunction) (locals locals' : List DebugLocal) : Prop :=
  List.Forall₂ (fun l l' => l'.name = l.name ∧ (l'.Kept f' →
    ∀ r, Pinned f r ∨ r ∈ namedRegisters f → σ r = l'.registerNum → r = l.registerNum)) locals locals'

/-- A variable whose register is in the map, or whose number no register gets. -/
def DebugLocal.Follows (f : IRFunction) (l : DebugLocal) : Prop :=
  (Pinned f l.registerNum ∨ l.registerNum ∈ namedRegisters f) ∨ l.registerNum < 0 ∨
  compactCount f ≤ l.registerNum

theorem follows_iff (f : IRFunction) (locals : List DebugLocal) (l : DebugLocal) :
    (DebugLocal.Kept (recomputeMaxRegisters (reduceRegisterPressure f locals).1)
      { l with registerNum := (regMap f).apply l.registerNum } →
      ∀ r, Pinned f r ∨ r ∈ namedRegisters f → (regMap f).apply r = (regMap f).apply l.registerNum →
        r = l.registerNum) ↔ l.Follows f := by
  have hcount : (regMap f).next = compactCount f := (regMap_covers f).next
  unfold DebugLocal.Follows DebugLocal.Kept
  rw [maxRegisters_eq, hcount]
  dsimp only
  by_cases hnamed : Pinned f l.registerNum ∨ l.registerNum ∈ namedRegisters f
  · exact iff_of_true (fun _ r hr heq => regMap_injOn f hr hnamed heq) (.inl hnamed)
  · rw [regMap_other hnamed]
    constructor
    · intro h
      by_contra hnot
      have hrange := (not_or.mp hnot).2
      -- the old number is another register's new name
      obtain ⟨r, hr⟩ := (regMap_covers f).onto l.registerNum (by omega) (by omega)
      have hdom := ((regMap_covers f).dom r).mp ⟨_, hr⟩
      exact hnamed (h hrange r hdom (apply_of_some hr) ▸ hdom)
    · exact fun h hkept => absurd (h.resolve_left hnamed) hkept

theorem localsFollow_iff (f : IRFunction) (locals : List DebugLocal) :
    LocalsFollow (regMap f).apply f (recomputeMaxRegisters (reduceRegisterPressure f locals).1)
      locals (reduceRegisterPressure f locals).2 ↔ ∀ l ∈ locals, l.Follows f := by
  unfold LocalsFollow
  change List.Forall₂ _ locals (locals.map _) ↔ _
  rw [List.forall₂_map_right_iff, List.forall₂_same]
  refine forall₂_congr fun l _ => ?_
  rw [← follows_iff f locals l]
  exact ⟨fun h => h.2, fun h => ⟨rfl, h⟩⟩

/-- Registers are renamed apart, the pinned ones stay and the rest close up behind them; calls do
the same. The variables follow their registers exactly when none keeps a number that is given to
another register. -/
theorem reduceRegisterPressure_renames (program : IRProgram) (f : IRFunction)
    (locals : List DebugLocal) (haccepted : irVerify (some program.strings) f = .ok ()) :
    let f' := recomputeMaxRegisters (reduceRegisterPressure f locals).1
    (∃ σ : Int → Int, Set.InjOn σ { r | Pinned f r ∨ r ∈ namedRegisters f } ∧
      (∀ r, Pinned f r → σ r = r) ∧
      f'.instructions = f.instructions.map (renameInstruction σ) ∧
      (LocalsFollow σ f f' locals (reduceRegisterPressure f locals).2 ↔ ∀ l ∈ locals, l.Follows f)) ∧
    (∀ r, (0 ≤ r ∧ r < f'.maxRegisters) ↔ (Pinned f' r ∨ r ∈ namedRegisters f')) ∧
    ∀ table call args globals,
      f'.outcome program table call args globals = f.outcome program table call args globals := by
  have hf := verified_of_irVerify haccepted
  have hrenamed := reduceRegisterPressure_renamed hf locals
  refine ⟨⟨(regMap f).apply, regMap_injOn f, fun r => apply_pinned, rfl, localsFollow_iff f locals⟩,
    fun r => ?_,
    fun table call args globals => outcome_renamed hrenamed table call
      (runnable_of_irVerify haccepted) args globals⟩
  rw [maxRegisters_eq, namedRegisters_rename (f := f) hrenamed.instructions]
  constructor
  · rintro ⟨hpos, hlt⟩
    obtain ⟨s, hs⟩ := (regMap_covers f).onto r hpos hlt
    rcases ((regMap_covers f).dom s).mp ⟨r, hs⟩ with hpinned | hmem
    · left
      rw [(regMap_covers f).pinned s hpinned] at hs
      cases hs
      exact hpinned
    · exact .inr ⟨s, hmem, apply_of_some hs⟩
  · rintro (hpinned | ⟨s, hs, rfl⟩)
    · have hpinned : Pinned f r := hpinned
      have hrange := apply_range (.inl hpinned)
      rwa [apply_pinned hpinned] at hrange
    · exact apply_range (.inr hs)

/-- Carries one variable in r3; the code of the other, in r1, is gone. -/
def vanished : IRFunction where
  name := "vanished"
  parameters := []
  maxRegisters := 4
  instructions :=
    [{ opcode := .loadImm, operands := [.reg 3, .imm 7] },
     { opcode := .move, operands := [.reg 0, .reg 3] },
     { opcode := .returnOp, operands := [] }]

def vanishedProgram : IRProgram where
  functions := [vanished]
  strings := ⟨[], List.nodup_nil⟩
  stringConstants := []
  globals := []

theorem reduceRegisterPressure_renames_vanished :
    irVerify (some vanishedProgram.strings) vanished = .ok () ∧
      (recomputeMaxRegisters (reduceRegisterPressure vanished [⟨"y", 3⟩]).1).maxRegisters = 2 ∧
      (recomputeMaxRegisters (reduceRegisterPressure vanished [⟨"y", 3⟩]).1).outcome
        vanishedProgram noGlobals (callAt vanishedProgram noGlobals 256) [] [] =
        some { result := .int 7, globals := [], trace := [] } :=
  ⟨rfl, rfl, ((reduceRegisterPressure_renames vanishedProgram vanished [⟨"y", 3⟩] rfl).2.2
    noGlobals _ [] []).trans rfl⟩

-- x keeps the number that y's register gets
theorem vanished_local_aliases :
    irVerify (some vanishedProgram.strings) vanished = .ok () ∧
      (reduceRegisterPressure vanished [⟨"x", 1⟩, ⟨"y", 3⟩]).2 = [⟨"x", 1⟩, ⟨"y", 1⟩] ∧
      ¬ LocalsFollow (regMap vanished).apply vanished
        (recomputeMaxRegisters (reduceRegisterPressure vanished [⟨"x", 1⟩, ⟨"y", 3⟩]).1)
        [⟨"x", 1⟩, ⟨"y", 3⟩] (reduceRegisterPressure vanished [⟨"x", 1⟩, ⟨"y", 3⟩]).2 := by
  refine ⟨rfl, rfl, ?_⟩
  rw [localsFollow_iff]
  intro h
  have hx := h ⟨"x", 1⟩ List.mem_cons_self
  unfold DebugLocal.Follows at hx
  revert hx
  decide

/-! ## 5. A second run -/

section Again

variable {f f' : IRFunction} {named : List Int} {m m' : RegMap} {v : Int}

theorem RegMap.map_visit (h : m.map r = some v) (s : Int) : (m.visit s).map r = some v := by
  unfold RegMap.visit
  split
  · rename_i hnone
    dsimp only
    rwa [Function.update_of_ne]
    rintro rfl
    rw [h] at hnone
    cases hnone
  · exact h

theorem RegMap.map_foldl (h : m.map r = some v) (rs : List Int) :
    (rs.foldl RegMap.visit m).map r = some v := by
  induction rs generalizing m with
  | nil => exact h
  | cons s rs ih => exact ih (RegMap.map_visit h s)

/-- `m'` gives every register below the count of `m` its own number. -/
structure RegMap.Compact (m m' : RegMap) : Prop where
  next : m'.next = m.next
  map : ∀ v, m'.map v = if 0 ≤ v ∧ v < m.next then some v else none

theorem compact_start (f : IRFunction) : (RegMap.start f).Compact (.start f) := by
  refine ⟨rfl, fun v => if_congr ?_ rfl rfl⟩
  unfold RegMap.start Pinned
  dsimp only
  omega

theorem RegMap.Compact.visit (h : m.Compact m') (hm : m.Covers f named)
    (hv : (m.visit r).map r = some v) :
    (m.visit r).Compact (m'.visit v) := by
  unfold RegMap.visit at hv ⊢
  split at hv
  · rename_i hnone
    -- a new register gets the next number, in both
    dsimp only at hv
    rw [Function.update_self] at hv
    cases hv
    have hnext := hm.next
    have hfree : m'.map m.next = none := by
      rw [h.map, if_neg (by omega)]
    rw [if_pos hnone, hfree, Option.isNone_none, if_pos rfl]
    refine ⟨congrArg (· + 1) h.next, fun w => ?_⟩
    dsimp only
    by_cases hw : w = m.next
    · rw [hw, Function.update_self, h.next, if_pos (by omega)]
    · rw [Function.update_of_ne hw, h.map]
      exact if_congr (by omega) rfl rfl
  · rename_i hsome
    rw [if_neg hsome, h.map, if_pos (hm.range r v hv), if_neg (by simp)]
    exact h

theorem RegMap.Compact.foldl (h : m.Compact m') (hm : m.Covers f named) (rs : List Int) :
    (rs.foldl RegMap.visit m).Compact
      ((rs.map (rs.foldl RegMap.visit m).apply).foldl RegMap.visit m') := by
  induction rs generalizing m m' named with
  | nil => exact h
  | cons r rs ih =>
    obtain ⟨v, hv⟩ := ((hm.visit r).dom r).mpr
      (.inr (List.mem_append_right named (List.mem_singleton_self r)))
    have happly : ((r :: rs).foldl RegMap.visit m).apply r = v := apply_of_some (RegMap.map_foldl hv rs)
    rw [List.map_cons, happly]
    exact ih (h.visit hm hv) (hm.visit r)

theorem namedRegisters_map {σ : Int → Int}
    (h : f'.instructions = f.instructions.map (renameInstruction σ)) :
    namedRegisters f' = (namedRegisters f).map σ := by
  unfold namedRegisters
  rw [h, List.flatMap_map, List.map_flatMap]
  refine List.flatMap_congr fun instr _ => ?_
  unfold renameInstruction
  rw [List.filterMap_map, List.map_filterMap]
  refine List.filterMap_congr fun operand _ => ?_
  cases operand <;> rfl

theorem renameInstruction_id : renameInstruction id = id := by
  have hoperand : renameOperand id = id := by
    funext operand
    cases operand <;> rfl
  funext instr
  unfold renameInstruction
  rw [hoperand, List.map_id]
  rfl

/-- Compaction leaves no gaps: a second run gives every register, and with it every variable, its
own number. -/
theorem reduceRegisterPressure_idempotent (f : IRFunction) (locals : List DebugLocal) :
    reduceRegisterPressure (reduceRegisterPressure f locals).1 (reduceRegisterPressure f locals).2 =
      reduceRegisterPressure f locals := by
  have hnamed : namedRegisters (reduceRegisterPressure f locals).1 = (namedRegisters f).map
    (regMap f).apply :=
    namedRegisters_map rfl
  have hcompact : (regMap f).Compact (regMap (reduceRegisterPressure f locals).1) := by
    unfold regMap at hnamed ⊢
    rw [hnamed]
    exact (compact_start f).foldl (covers_start f) (namedRegisters f)
  have hid : (regMap (reduceRegisterPressure f locals).1).apply = id := by
    funext v
    unfold RegMap.apply
    rw [hcompact.map]
    split <;> rfl
  generalize reduceRegisterPressure f locals = g at hid ⊢
  unfold reduceRegisterPressure
  rw [hid, renameInstruction_id, List.map_id]
  exact Prod.ext rfl (List.map_id _)

end Again

end Optimizer
