import GdscriptCompiler.Riscv.RelaxTermination
import GdscriptCompiler.Riscv.Symbolic
import Mathlib.Data.List.Find
import Mathlib.Tactic.Common
import Mathlib.Tactic.IntervalCases

/-! # RelaxSimulation — the relaxed buffer runs the emitted program -/

namespace Riscv

open Lib

/-! ## 1. The words relaxation writes, as the machine reads them -/

theorem funct3Of_invertBranch (instr : Word) :
    funct3Of (invertBranch instr) = funct3Of instr ^^^ 1 := by
  unfold funct3Of invertBranch
  apply BitVec.eq_of_getLsbD_eq
  intro i hi
  interval_cases i <;> simp

theorem rs1Of_invertBranch (instr : Word) : rs1Of (invertBranch instr) = rs1Of instr := by
  unfold rs1Of invertBranch
  apply BitVec.eq_of_getLsbD_eq
  intro i hi
  interval_cases i <;> simp

theorem rs2Of_invertBranch (instr : Word) : rs2Of (invertBranch instr) = rs2Of instr := by
  unfold rs2Of invertBranch
  apply BitVec.eq_of_getLsbD_eq
  intro i hi
  interval_cases i <;> simp

theorem rdField_eq (instr : Word) : rdField instr = (rdOf instr).setWidth 32 := by
  unfold rdField rdOf
  apply BitVec.eq_of_getLsbD_eq
  intro i hi
  interval_cases i <;> simp

theorem opcodeOf_jalrScratch (r : BitVec 5) : opcodeOf (jalrScratch (r.setWidth 32)) = opJalr := by
  revert r
  decide

theorem rdOf_jalrScratch (r : BitVec 5) : rdOf (jalrScratch (r.setWidth 32)) = r := by
  revert r
  decide

theorem rs1Of_jalrScratch (r : BitVec 5) : rs1Of (jalrScratch (r.setWidth 32)) = 31 := by
  revert r
  decide

theorem rdOf_auipcScratch : rdOf auipcScratch = 31 := by decide

theorem rdOf_opJal : rdOf opJal = 0 := by decide

theorem dispatchScale_shAdd (index : BitVec 5) :
    dispatchScale (shAdd 4 index) = some (2, index) ∧
      dispatchScale (shAdd 6 index) = some (3, index) := by
  revert index
  decide

section Machines

variable {μ : Type*}

theorem write_zero (m : Machine μ) (v : BitVec 64) : m.write 0 v = m := by
  cases m with
  | mk regs rest => simp [Machine.write]

theorem sameButScratch_write (m : Machine μ) (v w : BitVec 64) (r : BitVec 5) :
    SameButScratch (m.write r w) ((m.write 31 v).write r w) := by
  refine ⟨?_, rfl⟩
  intro r' hr'
  simp only [Machine.write]
  rw [if_neg (fun h : r' = 31 ∧ _ => hr' h.1)]

end Machines

/-! ## 2. Finding the moved uses and tables -/

variable {use : LabelUse}

section Lookup

variable {b₀ b : CodeBuffer} {φ : Nat → Nat} {form : Nat → UseForm} {pos : Nat}

theorem useAt_some (h : b.useAt pos = some use) :
    ∃ j : Nat, b.labelUses[j]? = some use ∧ use.codeOffset = pos := by
  obtain ⟨j, hj⟩ := List.mem_iff_getElem?.mp (List.mem_of_find?_eq_some h)
  exact ⟨j, hj, by simpa using List.find?_some h⟩

theorem useAt_of_get {j : Nat} (h : b.labelUses[j]? = some use) :
    ∃ u, b.useAt use.codeOffset = some u := by
  apply Option.isSome_iff_exists.mp
  apply List.find?_isSome.mpr
  exact ⟨use, List.mem_of_getElem? h, by simp⟩

theorem useAt_none
    (h : ∀ (j : Nat) (use : LabelUse), b.labelUses[j]? = some use → use.codeOffset ≠ pos) :
    b.useAt pos = none := by
  cases hu : b.useAt pos with
  | none => rfl
  | some use =>
    obtain ⟨j, hj, hpos⟩ := useAt_some hu
    exact absurd hpos (h j use hj)

variable {i : Nat}

section

variable (h : Relaxing b₀ b φ form) (he : Emitted b₀)
include h he

theorem Relaxing.useAt_slot (hu : b₀.labelUses[i]? = some use) :
    b.useAt (φ (b₀.useOffset i) + 4 * formSlot (b₀.useWord i) (form i)) = some ⟨use.label,
      φ (b₀.useOffset i) + 4 * formSlot (b₀.useWord i) (form i), use.addend⟩ := by
  have hi := (List.getElem?_eq_some_iff.mp hu).1
  have hmoved := h.uses i use hu
  rw [← useOffset_of_get hu] at hmoved
  obtain ⟨u, hfound⟩ := useAt_of_get hmoved
  dsimp only at hfound
  rw [hfound, Option.some.injEq]
  obtain ⟨j, hj, hpos⟩ := useAt_some hfound
  by_cases hjl : j < b₀.labelUses.length
  · have hoff := h.useOffset_eq hjl
    rw [useOffset_of_get hj, hpos] at hoff
    obtain ⟨rfl, -⟩ := h.slot_eq he hi hjl (formSlot_lt _ _) (formSlot_lt _ _) hoff
    rw [hmoved, Option.some.injEq] at hj
    exact hj.symm
  · -- a skip sits on the first word of a branch, whose own slot is the second
    obtain ⟨k, hk, hop, hf, hoff, -⟩ := h.skips j u (by omega) hj
    rw [hpos] at hoff
    have hpos' : 0 < (formWords (b₀.useWord k) (form k)).length :=
      Nat.lt_of_le_of_lt (Nat.zero_le _) (formSlot_lt _ _)
    obtain ⟨rfl, hslot⟩ := h.slot_eq (l := 0) he hi hk (formSlot_lt _ _) hpos' hoff
    rw [formSlot, if_pos ⟨hop, hf⟩] at hslot
    cases hslot

theorem Relaxing.useAt_skip (hi : i < b₀.labelUses.length)
    (hop : opcodeOf (b₀.useWord i) = opBranch) (hf : form i ≠ .kept) :
    ∃ skip, b.useAt (φ (b₀.useOffset i)) = some skip ∧
      b.target skip = some (φ (b₀.useOffset i + 4)) := by
  obtain ⟨j, id, -, hu⟩ := h.skipOf i hi hop hf
  obtain ⟨u, hfound⟩ := useAt_of_get hu
  dsimp only at hfound
  refine ⟨u, hfound, ?_⟩
  have hpos' : 0 < (formWords (b₀.useWord i) (form i)).length :=
    Nat.lt_of_le_of_lt (Nat.zero_le _) (formSlot_lt _ _)
  obtain ⟨k, hk, hpos⟩ := useAt_some hfound
  by_cases hkl : k < b₀.labelUses.length
  · have hoff := h.useOffset_eq hkl
    rw [useOffset_of_get hk, hpos] at hoff
    obtain ⟨rfl, hslot⟩ := h.slot_eq (k := 0) he hi hkl hpos' (formSlot_lt _ _) hoff
    rw [formSlot, if_pos ⟨hop, hf⟩] at hslot
    cases hslot
  · obtain ⟨i', hi', -, -, hoff, hadd, -, hlab⟩ := h.skips k u (by omega) hk
    rw [hpos] at hoff
    have hsame := h.mono.injective hoff
    rw [CodeBuffer.target, hlab, hadd, ← hsame]
    simp

theorem Relaxing.useAt_plain {off : Nat} (hoff : off % 4 = 0)
    (hne : ∀ i < b₀.labelUses.length, off ≠ b₀.useOffset i) :
    b.useAt (φ off) = none := by
  apply useAt_none
  intro j use hj hpos
  by_cases hjl : j < b₀.labelUses.length
  · have hoffj := h.useOffset_eq hjl
    rw [useOffset_of_get hj, hpos] at hoffj
    exact hne j hjl (h.off_eq he hoff hjl (formSlot_lt _ _) hoffj).1
  · obtain ⟨i, hi, -, -, hoffi, -⟩ := h.skips j use (by omega) hj
    rw [hpos] at hoffi
    exact hne i hi (h.mono.injective hoffi)

theorem Relaxing.tableAt_eq (off : Nat) : b.tableAt (φ off) = b₀.tableAt off := by
  unfold CodeBuffer.tableAt
  rw [h.tables]
  apply List.find?_congr
  intro t ht
  by_cases hc : 0 < t.count
  · have hroom := (he.table t ht hc).room
    have hlead := (h.lead he ht hc).1
    have hfirst := h.firstUse_offset he ht hc
    have hiff : φ (b₀.useOffset t.firstUse) = φ off + 12 ↔ b₀.useOffset t.firstUse = off + 12 := by
      constructor
      · intro heq
        have := h.mono.injective (show φ (b₀.useOffset t.firstUse - 12) = φ off by omega)
        omega
      · intro heq
        rw [hlead, show b₀.useOffset t.firstUse - 12 = off by omega]
    rw [hfirst, Bool.eq_iff_iff]
    simp only [Bool.and_eq_true, beq_iff_eq, hiff]
  · simp [hc]

theorem Relaxing.tableAt_inside {k : Nat}
    (hi : i < b₀.labelUses.length) (hk : k < (formWords (b₀.useWord i) (form i)).length) :
    b.tableAt (φ (b₀.useOffset i) + 4 * k) = none := by
  unfold CodeBuffer.tableAt
  rw [h.tables]
  apply List.find?_eq_none.mpr
  intro t ht hcond
  rw [Bool.and_eq_true, decide_eq_true_iff, beq_iff_eq] at hcond
  obtain ⟨hc, hpos⟩ := hcond
  have hT := he.table t ht hc
  have hroom := hT.room
  have hal := he.aligned t.firstUse (by have := he.tableRange t ht; omega)
  have hlead := (h.lead he ht hc).1
  rw [h.firstUse_offset he ht hc] at hpos
  have hmeet : φ (b₀.useOffset t.firstUse - 12) = φ (b₀.useOffset i) + 4 * k := by omega
  have hsame := (h.off_eq he (by omega) hi hk hmeet).1
  exact hT.lead i hi 12 (by simp) (by omega)

theorem Relaxing.target_eq (pos : Nat) (hu : b₀.labelUses[i]? = some use)
    (hop : opcodeOf (b₀.useWord i) ≠ opAuipc) :
    b.target ⟨use.label, pos, use.addend⟩ = (b₀.target use).map φ := by
  have hadd := he.addend i use hu hop
  unfold CodeBuffer.target
  rw [hadd, h.labels use.label (he.named use (List.mem_of_getElem? hu))]
  cases b₀.labelOffset use.label with
  | none => rfl
  | some off => simp

theorem Relaxing.reach_eq {sym sym' : Symbols} (hmv : sym.Moved sym' φ)
    (hu : b₀.labelUses[i]? = some use) :
    b.reach sym' ⟨use.label, pos, use.addend⟩ = b₀.reach sym use := by
  unfold CodeBuffer.reach
  rw [h.labels use.label (he.named use (List.mem_of_getElem? hu))]
  cases b₀.labelOffset use.label with
  | none => simp only [Option.map_none, hmv.data]
  | some off => simp only [Option.map_some, hmv.address]

end

end Lookup

/-! ## 3. One step -/

/-- Some word of a table's dispatch other than the first: no run starts or jumps there. -/
def CodeBuffer.InsideDispatch (b : CodeBuffer) (off : Nat) : Prop :=
  ∃ t ∈ b.denseJumpTables, 0 < t.count ∧
    (off + 8 = b.useOffset t.firstUse ∨ off + 4 = b.useOffset t.firstUse)

/-- One step of `b₀` at `off` against the run of `b` from `φ off`: it ends where the step does, with
t6 alone changed on top and only at a label use, or gets stuck where the step does. -/
def Simulated {μ : Type*} (core : Core μ) (sym sym' : Symbols) (b₀ b : CodeBuffer) (φ : Nat → Nat)
    (off : Nat) (m : Machine μ) : Prop :=
  match step core sym b₀ off m with
  | some (off', m') => ∃ k m'', (k = 1 ∨ k = 2) ∧
      steps core sym' b k (φ off) m = some (φ off', m'') ∧ SameButScratch m' m'' ∧
      ((∀ i < b₀.labelUses.length, off ≠ b₀.useOffset i) → m'' = m')
  | none => ∃ k, (k = 1 ∨ k = 2) ∧ steps core sym' b k (φ off) m = none

variable {t : DenseJumpTable}

section Steps

variable {μ : Type*} (core : Core μ) (sym : Symbols) {b : CodeBuffer} {pos : Nat} (m : Machine μ)

section

variable (hal : pos % 4 = 0) (hin : pos + 4 ≤ b.code.length)
include hal hin

theorem step_table (ht : b.tableAt pos = some t) :
    step core sym b pos m = stepTable sym b t pos m := by
  rw [step, if_pos ⟨hal, hin⟩, ht]

theorem step_use (ht : b.tableAt pos = none) (hu : b.useAt pos = some use) :
    step core sym b pos m = stepUse core sym b use pos m := by
  rw [step, if_pos ⟨hal, hin⟩, ht]
  dsimp only
  rw [hu]

theorem step_plain (ht : b.tableAt pos = none) (hu : b.useAt pos = none) :
    step core sym b pos m = stepPlain core sym b pos m := by
  rw [step, if_pos ⟨hal, hin⟩, ht]
  dsimp only
  rw [hu]

end

section StepUse

variable {use : LabelUse} {w next : Word}

section

variable (hw : loadWord b.code pos = w)
include hw

theorem stepUse_branch (hop : opcodeOf w = opBranch) :
    stepUse core sym b use pos m =
      (branchCond (funct3Of w) (m.read (rs1Of w)) (m.read (rs2Of w))).bind fun taken =>
        if taken then (b.target use).map fun off => (off, m) else some (pos + 4, m) := by
  unfold stepUse
  rw [hw]
  dsimp only
  rw [if_pos hop]
  cases branchCond (funct3Of w) (m.read (rs1Of w)) (m.read (rs2Of w)) with
  | none => rfl
  | some taken => cases taken <;> rfl

theorem stepUse_jal (hop : opcodeOf w = opJal) :
    stepUse core sym b use pos m =
      (b.target use).map fun off => (off, m.write (rdOf w) (sym.address (pos + 4))) := by
  have hne : opcodeOf w ≠ opBranch := by rw [hop]; decide
  unfold stepUse
  rw [hw]
  dsimp only
  rw [if_neg hne, if_pos hop]

theorem stepUse_far (hop : opcodeOf w = opAuipc) (hnext : loadWord b.code (pos + 4) = next)
    (hjalr : opcodeOf next = opJalr) (hrs : rs1Of next = rdOf w) :
    stepUse core sym b use pos m = (b.target use).map fun off =>
      (off, (m.write (rdOf w) (sym.page off)).write (rdOf next) (sym.address (pos + 8))) := by
  have hne : opcodeOf w ≠ opBranch := by rw [hop]; decide
  have hne' : opcodeOf w ≠ opJal := by rw [hop]; decide
  unfold stepUse
  rw [hw, hnext]
  dsimp only
  rw [if_neg hne, if_neg hne', if_pos hop, if_pos hjalr, if_pos hrs]

theorem stepUse_pair (hop : opcodeOf w = opAuipc) (hnext : loadWord b.code (pos + 4) = next)
    (hjalr : opcodeOf next ≠ opJalr) :
    stepUse core sym b use pos m =
      (core.pair w next (b.reach sym use) m).map fun m => (pos + 8, m) := by
  have hne : opcodeOf w ≠ opBranch := by rw [hop]; decide
  have hne' : opcodeOf w ≠ opJal := by rw [hop]; decide
  unfold stepUse
  rw [hw, hnext]
  dsimp only
  rw [if_neg hne, if_neg hne', if_pos hop, if_neg hjalr]

end

end StepUse

theorem steps_one : steps core sym b 1 pos m = step core sym b pos m := by
  unfold steps
  cases step core sym b pos m with
  | none => rfl
  | some next => rfl

theorem steps_two {pos' : Nat} {m' : Machine μ} (h : step core sym b pos m = some (pos', m')) :
    steps core sym b 2 pos m = step core sym b pos' m' := by
  rw [← steps_one core sym (b := b) m', steps, h, Option.bind_some]

end Steps

section Simulation

variable {μ : Type*} (core : Core μ) {sym sym' : Symbols} {b₀ b : CodeBuffer} {φ : Nat → Nat}
  {form : Nat → UseForm} {off i : Nat} {use : LabelUse} (m : Machine μ)

theorem simulated_of_step
    (h : step core sym' b (φ off) m = (step core sym b₀ off m).map fun r => (φ r.1, r.2)) :
    Simulated core sym sym' b₀ b φ off m := by
  unfold Simulated
  cases hs : step core sym b₀ off m with
  | none =>
    rw [hs] at h
    exact ⟨1, Or.inl rfl, by rw [steps_one, h]; rfl⟩
  | some r =>
    rw [hs] at h
    exact ⟨1, r.2, Or.inl rfl, by rw [steps_one, h]; rfl, SameButScratch.refl _, fun _ => rfl⟩

theorem Relaxing.aligned_slot (h : Relaxing b₀ b φ form) (he : Emitted b₀)
    (hi : i < b₀.labelUses.length) (k : Nat) :
    (φ (b₀.useOffset i) + 4 * k) % 4 = 0 := by
  have := he.aligned i hi
  have := h.mod (b₀.useOffset i)
  omega

theorem Relaxing.inside_slot (h : Relaxing b₀ b φ form) (he : Emitted b₀)
    (hi : i < b₀.labelUses.length) {k : Nat} (hk : k < (formWords (b₀.useWord i) (form i)).length) :
    φ (b₀.useOffset i) + 4 * k + 4 ≤ b.code.length := by
  have hmono := h.mono.monotone (he.inside i hi)
  rw [h.useGap i hi] at hmono
  rw [h.length]
  omega

theorem Emitted.step_at_use (he : Emitted b₀) (hu : b₀.labelUses[i]? = some use) :
    step core sym b₀ (b₀.useOffset i) m = stepUse core sym b₀ use (b₀.useOffset i) m := by
  have hi := (List.getElem?_eq_some_iff.mp hu).1
  have hstart := Relaxing.start b₀
  have hslot : formSlot (b₀.useWord i) .kept = 0 := if_neg fun hc => hc.2 rfl
  have ht : b₀.tableAt (b₀.useOffset i) = none := hstart.tableAt_inside (k := 0) he hi Nat.one_pos
  have hfound := hstart.useAt_slot he hu
  rw [hslot] at hfound
  have heq : (⟨use.label, b₀.useOffset i, use.addend⟩ : LabelUse) = use := by
    rw [useOffset_of_get hu]
  rw [step_use core sym m (he.aligned i hi) (he.inside i hi) ht (hfound.trans (congrArg some heq))]

theorem Relaxing.pair_word (h : Relaxing b₀ b φ form) (he : Emitted b₀)
    (hi : i < b₀.labelUses.length) (hop : opcodeOf (b₀.useWord i) = opAuipc) :
    loadWord b.code (φ (b₀.useOffset i) + 4) = loadWord b₀.code (b₀.useOffset i + 4) ∧
      φ (b₀.useOffset i + 8) = φ (b₀.useOffset i) + 8 := by
  obtain ⟨hlen, -, hfree⟩ := he.pair i hi hop
  have hal := he.aligned i hi
  have hkept := h.auipcKept i hi hop
  have hgap := h.useGap i hi
  rw [hkept] at hgap
  have hne : ∀ j < b₀.labelUses.length, b₀.useOffset i + 4 ≠ b₀.useOffset j :=
    fun j hj heq => hfree j hj heq.symm
  have hnext := h.gap (b₀.useOffset i + 4) (by omega) hne
  have hword := h.word (b₀.useOffset i + 4) (by omega) (by omega) hne ?_
  · rw [hgap] at hword hnext
    exact ⟨hword, hnext⟩
  · intro t ht hc _ heq
    exact (he.table t ht hc).lead i hi 12 (by simp) (by omega)

theorem Relaxing.simulated_kept (h : Relaxing b₀ b φ form) (he : Emitted b₀)
    (hmv : sym.Moved sym' φ) (hu : b₀.labelUses[i]? = some use) (hf : form i = .kept) :
    Simulated core sym sym' b₀ b φ (b₀.useOffset i) m := by
  have hi := (List.getElem?_eq_some_iff.mp hu).1
  have hslot : formSlot (b₀.useWord i) (form i) = 0 := if_neg fun hc => hc.2 hf
  have hgap : φ (b₀.useOffset i + 4) = φ (b₀.useOffset i) + 4 := by
    rw [h.useGap i hi, hf]
    rfl
  have hword : loadWord b.code (φ (b₀.useOffset i)) = b₀.useWord i := by
    apply h.useWords i hi 0
    rw [hf]
    rfl
  have hlen : 0 < (formWords (b₀.useWord i) (form i)).length := by rw [hf]; exact Nat.one_pos
  have hfound := h.useAt_slot he hu
  rw [hslot] at hfound
  apply simulated_of_step
  have hstep : step core sym' b (φ (b₀.useOffset i)) m = stepUse core sym' b
      ⟨use.label, φ (b₀.useOffset i), use.addend⟩ (φ (b₀.useOffset i)) m :=
    step_use core sym' m (h.aligned_slot he hi 0) (h.inside_slot he hi hlen)
      (h.tableAt_inside he hi hlen) hfound
  rw [he.step_at_use core m hu, hstep]
  have hword₀ : loadWord b₀.code (b₀.useOffset i) = b₀.useWord i := rfl
  rcases he.opcode i hi with hop | hop | hop
  · -- a branch in range
    have htgt := h.target_eq he (φ (b₀.useOffset i)) hu (by rw [hop]; decide)
    rw [stepUse_branch core sym' m hword hop, stepUse_branch core sym m hword₀ hop, htgt, ← hgap]
    cases branchCond (funct3Of (b₀.useWord i)) (m.read (rs1Of (b₀.useWord i)))
        (m.read (rs2Of (b₀.useWord i))) with
    | none => rfl
    | some taken =>
      cases taken with
      | false => rfl
      | true =>
        simp only [Option.bind_some, if_true, Option.map_map]
        rfl
  · -- a JAL in range
    have htgt := h.target_eq he (φ (b₀.useOffset i)) hu (by rw [hop]; decide)
    rw [stepUse_jal core sym' m hword hop, stepUse_jal core sym m hword₀ hop, htgt, ← hgap,
      hmv.address, Option.map_map, Option.map_map]
    rfl
  · -- the AUIPC of a pair
    obtain ⟨hnext, hpos⟩ := h.pair_word he hi hop
    have hjalr := (he.pair i hi hop).2.1
    rw [stepUse_pair core sym' m hword hop hnext hjalr, stepUse_pair core sym m hword₀ hop rfl hjalr,
      h.reach_eq he hmv hu, Option.map_map, ← hpos]
    rfl

/-- The second word of a rewritten branch takes the branch. -/
theorem Relaxing.step_carrier (sym' : Symbols) (h : Relaxing b₀ b φ form) (he : Emitted b₀)
    (hu : b₀.labelUses[i]? = some use) (hop : opcodeOf (b₀.useWord i) = opBranch)
    (hf : form i ≠ .kept) :
    ∃ clobber : Nat → Machine μ, (∀ off, SameButScratch m (clobber off)) ∧
      step core sym' b (φ (b₀.useOffset i) + 4) m =
        (b₀.target use).map fun off => (φ off, clobber off) := by
  have hi := (List.getElem?_eq_some_iff.mp hu).1
  have hslot : formSlot (b₀.useWord i) (form i) = 1 := if_pos ⟨hop, hf⟩
  have hlen := formSlot_lt (b₀.useWord i) (form i)
  rw [hslot] at hlen
  have hfound := h.useAt_slot he hu
  rw [hslot] at hfound
  have htgt := h.target_eq he (φ (b₀.useOffset i) + 4 * 1) hu (by rw [hop]; decide)
  have hstep : step core sym' b (φ (b₀.useOffset i) + 4) m = stepUse core sym' b
      ⟨use.label, φ (b₀.useOffset i) + 4 * 1, use.addend⟩ (φ (b₀.useOffset i) + 4) m :=
    step_use core sym' m (h.aligned_slot he hi 1) (h.inside_slot he hi hlen)
      (h.tableAt_inside he hi hlen) hfound
  rw [hstep]
  cases hform : form i with
  | kept => exact absurd hform hf
  | near =>
    have hword : loadWord b.code (φ (b₀.useOffset i) + 4) = opJal := by
      apply h.useWords i hi 1
      rw [hform]
      rfl
    refine ⟨fun _ => m, fun _ => SameButScratch.refl m, ?_⟩
    rw [stepUse_jal core sym' m hword opcodeOf_opJal, htgt, Option.map_map, rdOf_opJal, write_zero]
    rfl
  | far =>
    have hword : loadWord b.code (φ (b₀.useOffset i) + 4) = auipcScratch := by
      apply h.useWords i hi 1
      rw [hform, formWords, if_pos hop]
      rfl
    have hnext : loadWord b.code (φ (b₀.useOffset i) + 4 + 4) = jalrScratch (rdField opJal) := by
      apply h.useWords i hi 2
      rw [hform, formWords, if_pos hop]
      rfl
    rw [rdField_eq] at hnext
    refine ⟨fun off => (m.write 31 (sym'.page (φ off))).write 0
      (sym'.address (φ (b₀.useOffset i) + 4 + 8)), ?_, ?_⟩
    · intro off
      have hs := sameButScratch_write m (sym'.page (φ off))
        (sym'.address (φ (b₀.useOffset i) + 4 + 8)) 0
      rw [write_zero m] at hs
      exact hs
    · rw [stepUse_far core sym' m hword opcodeOf_auipcScratch hnext (opcodeOf_jalrScratch _)
        ((rs1Of_jalrScratch _).trans rdOf_auipcScratch.symm), htgt, Option.map_map,
        rdOf_jalrScratch, rdOf_auipcScratch, rdOf_opJal]
      rfl

section

variable (h : Relaxing b₀ b φ form) (he : Emitted b₀)
include h he

/-- A branch rewritten to its inverse over a jump. -/
theorem Relaxing.simulated_branch (hu : b₀.labelUses[i]? = some use)
    (hop : opcodeOf (b₀.useWord i) = opBranch) (hf : form i ≠ .kept) :
    Simulated core sym sym' b₀ b φ (b₀.useOffset i) m := by
  have hi := (List.getElem?_eq_some_iff.mp hu).1
  have hlen : 0 < (formWords (b₀.useWord i) (form i)).length :=
    Nat.lt_of_le_of_lt (Nat.zero_le _) (formSlot_lt _ _)
  have hword : loadWord b.code (φ (b₀.useOffset i)) = invertBranch (b₀.useWord i) := by
    apply h.useWords i hi 0
    cases hform : form i with
    | kept => exact absurd hform hf
    | near => rfl
    | far => simp [formWords, hop]
  obtain ⟨skip, hfound, hskip⟩ := h.useAt_skip he hi hop hf
  obtain ⟨clobber, hsame, hcarrier⟩ := h.step_carrier core m sym' he hu hop hf
  have hstep : step core sym' b (φ (b₀.useOffset i)) m = stepUse core sym' b skip
    (φ (b₀.useOffset i)) m :=
    step_use core sym' m (h.aligned_slot he hi 0) (h.inside_slot he hi hlen)
      (h.tableAt_inside he hi hlen) hfound
  rw [stepUse_branch core sym' m hword ((opcodeOf_invertBranch _).trans hop),
    funct3Of_invertBranch, rs1Of_invertBranch, rs2Of_invertBranch, branchCond_flip, hskip] at hstep
  have hstep₀ : step core sym b₀ (b₀.useOffset i) m =
      (branchCond (funct3Of (b₀.useWord i)) (m.read (rs1Of (b₀.useWord i)))
        (m.read (rs2Of (b₀.useWord i)))).bind fun taken =>
          if taken then (b₀.target use).map fun off => (off, m) else some (b₀.useOffset i + 4, m) :=
    (he.step_at_use core m hu).trans (stepUse_branch core sym m rfl hop)
  unfold Simulated
  cases hcond : branchCond (funct3Of (b₀.useWord i)) (m.read (rs1Of (b₀.useWord i)))
      (m.read (rs2Of (b₀.useWord i))) with
  | none =>
    rw [hcond] at hstep hstep₀
    rw [hstep₀]
    exact ⟨1, Or.inl rfl, (steps_one core sym' m).trans hstep⟩
  | some taken =>
    rw [hcond] at hstep hstep₀
    cases taken with
    | false =>
      -- the inverse is taken, over the jump
      rw [hstep₀]
      exact ⟨1, m, Or.inl rfl, (steps_one core sym' m).trans hstep, SameButScratch.refl m, fun _ => rfl⟩
    | true =>
      -- the inverse falls into the jump
      have htwo : steps core sym' b 2 (φ (b₀.useOffset i)) m = (b₀.target use).map fun off =>
        (φ off, clobber off) :=
        (steps_two core sym' m hstep).trans hcarrier
      rw [hstep₀]
      cases htarget : b₀.target use with
      | none =>
        rw [htarget] at htwo
        exact ⟨2, Or.inr rfl, htwo⟩
      | some off =>
        rw [htarget] at htwo
        exact ⟨2, clobber off, Or.inr rfl, htwo, hsame off, fun hne => absurd rfl (hne i hi)⟩

theorem Relaxing.simulated_jump (hmv : sym.Moved sym' φ) (hu : b₀.labelUses[i]? = some use)
    (hop : opcodeOf (b₀.useWord i) = opJal) (hf : form i = .far) :
    Simulated core sym sym' b₀ b φ (b₀.useOffset i) m := by
  have hi := (List.getElem?_eq_some_iff.mp hu).1
  have hne : opcodeOf (b₀.useWord i) ≠ opBranch := by rw [hop]; decide
  have hslot : formSlot (b₀.useWord i) (form i) = 0 := if_neg fun hc => hne hc.1
  have hforms : formWords (b₀.useWord i) (form i) = [auipcScratch,
    jalrScratch (rdField (b₀.useWord i))] := by
    rw [hf, formWords, if_neg hne]
  have hlen : 0 < (formWords (b₀.useWord i) (form i)).length := by rw [hforms]; exact Nat.two_pos
  have hgap := h.useGap i hi
  rw [hforms] at hgap
  have hword : loadWord b.code (φ (b₀.useOffset i)) = auipcScratch := by
    apply h.useWords i hi 0
    rw [hforms]
    rfl
  have hnext : loadWord b.code (φ (b₀.useOffset i) + 4) = jalrScratch (rdField (b₀.useWord i)) := by
    apply h.useWords i hi 1
    rw [hforms]
    rfl
  rw [rdField_eq] at hnext
  have hfound := h.useAt_slot he hu
  rw [hslot] at hfound
  have htgt := h.target_eq he (φ (b₀.useOffset i)) hu (by rw [hop]; decide)
  have hstep : step core sym' b (φ (b₀.useOffset i)) m = stepUse core sym' b
      ⟨use.label, φ (b₀.useOffset i), use.addend⟩ (φ (b₀.useOffset i)) m :=
    step_use core sym' m (h.aligned_slot he hi 0) (h.inside_slot he hi hlen)
      (h.tableAt_inside he hi hlen) hfound
  -- the link is the word behind the pair, which is the word behind the call
  have hlink : sym'.address (φ (b₀.useOffset i) + 8) = sym.address (b₀.useOffset i + 4) := by
    rw [← hmv.address, hgap]
    rfl
  rw [stepUse_far core sym' m hword opcodeOf_auipcScratch hnext (opcodeOf_jalrScratch _)
    ((rs1Of_jalrScratch _).trans rdOf_auipcScratch.symm), htgt, Option.map_map, rdOf_jalrScratch,
    rdOf_auipcScratch, hlink] at hstep
  have hstep₀ := (he.step_at_use core m hu).trans (stepUse_jal core sym m rfl hop)
  unfold Simulated
  rw [hstep₀]
  cases htarget : b₀.target use with
  | none =>
    rw [htarget] at hstep
    exact ⟨1, Or.inl rfl, (steps_one core sym' m).trans hstep⟩
  | some off =>
    rw [htarget] at hstep
    exact ⟨1, _, Or.inl rfl, (steps_one core sym' m).trans hstep, sameButScratch_write m _ _ _,
      fun hne => absurd rfl (hne i hi)⟩

theorem Relaxing.simulated_plain (hmv : sym.Moved sym' φ) (hal : off % 4 = 0)
    (hin : off + 4 ≤ b₀.code.length) (hne : ∀ i < b₀.labelUses.length, off ≠ b₀.useOffset i)
    (ht : b₀.tableAt off = none) (hout : ¬ b₀.InsideDispatch off) :
    Simulated core sym sym' b₀ b φ off m := by
  have hgap := h.gap off hal hne
  have hword : loadWord b.code (φ off) = loadWord b₀.code off := by
    apply h.word off hal hin hne
    intro t ht hc _ heq
    exact hout ⟨t, ht, hc, Or.inl heq⟩
  have hal' : φ off % 4 = 0 := by rw [h.mod]; exact hal
  have hin' : φ off + 4 ≤ b.code.length := by
    rw [h.length, ← hgap]
    exact h.mono.monotone hin
  have hu₀ : b₀.useAt off = none := (Relaxing.start b₀).useAt_plain he hal hne
  apply simulated_of_step
  rw [step_plain core sym m hal hin ht hu₀, step_plain core sym' m hal' hin'
    ((h.tableAt_eq he off).trans ht) (h.useAt_plain he hal hne)]
  obtain ⟨hnb, hjal⟩ := he.fixed off hal hin hne
  unfold stepPlain
  rw [hword]
  dsimp only
  rw [if_neg hnb, if_neg hnb]
  by_cases hj : opcodeOf (loadWord b₀.code off) = opJal
  · -- the fast exit jumps back onto the word before it
    obtain ⟨rfl, hw⟩ := hjal hj
    have h0 := h.gap 0 rfl fun i hi heq => he.entryWord i hi heq.symm
    rw [h.zero] at h0
    have hback : (((4 : Nat) : Int) + (immJ 0xFFDFF06F).toInt).toNat = 0 := by decide
    rw [if_pos hj, if_pos hj, hw, ← hgap, hmv.address, show φ 4 = 4 from h0, hback, Option.map_some,
      h.zero]
  · rw [if_neg hj, if_neg hj]
    split
    · rw [hmv.place, ← hgap, hmv.address, Option.map_map, Option.map_map]
      rfl
    · rw [Option.map_map, ← hgap]
      rfl

section

variable (ht : t ∈ b₀.denseJumpTables)
include ht

theorem Relaxing.table_room (hc : 0 < t.count) {k : Nat} (hk : t.Holds k) :
    (formWords (b₀.useWord k) (form k)).length = if form t.firstUse = .kept then 1 else 2 := by
  have hr := he.tableRange t ht
  have hop := (he.table t ht hc).jump_of_holds hk
  have hne : opcodeOf (b₀.useWord k) ≠ opBranch := by rw [hop]; decide
  have hkl : k < b₀.labelUses.length := by have := hk.2; omega
  rw [← h.tableForm t ht k hk]
  cases hform : form k with
  | kept => rfl
  | near => exact absurd (h.nearBranch k hkl hform) hne
  | far =>
    rw [formWords, if_neg hne]
    rfl

theorem Relaxing.entry_offset (k : Nat) (hk : k < t.count) :
    φ (b₀.useOffset t.firstUse + 4 * k) = φ (b₀.useOffset t.firstUse) +
      4 * (if form t.firstUse = .kept then 1 else 2) * k := by
  have hr := he.tableRange t ht
  have hc : 0 < t.count := by omega
  have hT := he.table t ht hc
  induction k with
  | zero => rfl
  | succ k ih =>
    have ih := ih (by omega)
    have hgap := h.useGap (t.firstUse + k) (by omega)
    rw [hT.entry k (by omega), h.table_room he ht hc ⟨by omega, by omega⟩, ih] at hgap
    rw [show b₀.useOffset t.firstUse + 4 * (k + 1) = b₀.useOffset t.firstUse + 4 * k + 4 by omega,
      hgap, Nat.mul_add, Nat.mul_one, Nat.add_assoc]

/-- The words in front of a table, moved: the scale is the one its entries now need. -/
theorem Relaxing.dispatch_words (hc : 0 < t.count) {index : BitVec 5}
    (hscale : loadWord b₀.code (b₀.useOffset t.firstUse - 8) = shAdd 4 index) :
    loadWord b.code (φ (b₀.useOffset t.firstUse - 12)) = auipcTable ∧
      loadWord b.code (φ (b₀.useOffset t.firstUse - 12) + 8) = jalrTable ∧
      dispatchScale (loadWord b.code (φ (b₀.useOffset t.firstUse - 12) + 4)) =
        some (if form t.firstUse = .kept then 2 else 3, index) := by
  have hT := he.table t ht hc
  have hroom := hT.room
  have hr := he.tableRange t ht
  have hal := he.aligned t.firstUse (by omega)
  have hin := he.inside t.firstUse (by omega)
  obtain ⟨-, h8, h4⟩ := h.lead he ht hc
  have hfree : ∀ d ∈ [4, 8, 12], ∀ i < b₀.labelUses.length, b₀.useOffset t.firstUse -
    d ≠ b₀.useOffset i := by
    intro d hd i hi heq
    have hd' : d ≤ 12 := by
      simp only [List.mem_cons, List.not_mem_nil, or_false] at hd
      omega
    exact hT.lead i hi d hd (by omega)
  refine ⟨?_, ?_, ?_⟩
  · rw [h.word _ (by omega) (by omega) (hfree 12 (by simp)), hT.auipc]
    intro s hs hcs _ heq
    have hsr := he.tableRange s hs
    exact hT.lead s.firstUse (by omega) 4 (by simp) (by omega)
  · rw [← h4, h.word _ (by omega) (by omega) (hfree 4 (by simp)), hT.jalr]
    intro s hs hcs _ heq
    -- that would put this table's first entry into the other's dispatch
    exact (he.table s hs hcs).lead t.firstUse (by omega) 4 (by simp) (by omega)
  · rw [← h8]
    by_cases hkept : form t.firstUse = .kept
    · rw [h.word _ (by omega) (by omega) (hfree 8 (by simp)), hscale, if_pos hkept]
      · exact (dispatchScale_shAdd index).1
      · intro s hs hcs hws heq
        have hsr := he.tableRange s hs
        have hsame := he.distinct s.firstUse (by omega) t.firstUse (by omega) (by omega)
        rw [hsame] at hws
        exact hws hkept
    · rw [h.dispatch t ht hc hkept, hscale, widenDispatch_shAdd, if_neg hkept]
      exact (dispatchScale_shAdd index).2

end

/-- A dispatch: the same index reaches the same entry. -/
theorem Relaxing.simulated_table (hmv : sym.Moved sym' φ) (hal : off % 4 = 0)
    (hin : off + 4 ≤ b₀.code.length) (hfind : b₀.tableAt off = some t) :
    Simulated core sym sym' b₀ b φ off m := by
  have ht : t ∈ b₀.denseJumpTables := List.mem_of_find?_eq_some hfind
  have hcond := List.find?_some hfind
  rw [Bool.and_eq_true, decide_eq_true_iff, beq_iff_eq] at hcond
  obtain ⟨hc, hfirst⟩ := hcond
  have hT := he.table t ht hc
  obtain ⟨index, hscale⟩ := hT.scale
  have hoff : b₀.useOffset t.firstUse - 12 = off := by omega
  have hstart := Relaxing.start b₀
  obtain ⟨ha₀, hj₀, hs₀⟩ := hstart.dispatch_words he ht hc hscale
  obtain ⟨ha, hj, hs⟩ := h.dispatch_words he ht hc hscale
  have hlead := (h.lead he ht hc).1
  rw [hoff] at ha₀ hj₀ hs₀ ha hj hs hlead
  have hmod := h.mod off
  have hin' : φ off + 4 ≤ b.code.length := by
    have := h.mono.monotone (he.inside t.firstUse (by have := he.tableRange t ht; omega))
    have := h.mono (show b₀.useOffset t.firstUse < b₀.useOffset t.firstUse + 4 by omega)
    rw [h.length]
    omega
  have hstep₀ : step core sym b₀ off m = stepTable sym b₀ t off m :=
    step_table core sym m hal hin hfind
  have hstep : step core sym' b (φ off) m = stepTable sym' b t (φ off) m :=
    step_table core sym' m (by omega) hin' ((h.tableAt_eq he off).trans hfind)
  apply simulated_of_step
  rw [hstep₀, hstep]
  unfold stepTable
  rw [if_pos ⟨ha, hj⟩, if_pos ⟨ha₀, hj₀⟩, hs]
  have hs₀' : dispatchScale (loadWord b₀.code (off + 4)) = _ := hs₀
  rw [hs₀']
  dsimp only
  rw [hmv.address]
  split
  · rename_i hk
    have hentry := h.entry_offset he ht _ hk
    have hpos : φ off + 12 + ((m.write 6 (sym.address off)).read index).toNat *
        2 ^ (if form t.firstUse = .kept then 2 else 3) =
        φ (off + 12 + ((m.write 6 (sym.address off)).read index).toNat * 2 ^ 2) := by
      rw [← hfirst, Nat.mul_comm _ (2 ^ 2), show (2 : Nat) ^ 2 = 4 from rfl, hentry, hlead]
      split <;> omega
    rw [hpos, hmv.address]
    rfl
  · rfl

theorem Relaxing.simulated (hmv : sym.Moved sym' φ) (hout : ¬ b₀.InsideDispatch off) :
    Simulated core sym sym' b₀ b φ off m := by
  by_cases hpos : off % 4 = 0 ∧ off + 4 ≤ b₀.code.length
  · obtain ⟨hal, hin⟩ := hpos
    cases hfind : b₀.tableAt off with
    | some t => exact h.simulated_table core m he hmv hal hin hfind
    | none =>
      by_cases huse : ∃ i < b₀.labelUses.length, off = b₀.useOffset i
      · obtain ⟨i, hi, rfl⟩ := huse
        have hu := List.getElem?_eq_getElem hi
        by_cases hf : form i = .kept
        · exact h.simulated_kept core m he hmv hu hf
        · rcases he.opcode i hi with hop | hop | hop
          · exact h.simulated_branch core m he hu hop hf
          · have hfar : form i = .far := by
              cases hform : form i with
              | kept => exact absurd hform hf
              | near => exact absurd ((h.nearBranch i hi hform).symm.trans hop) (by decide)
              | far => rfl
            exact h.simulated_jump core m he hmv hu hop hfar
          · exact absurd (h.auipcKept i hi hop) hf
      · have hne : ∀ i < b₀.labelUses.length, off ≠ b₀.useOffset i :=
          fun i hi heq => huse ⟨i, hi, heq⟩
        exact h.simulated_plain core m he hmv hal hin hne hfind hout
  · -- off the code or between words, both are stuck
    apply simulated_of_step
    have hpos' : ¬ (φ off % 4 = 0 ∧ φ off + 4 ≤ b.code.length) := by
      rintro ⟨hal, hin⟩
      rw [h.mod] at hal
      have hlt : off < b₀.code.length := h.mono.lt_iff_lt.mp (by rw [← h.length]; omega)
      have := he.words
      omega
    rw [step, if_neg hpos', step, if_neg hpos]
    rfl

end

end Simulation

end Riscv
