import GdscriptCompiler.Riscv.RelaxSimulation
import Mathlib.Data.List.Basic
import Mathlib.Order.Monotone.Basic
import Mathlib.Tactic.Common

/-!
# RelaxCorrect — `relax_branches` keeps the program

Line-table rows hold 32-bit addresses, so they follow as long as the relaxed code is shorter than 4
GiB.
-/

namespace Riscv

open Lib

universe u

/-- `b'` is the program `b` moved by `φ`. -/
structure SameProgram (b b' : CodeBuffer) (φ : Nat → Nat) : Prop where
  mono : StrictMono φ
  size : b'.code.length = φ b.code.length
  -- words without a label use, the scale word of a table apart
  plain : ∀ off, off % 4 = 0 → off + 4 ≤ b.code.length →
    (∀ i < b.labelUses.length, off ≠ b.useOffset i) →
    (∀ t ∈ b.denseJumpTables, 0 < t.count → off + 8 ≠ b.useOffset t.firstUse) →
    loadWord b'.code (φ off) = loadWord b.code off
  next : ∀ off, off % 4 = 0 → (∀ i < b.labelUses.length, off ≠ b.useOffset i) →
    φ (off + 4) = φ off + 4
  use : ∀ i < b.labelUses.length, ∃ form,
    φ (b.useOffset i + 4) = φ (b.useOffset i) + 4 * (formWords (b.useWord i) form).length ∧
      ∀ k w, (formWords (b.useWord i) form)[k]? = some w →
        loadWord b'.code (φ (b.useOffset i) + 4 * k) = w
  label : ∀ id off, b.labelOffset id = some off → b'.labelOffset id = some (φ off)
  functions : b'.functions = b.functions.map fun entry => (entry.1, φ entry.2)
  instanceInit : b'.instanceInitOffset = φ b.instanceInitOffset
  simulated : ∀ (μ : Type u) (core : Core μ) (sym sym' : Symbols), sym.Moved sym' φ →
    ∀ (off : Nat) (m : Machine μ), ¬ b.InsideDispatch off → Simulated core sym sym' b b' φ off m

/-- Line-table rows follow the words they describe. -/
def RowsMoved (b b' : CodeBuffer) (φ : Nat → Nat) : Prop :=
  b'.lineTable = b.lineTable.map fun e => { e with address := φ e.address }

variable {b : CodeBuffer} {φ : Nat → Nat} {b' : CodeBuffer} {form : Nat → UseForm}

theorem Relaxing.sameProgram (h : Relaxing b b' φ form) (he : Emitted b) :
    SameProgram.{u} b b' φ where
  mono := h.mono
  size := h.length
  plain := fun off hal hin hne hd => h.word off hal hin hne fun t ht hc _ => hd t ht hc
  next := h.gap
  use := fun i hi => ⟨form i, h.useGap i hi, h.useWords i hi⟩
  label := fun id off hoff => by
    rw [h.labels id (he.label id off hoff).2.2, hoff]
    rfl
  functions := h.functions
  instanceInit := h.instanceInit
  simulated := fun _ core _ _ hmv _ m hout => h.simulated core m he hmv hout

/-- Relaxation ends in a buffer that runs the same program. -/
theorem relaxBranches_reaches (b : CodeBuffer) (he : Emitted b) :
    ∃ b' φ form, relaxBranches (2 * b.labelUses.length + 1) b = some b' ∧ Relaxing b b' φ form ∧
      relaxRound b' = none := by
  have htotal := totalWeight_le b fun _ => .kept
  obtain ⟨b', hb'⟩ := (ranking_rounds he).rounds_isSome ⟨_, _, Relaxing.start b, rfl⟩
    (Nat.lt_succ_of_le htotal)
  obtain ⟨⟨φ, form, hrel⟩, hstop⟩ :=
    rounds_invariant (reached_next he) ⟨_, _, Relaxing.start b⟩ hb'
  exact ⟨b', φ, form, hb', hrel, hstop⟩

theorem relaxBranches_sameProgram (b : CodeBuffer) (he : Emitted b) :
    ∃ b' φ, relaxBranches (2 * b.labelUses.length + 1) b = some b' ∧ SameProgram.{u} b b' φ ∧
      (b'.code.length < 2 ^ 32 → RowsMoved b b' φ) := by
  obtain ⟨b', φ, form, hb', hrel, -⟩ := relaxBranches_reaches b he
  exact ⟨b', φ, hb', hrel.sameProgram he, hrel.lines⟩

/-! ## Whole runs -/

/-- Symbols can always be moved along an injective map. -/
theorem Symbols.exists_moved (sym : Symbols) (hφ : Function.Injective φ) :
    ∃ sym', sym.Moved sym' φ := by
  refine ⟨⟨fun pos => sym.address (Function.invFun φ pos), fun a => (sym.place a).map φ, sym.data,
    sym.page⟩, ?_, fun _ => rfl, fun _ => rfl⟩
  intro off
  exact congrArg sym.address (Function.leftInverse_invFun hφ off)

section Runs

variable {μ : Type u} {core : Core μ} {sym sym' : Symbols} {b b' : CodeBuffer} {φ : Nat → Nat}

theorem steps_add (j k pos : Nat) (m : Machine μ) :
    steps core sym b (j + k) pos m =
      (steps core sym b j pos m).bind fun next => steps core sym b k next.1 next.2 := by
  induction j generalizing pos m with
  | zero => rw [Nat.zero_add]; rfl
  | succ j ih =>
    rw [Nat.succ_add, steps, steps]
    cases step core sym b pos m with
    | none => rfl
    | some next => exact ih next.1 next.2

/-- Two machines that may differ in t6, and only where its value is not needed. -/
def ScratchRel (live : Nat → Prop) (off : Nat) (m m' : Machine μ) : Prop :=
  SameButScratch m m' ∧ (live off → m' = m)

/-- What the emitter promises about t6: its value is needed at the offsets `live` only, which no
label use leads to; and control never enters the middle of a dispatch. -/
structure ScratchDead (core : Core μ) (sym : Symbols) (b : CodeBuffer) (live : Nat → Prop) :
    Prop where
  agree : ∀ off m m₂ off' m', ScratchRel live off m m₂ → step core sym b off m = some (off', m') →
    ∃ m₂', step core sym b off m₂ = some (off', m₂') ∧ ScratchRel live off' m' m₂'
  use : ∀ i < b.labelUses.length, ∀ m off' m',
    step core sym b (b.useOffset i) m = some (off', m') → ¬ live off'
  outside : ∀ off m off' m', ¬ b.InsideDispatch off → step core sym b off m = some (off', m') →
    ¬ b.InsideDispatch off'

theorem SameButScratch.trans {m₁ m₂ m₃ : Machine μ} (h : SameButScratch m₁ m₂)
    (h' : SameButScratch m₂ m₃) :
    SameButScratch m₁ m₃ :=
  ⟨fun r hr => (h'.1 r hr).trans (h.1 r hr), h'.2.trans h.2⟩

variable {live : Nat → Prop} (h : SameProgram.{u} b b' φ) (hmv : sym.Moved sym' φ)
  (hd : ScratchDead core sym b live) {off off' : Nat} {m m' m₂ : Machine μ}
  (hout : ¬ b.InsideDispatch off) (hrel : ScratchRel live off m m₂)
include h hmv hd hout hrel

/-- One step under the promise, from machines that agree up to t6. -/
theorem SameProgram.scratch_step (hs : step core sym b off m = some (off', m')) :
    ∃ k m₂', (k = 1 ∨ k = 2) ∧ steps core sym' b' k (φ off) m₂ = some (φ off', m₂') ∧
      ScratchRel live off' m' m₂' := by
  obtain ⟨m₁, hs₁, hrel₁⟩ := hd.agree off m m₂ off' m' hrel hs
  have hsim := h.simulated μ core sym sym' hmv off m₂ hout
  unfold Simulated at hsim
  rw [hs₁] at hsim
  obtain ⟨k, m₂', hk, hrun, hsame, hexact⟩ := hsim
  refine ⟨k, m₂', hk, hrun, hrel₁.1.trans hsame, ?_⟩
  intro hlive
  -- where t6 is needed the step was not at a label use, so it was matched exactly
  have hne : ∀ i < b.labelUses.length, off ≠ b.useOffset i := by
    rintro i hi rfl
    exact hd.use i hi m off' m' hs hlive
  rw [hexact hne, hrel₁.2 hlive]

/-- Every run of the emitted program is a run of the relaxed one, at most twice as long. -/
theorem SameProgram.run (k : Nat) (hs : steps core sym b k off m = some (off', m')) :
    ∃ k' m₂', k ≤ k' ∧ k' ≤ 2 * k ∧ steps core sym' b' k' (φ off) m₂ = some (φ off', m₂') ∧
      ScratchRel live off' m' m₂' := by
  induction k generalizing off m m₂ with
  | zero =>
    obtain ⟨rfl, rfl⟩ : off = off' ∧ m = m' := by
      have := Option.some.inj hs
      exact ⟨congrArg Prod.fst this, congrArg Prod.snd this⟩
    exact ⟨0, m₂, Nat.le_refl _, Nat.le_refl _, rfl, hrel⟩
  | succ k ih =>
    unfold steps at hs
    obtain ⟨⟨off₁, m₁⟩, hs₁, hrest⟩ := Option.bind_eq_some_iff.mp hs
    obtain ⟨j, mid, hj, hrun, hrel₁⟩ := h.scratch_step hmv hd hout hrel hs₁
    obtain ⟨k', m₂', hlo, hhi, hrun', hrel'⟩ :=
      ih (hd.outside off m off₁ m₁ hout hs₁) hrel₁ hrest
    refine ⟨j + k', m₂', by omega, by omega, ?_, hrel'⟩
    rw [steps_add, hrun, Option.bind_some, hrun']

/-- Where the emitted program gets stuck, so does the relaxed one. -/
theorem SameProgram.stuck (k : Nat) (hs : steps core sym b k off m = none) :
    ∃ k', k' ≤ 2 * k ∧ steps core sym' b' k' (φ off) m₂ = none := by
  induction k generalizing off m m₂ with
  | zero => cases hs
  | succ k ih =>
    cases hs₁ : step core sym b off m with
    | none =>
      have hnone : step core sym b off m₂ = none := by
        by_contra hsome
        obtain ⟨⟨off₁, m₁⟩, hs₂⟩ := Option.ne_none_iff_exists'.mp hsome
        -- the promise read backwards
        obtain ⟨m₁', hs', -⟩ := hd.agree off m₂ m off₁ m₁
          ⟨⟨fun r hr => (hrel.1.1 r hr).symm, hrel.1.2.symm⟩, fun hl => (hrel.2 hl).symm⟩ hs₂
        rw [hs₁] at hs'
        cases hs'
      have hsim := h.simulated μ core sym sym' hmv off m₂ hout
      unfold Simulated at hsim
      rw [hnone] at hsim
      obtain ⟨k', hk', hrun⟩ := hsim
      exact ⟨k', by omega, hrun⟩
    | some next =>
      obtain ⟨j, mid, hj, hrun, hrel₁⟩ := h.scratch_step hmv hd hout hrel hs₁
      have hrest : steps core sym b k next.1 next.2 = none := by
        rw [steps, hs₁] at hs
        exact hs
      obtain ⟨k', hk', hrun'⟩ := ih (hd.outside off m _ _ hout hs₁) hrel₁ hrest
      refine ⟨j + k', by omega, ?_⟩
      rw [steps_add, hrun, Option.bind_some, hrun']

end Runs

/-! ## A branch over 4 GiB -/

theorem out_ne_skipLabel (k : Nat) : "out" ≠ skipLabel k := by
  intro h
  have hchars := congrArg String.toList h
  simp [skipLabel] at hchars

def farHead : List Byte := [0x7FF00073, 0xFFDFF06F, opBranch].flatMap wordBytes

/-- The fast exit, a branch, and `n` more words; a label and a line-table row at the very end. -/
def farBuffer (n : Nat) : CodeBuffer where
  code := farHead ++ List.replicate (4 * n) 0
  labelNames := ⟨["out"], by decide⟩
  labelOffsets := [some (12 + 4 * n)]
  labelUses := [⟨0, 8, 0⟩]
  denseJumpTables := []
  functions := []
  instanceInitOffset := 0
  lineTable := [⟨(12 + 4 * n) % 2 ^ 32, 1⟩]

theorem farHead_length : farHead.length = 12 := by decide

theorem farBuffer_length (n : Nat) : (farBuffer n).code.length = 12 + 4 * n := by
  unfold farBuffer
  rw [List.length_append, List.length_replicate, farHead_length]

theorem farBuffer_head (n off : Nat) (h : off + 4 ≤ 12) :
    loadWord (farBuffer n).code off = loadWord farHead off :=
  loadWord_append_left _ _ _ (by rw [farHead_length]; exact h)

theorem farBuffer_tail (n off : Nat) (h : 12 ≤ off) : loadWord (farBuffer n).code off = 0 := by
  have hbyte : ∀ pos, 12 ≤ pos → byteAt (farBuffer n).code pos = 0 := by
    intro pos hpos
    unfold byteAt farBuffer
    rw [List.getD_eq_getElem?_getD, List.getElem?_append_right (by rw [farHead_length]; exact hpos),
      List.getElem?_replicate]
    split <;> rfl
  unfold loadWord
  rw [hbyte _ (by omega), hbyte _ (by omega), hbyte _ (by omega), hbyte _ h]
  decide

theorem farBuffer_use (n i : Nat) (hi : i < (farBuffer n).labelUses.length) :
    (farBuffer n).useOffset i = 8 ∧ (farBuffer n).useWord i = opBranch := by
  obtain rfl : i = 0 := Nat.lt_one_iff.mp hi
  have hget : (farBuffer n).labelUses[0]? = some ⟨0, 8, 0⟩ := rfl
  have hoff : (farBuffer n).useOffset 0 = 8 := useOffset_of_get hget
  refine ⟨hoff, ?_⟩
  rw [CodeBuffer.useWord, hoff, farBuffer_head n 8 (by omega)]
  decide

theorem emit_fillers (n : Nat) (h : opcodeOf 0 ≠ opBranch ∧ opcodeOf 0 ≠ opJal) (b : CodeBuffer) :
    (List.replicate n (.word 0 h)).foldl CodeBuffer.emit b =
      { b with code := b.code ++ List.replicate (4 * n) 0 } := by
  induction n generalizing b with
  | zero => exact congrArg (fun code => { b with code }) (List.append_nil b.code).symm
  | succ n ih =>
    rw [List.replicate_succ, List.foldl_cons, ih, Nat.mul_succ, Nat.add_comm, List.replicate_add,
      ← List.append_assoc]
    rfl

theorem farBuffer_generated (n : Nat) :
    farBuffer n = .generated ⟨["out"], by decide⟩
    (.jump ⟨"out", out_ne_skipLabel⟩ opBranch (.inl (by decide)) ::
      (List.replicate n (.word 0 (by decide)) ++
        [.defineLabel ⟨"out", out_ne_skipLabel⟩, .recordLine 1 true])) := by
  have hjump : (CodeBuffer.fastExit ⟨["out"], by decide⟩).emit
      (.jump ⟨"out", out_ne_skipLabel⟩ opBranch (.inl (by decide))) =
      ⟨farHead, ⟨["out"], by decide⟩, [none], [⟨0, 8, 0⟩], [], [], 0, []⟩ := rfl
  have hlength := farBuffer_length n
  rw [CodeBuffer.generated, List.foldl_cons, List.foldl_append, hjump, emit_fillers]
  change farBuffer n = ⟨farHead ++ List.replicate (4 * n) 0, ⟨["out"], by decide⟩,
    [some (farBuffer n).code.length], [⟨0, 8, 0⟩], [], [], 0,
    [⟨(farBuffer n).code.length % 2 ^ 32, 1⟩]⟩
  rw [hlength]
  rfl

theorem farBuffer_emitted (n : Nat) : Emitted (farBuffer n) :=
  farBuffer_generated n ▸ (generated_laid _ _).emitted

theorem relaxRound_rows (h : relaxRound b = some b') : ∀ e ∈ b'.lineTable, e.address < 2 ^ 32 := by
  unfold relaxRound at h
  split at h
  dsimp only at h
  split at h
  · cases h
  · obtain rfl := Option.some.inj h
    intro e he
    obtain ⟨e', -, rfl⟩ := List.mem_map.mp he
    exact Nat.mod_lt _ (by decide)

/-- A branch over more than a mebibyte ends up as an inverse over AUIPC/JALR. -/
theorem farBuffer_far {n : Nat} (hn : 2 ^ 20 ≤ n) (h : Relaxing (farBuffer n) b φ form)
    (hs : relaxRound b = none) :
    form 0 = .far := by
  have he := farBuffer_emitted n
  have hget : (farBuffer n).labelUses[0]? = some ⟨0, 8, 0⟩ := rfl
  have hi : 0 < (farBuffer n).labelUses.length := Nat.one_pos
  have hw := (farBuffer_use n 0 hi).2
  have hmoved := h.uses 0 _ hget
  have hfits := fits_of_not_outOfReach (h.reach_of_stop he hs _ (List.mem_of_getElem? hmoved))
    (h.use_inside he hmoved) (h.labels 0 ⟨"out", rfl, out_ne_skipLabel⟩)
  have hcar : loadWord b.code (b.useOffset 0) = formCarrier ((farBuffer n).useWord 0) (form 0) :=
    h.carrier hi
  rw [useOffset_of_get hmoved] at hcar
  have hdist := h.mono.add_le_nat (4 + 4 * n) 8
  rw [show 4 + 4 * n + 8 = 12 + 4 * n by omega] at hdist
  dsimp only at hfits hcar
  rw [hcar, hw] at hfits
  cases hform : form 0 with
  | far => rfl
  | kept =>
    rw [hform] at hfits
    have hbr := hfits.1 (by decide)
    rw [fitsInSigned_iff, show (2 : Int) ^ (bTypeImmBits - 1) = 4096 from rfl, formSlot,
      if_neg fun hc => hc.2 rfl] at hbr
    omega
  | near =>
    rw [hform] at hfits
    have hjal := hfits.2 (by decide)
    rw [fitsInSigned_iff, show (2 : Int) ^ (jTypeImmBits - 1) = 1048576 from rfl, formSlot,
      if_pos ⟨by decide, by decide⟩] at hjal
    omega

theorem farBuffer_grows {n : Nat} (hn : 2 ^ 20 ≤ n) (h : Relaxing (farBuffer n) b φ form)
    (hs : relaxRound b = none) :
    (farBuffer n).code.length + 8 ≤ b.code.length := by
  have hi : 0 < (farBuffer n).labelUses.length := Nat.one_pos
  obtain ⟨hoff, hw⟩ := farBuffer_use n 0 hi
  have hgap := h.useGap 0 hi
  rw [farBuffer_far hn h hs, hoff, hw, show (formWords opBranch .far).length = 3 by decide] at hgap
  have hgrow : 4 * n + φ (8 + 4) ≤ φ (4 * n + 12) := h.mono.add_le_nat (4 * n) (8 + 4)
  have hat8 := h.mono.le_apply (x := 8)
  have hlen := h.length
  rw [farBuffer_length, Nat.add_comm 12] at hlen
  rw [farBuffer_length]
  omega

-- a branch over 4 MiB grows by two words
theorem relaxBranches_sameProgram_far :
    ∃ n b' φ, 2 ^ 20 ≤ n ∧
      relaxBranches (2 * (farBuffer n).labelUses.length + 1) (farBuffer n) = some b' ∧
      SameProgram.{0} (farBuffer n) b' φ ∧ (farBuffer n).code.length + 8 ≤ b'.code.length := by
  obtain ⟨n, hn⟩ : ∃ n : Nat, 2 ^ 20 ≤ n := ⟨_, Nat.le_refl _⟩
  have he := farBuffer_emitted n
  obtain ⟨b', φ, hb', hsame, -⟩ := relaxBranches_sameProgram.{0} (farBuffer n) he
  obtain ⟨c, ψ, form, hc, hrel, hstop⟩ := relaxBranches_reaches _ he
  obtain rfl : b' = c := Option.some.inj (hb'.symm.trans hc)
  exact ⟨n, b', φ, hn, hb', hsame, farBuffer_grows hn hrel hstop⟩

/-- Four words short of 4 GiB, the branch's growth moves the last row past the 32-bit range. -/
theorem farBuffer_row_lost :
    ¬ ∃ b' φ, relaxBranches 3 (farBuffer (2 ^ 30 - 4)) = some b' ∧
      SameProgram.{0} (farBuffer (2 ^ 30 - 4)) b' φ ∧ RowsMoved (farBuffer (2 ^ 30 - 4)) b' φ := by
  rintro ⟨b', φ, hb', hsame, hrows⟩
  have he := farBuffer_emitted (2 ^ 30 - 4)
  obtain ⟨c, ψ, form, hc, hrel, hstop⟩ := relaxBranches_reaches _ he
  obtain rfl : b' = c := Option.some.inj (hb'.symm.trans hc)
  have hsize := farBuffer_grows (by decide) hrel hstop
  rw [farBuffer_length] at hsize
  -- the row is where the code ends, yet below `2 ^ 32`
  have hbound : ∀ e ∈ b'.lineTable, e.address < 2 ^ 32 := by
    have hkeep : ∀ a a' : CodeBuffer, (∀ e ∈ a.lineTable, e.address < 2 ^ 32) →
        relaxRound a = some a' → ∀ e ∈ a'.lineTable, e.address < 2 ^ 32 :=
      fun _ _ _ hs => relaxRound_rows hs
    have hstart : ∀ e ∈ (farBuffer (2 ^ 30 - 4)).lineTable, e.address < 2 ^ 32 := by
      intro e hmem
      obtain rfl := List.mem_singleton.mp hmem
      decide
    exact (rounds_invariant hkeep hstart hb').1
  have hrow : (⟨φ (12 + 4 * (2 ^ 30 - 4)), 1⟩ : LineTableEntry) ∈ b'.lineTable := by
    rw [hrows]
    exact List.mem_singleton.mpr rfl
  have hlt := hbound _ hrow
  have hend := hsame.size
  rw [farBuffer_length] at hend
  dsimp only at hlt
  omega

/-! ## Runs of the relaxed code -/

/-- Under the promise about t6, and with code addresses read as the words they stand for, every run
of the emitted code is one of the relaxed code, at most twice as long, and gets stuck only where
that one does. -/
theorem relaxBranches_runs {μ : Type u} (b : CodeBuffer) (he : Emitted b) (core : Core μ)
    (sym : Symbols) (live : Nat → Prop) (hd : ScratchDead core sym b live) :
    ∃ b' φ, relaxBranches (2 * b.labelUses.length + 1) b = some b' ∧ StrictMono φ ∧
      (∃ sym', sym.Moved sym' φ) ∧ ∀ sym', sym.Moved sym' φ → ∀ k off m, ¬ b.InsideDispatch off →
        match steps core sym b k off m with
        | some (off', m') => ∃ k' m₂', k ≤ k' ∧ k' ≤ 2 * k ∧
          steps core sym' b' k' (φ off) m = some (φ off', m₂') ∧ ScratchRel live off' m' m₂'
        | none => ∃ k', k' ≤ 2 * k ∧ steps core sym' b' k' (φ off) m = none := by
  obtain ⟨b', φ, form, hb', hrel, -⟩ := relaxBranches_reaches b he
  refine ⟨b', φ, hb', hrel.mono, sym.exists_moved hrel.mono.injective, fun sym' hmv k off m hout => ?_⟩
  have hstart : ScratchRel live off m m := ⟨SameButScratch.refl m, fun _ => rfl⟩
  split
  · rename_i off' m' hs
    exact (hrel.sameProgram he).run hmv hd hout hstart k hs
  · rename_i hs
    exact (hrel.sameProgram he).stuck hmv hd hout hstart k hs

/-- Runs the system call of the fast exit and nothing else. -/
def exitCore : Core Unit where
  exec w m := if w = 0x7FF00073 then some m else none
  pair _ _ _ _ := none

def farNext (n off : Nat) : Option Nat :=
  if off = 0 then some 4 else if off = 4 then some 0 else if off = 8 then some (12 + 4 * n) else none

theorem farBuffer_step (sym : Symbols) (n off : Nat) (m : Machine Unit) :
    step exitCore sym (farBuffer n) off m = (farNext n off).map fun off' => (off', m) := by
  have hsize := farBuffer_length n
  have hnone : off ≠ 0 ∧ off ≠ 4 ∧ off ≠ 8 → farNext n off = none := fun h => by
    unfold farNext
    rw [if_neg h.1, if_neg h.2.1, if_neg h.2.2]
  by_cases hin : off % 4 = 0 ∧ off + 4 ≤ (farBuffer n).code.length
  · unfold step
    rw [if_pos hin]
    obtain rfl | rfl | rfl | htail : off = 0 ∨ off = 4 ∨ off = 8 ∨ 12 ≤ off := by omega
    · change stepPlain exitCore sym (farBuffer n) 0 m = some (4, m)
      unfold stepPlain
      rw [farBuffer_head n 0 (by omega), show loadWord farHead 0 = 0x7FF00073 by decide]
      rfl
    · change stepPlain exitCore sym (farBuffer n) 4 m = some (0, m)
      unfold stepPlain
      rw [farBuffer_head n 4 (by omega), show loadWord farHead 4 = 0xFFDFF06F by decide]
      have hzero : ∀ v, m.write 0 v = m := fun v => by simp [Machine.write]
      exact congrArg (fun m => some (0, m)) (hzero _)
    · change stepUse exitCore sym (farBuffer n) ⟨0, 8, 0⟩ 8 m = some (12 + 4 * n, m)
      unfold stepUse
      rw [farBuffer_head n 8 (by omega), show loadWord farHead 8 = opBranch by decide]
      rfl
    · have huse : (farBuffer n).useAt off = none := by
        refine List.find?_eq_none.mpr fun use hmem => ?_
        obtain rfl := List.mem_singleton.mp hmem
        simp only [beq_iff_eq]
        omega
      rw [show (farBuffer n).tableAt off = none from rfl, huse, hnone (by omega)]
      unfold stepPlain
      rw [farBuffer_tail n off htail]
      rfl
  · unfold step
    rw [if_neg hin, hnone (by omega)]
    rfl

theorem farBuffer_outside (n off : Nat) : ¬ (farBuffer n).InsideDispatch off := by
  rintro ⟨t, ht, -⟩
  cases ht

theorem farBuffer_scratchDead (sym : Symbols) (n : Nat) :
    ScratchDead exitCore sym (farBuffer n) fun _ => False where
  agree := fun off m m₂ off' m' hrel hs => by
    rw [farBuffer_step] at hs ⊢
    obtain ⟨next, hnext, heq⟩ := Option.map_eq_some_iff.mp hs
    cases heq
    exact ⟨m₂, by rw [hnext]; rfl, hrel.1, False.elim⟩
  use := fun _ _ _ _ _ _ => id
  outside := fun _ _ off' _ _ _ => farBuffer_outside n off'

-- a branch of 4 MiB, taken
theorem relaxBranches_runs_far :
    ∃ n b' sym' k' m', ∃ φ : Nat → Nat, 2 ^ 20 ≤ n ∧
      relaxBranches (2 * (farBuffer n).labelUses.length + 1) (farBuffer n) = some b' ∧
      steps exitCore sym' b' k' (φ 8) ⟨fun _ => 0, ()⟩ = some (φ (12 + 4 * n), m') := by
  obtain ⟨n, hn⟩ : ∃ n : Nat, 2 ^ 20 ≤ n := ⟨_, Nat.le_refl _⟩
  let sym : Symbols := ⟨BitVec.ofNat 64, fun _ => none, fun _ => 0, fun _ => 0⟩
  obtain ⟨b', φ, hb', -, ⟨sym', hmv⟩, hruns⟩ := relaxBranches_runs (farBuffer n) (farBuffer_emitted n)
    exitCore sym _ (farBuffer_scratchDead sym n)
  have hrun := hruns sym' hmv 1 8 ⟨fun _ => 0, ()⟩ (farBuffer_outside n 8)
  rw [steps, farBuffer_step] at hrun
  obtain ⟨k', m', -, -, hs, -⟩ := hrun
  exact ⟨n, b', sym', k', m', φ, hn, hb', hs⟩

end Riscv
