import GdscriptCompiler.Ir.Instruction
import Mathlib.Data.List.Nodup

/-! # RegisterAllocator — the back end's register allocator -/

namespace Riscv

open Ir

/-! ## 1. The allocator -/

/-- A virtual register without an entry is in no physical register. -/
structure RegisterAllocator where
  vregToPreg : Int → Option UInt8
  pregToVreg : UInt8 → Option Int
  freeRegisters : List UInt8
  vregAllUses : Int → List Int

namespace RegisterAllocator

/-- t0 to t2, s1 to s11, t3 to t5; t6 is left out. -/
def initFreeRegisters : List UInt8 :=
  [5, 6, 7, 9, 18, 19, 20, 21, 22, 23, 24, 25, 26, 27, 28, 29, 30]

/-- The instructions a virtual register is an operand of, in order. -/
def computeNextUse (f : IRFunction) (vreg : Int) : List Int :=
  (f.instructions.zipIdx.filter fun p => p.1.operands.any fun operand =>
    match operand with
    | .reg r => r = vreg
    | _ => false).map fun p => (p.2 : Int)

def init (f : IRFunction) : RegisterAllocator where
  vregToPreg _ := none
  pregToVreg _ := none
  freeRegisters := initFreeRegisters
  vregAllUses := computeNextUse f

variable (a : RegisterAllocator)

/-- The first use strictly after an instruction, -1 without one. -/
def getNextUse (vreg current : Int) : Int :=
  ((a.vregAllUses vreg).find? fun use => current + 1 ≤ use).getD (-1)

/-- The entries are visited in the order the hash map keeps them in. -/
def findSpillCandidate (current : Int) (order : List Int) : Int := go order (-1) (-1)
where
  go : List Int → Int → Int → Int
    | [], best, _ => best
    | vreg :: rest, best, bestNextUse =>
      let nextUse := a.getNextUse vreg current
      -- a dead one is taken at once
      if nextUse = -1 then vreg
      else if nextUse > bestNextUse then go rest vreg nextUse
      else go rest best bestNextUse

def erase (vreg : Int) (preg : UInt8) : RegisterAllocator :=
  { a with
    vregToPreg := fun v => if v = vreg then none else a.vregToPreg v
    pregToVreg := fun p => if p = preg then none else a.pregToVreg p }

def bind (vreg : Int) (preg : UInt8) : RegisterAllocator :=
  { a with
    vregToPreg := fun v => if v = vreg then some preg else a.vregToPreg v
    pregToVreg := fun p => if p = preg then some vreg else a.pregToVreg p }

/-- The one body `spill_register`, `free_register` and `invalidate_register` share. -/
def release (vreg : Int) : RegisterAllocator :=
  match a.vregToPreg vreg with
  | none => a
  | some preg => { a.erase vreg preg with freeRegisters := a.freeRegisters ++ [preg] }

def spillRegister : Int → RegisterAllocator := a.release

def freeRegister : Int → RegisterAllocator := a.release

def invalidateRegister : Int → RegisterAllocator := a.release

/-- The last free register goes to a virtual one. -/
def assignLast (vreg : Int) : Int × RegisterAllocator :=
  match a.freeRegisters.getLast? with
  | none => (-1, a)
  | some preg => (preg.toNat, { a.bind vreg preg with freeRegisters := a.freeRegisters.dropLast })

def allocateRegister (vreg current : Int) (order : List Int) : Int × RegisterAllocator :=
  match a.vregToPreg vreg with
  | some preg => (preg.toNat, a)
  | none =>
    if a.freeRegisters = [] ∧ a.findSpillCandidate current order ≠ -1 then
      (a.spillRegister (a.findSpillCandidate current order)).assignLast vreg
    else a.assignLast vreg

/-- One register of the list: its value moves to a free register, or is given up. -/
def clobber (preg : UInt8) : List (UInt8 × UInt8) × RegisterAllocator :=
  match a.pregToVreg preg with
  | none => ([], a)
  | some vreg =>
    match a.freeRegisters.getLast? with
    | none => ([], a.spillRegister vreg)
    | some fresh =>
      ([(preg, fresh)],
        { (a.erase vreg preg).bind vreg fresh with freeRegisters := a.freeRegisters.dropLast })

def handleSyscallClobbering (a : RegisterAllocator) :
    List UInt8 → List (UInt8 × UInt8) × RegisterAllocator
  | [] => ([], a)
  | preg :: rest =>
    let (moves, a) := a.clobber preg
    let (moves', a) := a.handleSyscallClobbering rest
    (moves ++ moves', a)

/-- The one that was in `preg` loses it. -/
def evict (vreg : Int) (preg : UInt8) : RegisterAllocator :=
  match a.pregToVreg preg with
  | some other =>
    if other ≠ vreg then
      { a with vregToPreg := fun v => if v = other then none else a.vregToPreg v }
    else a
  | none => a

/-- The one `vreg` was in becomes free. -/
def leaveOld (vreg : Int) (preg : UInt8) : RegisterAllocator :=
  match a.vregToPreg vreg with
  | some old =>
    if old ≠ preg then
      { a with
        pregToVreg := fun p => if p = old then none else a.pregToVreg p
        freeRegisters := a.freeRegisters ++ [old] }
    else a
  | none => a

def forceRegisterMapping (vreg : Int) (preg : UInt8) : RegisterAllocator :=
  let a := (a.evict vreg preg).leaveOld vreg preg
  { a.bind vreg preg with freeRegisters := a.freeRegisters.erase preg }

def reserveRegister (preg : UInt8) : RegisterAllocator :=
  { a with freeRegisters := a.freeRegisters.erase preg }

end RegisterAllocator

/-! ## 2. Calls -/

inductive AllocatorCall where
  | allocate (vreg current : Int) (order : List Int)
  | spill (vreg : Int)
  | free (vreg : Int)
  | invalidate (vreg : Int)
  | force (vreg : Int) (preg : UInt8)
  | clobbering (pregs : List UInt8)
  | reserve (preg : UInt8)

namespace RegisterAllocator

open AllocatorCall

def call (a : RegisterAllocator) : AllocatorCall → RegisterAllocator
  | allocate vreg current order => (a.allocateRegister vreg current order).2
  | spill vreg => a.spillRegister vreg
  | free vreg => a.freeRegister vreg
  | invalidate vreg => a.invalidateRegister vreg
  | force vreg preg => a.forceRegisterMapping vreg preg
  | clobbering pregs => (a.handleSyscallClobbering pregs).2
  | reserve preg => a.reserveRegister preg

def run (a : RegisterAllocator) (calls : List AllocatorCall) : RegisterAllocator :=
  calls.foldl call a

/-- The maps are inverse to each other, the free list is apart from them, and the pool is all there.
-/
structure InStep (a : RegisterAllocator) (reserved : UInt8 → Prop) : Prop where
  inverse : ∀ vreg preg, a.vregToPreg vreg = some preg ↔ a.pregToVreg preg = some vreg
  nodup : a.freeRegisters.Nodup
  apart : ∀ preg ∈ a.freeRegisters, a.pregToVreg preg = none
  kept : ∀ preg ∈ initFreeRegisters, ¬ reserved preg → preg ∈ a.freeRegisters ∨
    ∃ vreg, a.pregToVreg preg = some vreg
  free : ∀ preg ∈ a.freeRegisters, preg ∈ initFreeRegisters

structure Sound (a : RegisterAllocator) (reserved : UInt8 → Prop) :
    Prop extends InStep a reserved where
  handedOut : ∀ vreg current order, (a.allocateRegister vreg current order).1 = -1 ∨
    ∃ preg ∈ initFreeRegisters, (a.allocateRegister vreg current order).1 = preg.toNat

/-- What a call must not do: force a register from outside the pool, or clobber a register in use
while another is free to move its value to. -/
def Safe (a : RegisterAllocator) : AllocatorCall → Prop
  | force _ preg => preg ∈ initFreeRegisters
  | clobbering pregs => ∀ p ∈ pregs, ∀ q ∈ pregs, a.pregToVreg p ≠ none → a.pregToVreg q ≠ none →
      p = q ∧ a.freeRegisters = []
  | _ => True

/-- The calls of a run, each safe in the state it is made in. -/
def SafeRun (a : RegisterAllocator) : List AllocatorCall → Prop
  | [] => True
  | c :: rest => a.Safe c ∧ SafeRun (a.call c) rest

instance (a : RegisterAllocator) (c : AllocatorCall) : Decidable (a.Safe c) := by
  unfold Safe
  cases c with
  | clobbering pregs =>
    letI inner (p : UInt8) := List.decidableBAll
      (fun q => a.pregToVreg p ≠ none → a.pregToVreg q ≠ none → p = q ∧ a.freeRegisters = []) pregs
    exact List.decidableBAll _ pregs
  | _ => exact inferInstance

instance decidableSafeRun :
    ∀ (calls : List AllocatorCall) (a : RegisterAllocator), Decidable (a.SafeRun calls)
  | [], _ => isTrue trivial
  | c :: rest, a => @instDecidableAnd _ _ _ (decidableSafeRun rest (a.call c))

/-! ## 3. One call -/

/-- The invariant also says that what is mapped belongs to the pool. -/
structure Inv (a : RegisterAllocator) (reserved : UInt8 → Prop) :
    Prop extends InStep a reserved where
  mapped : ∀ preg vreg, a.pregToVreg preg = some vreg → preg ∈ initFreeRegisters

variable {a : RegisterAllocator} {reserved : UInt8 → Prop} {vreg : Int} {preg : UInt8}

theorem inv_init (f : IRFunction) : Inv (init f) reserved where
  inverse _ _ := iff_of_false (Option.some_ne_none _).symm (Option.some_ne_none _).symm
  nodup := show initFreeRegisters.Nodup by decide
  apart _ _ := rfl
  kept _ h _ := .inl h
  free _ h := h
  mapped _ _ h := by cases h

theorem Inv.release (h : Inv a reserved) : Inv (a.release vreg) reserved := by
  unfold RegisterAllocator.release
  cases hv : a.vregToPreg vreg with
  | none => exact h
  | some preg =>
    have hp := (h.inverse vreg preg).1 hv
    have hnew : preg ∉ a.freeRegisters := fun hmem => by rw [h.apart preg hmem] at hp; cases hp
    obtain ⟨⟨inverse, nodup, apart, kept, free⟩, mapped⟩ := h
    refine ⟨⟨?_, ?_, ?_, ?_, ?_⟩, ?_⟩ <;> simp only [erase] <;> grind

theorem Inv.last {rest : List UInt8} (h : Inv a reserved)
    (hfree : a.freeRegisters = rest ++ [preg]) :
    rest.Nodup ∧ preg ∉ rest ∧ a.pregToVreg preg = none ∧ preg ∈ initFreeRegisters := by
  have hnodup := h.nodup
  rw [hfree, List.nodup_append] at hnodup
  have hmem : preg ∈ a.freeRegisters := by simp [hfree]
  exact ⟨hnodup.1, fun hrest => hnodup.2.2 preg hrest preg List.mem_cons_self rfl,
    h.apart preg hmem, h.free preg hmem⟩

theorem getLast_cases (l : List UInt8) :
    l.getLast? = none ∧ l = [] ∨ ∃ preg, l.getLast? = some preg ∧ l = l.dropLast ++ [preg] := by
  rcases List.eq_nil_or_concat l with rfl | ⟨rest, preg, rfl⟩
  · exact .inl ⟨rfl, rfl⟩
  · exact .inr ⟨preg, by simp, by simp⟩

theorem Inv.assignLast (h : Inv a reserved) (hv : a.vregToPreg vreg = none) :
    Inv (a.assignLast vreg).2 reserved ∧
      ((a.assignLast vreg).1 = -1 ∨ ∃ preg ∈ initFreeRegisters,
          (a.assignLast vreg).1 = preg.toNat) := by
  unfold RegisterAllocator.assignLast
  rcases getLast_cases a.freeRegisters with ⟨hnone, -⟩ | ⟨preg, hlast, hfree⟩
  · rw [hnone]
    exact ⟨h, .inl rfl⟩
  · rw [hlast]
    obtain ⟨hrest, hnew, hp, hpool⟩ := h.last hfree
    refine ⟨?_, .inr ⟨preg, hpool, rfl⟩⟩
    obtain ⟨⟨inverse, nodup, apart, kept, free⟩, mapped⟩ := h
    refine ⟨⟨?_, ?_, ?_, ?_, ?_⟩, ?_⟩ <;> simp only [bind] <;> grind

theorem release_vregToPreg (other : Int) (hv : a.vregToPreg vreg = none) :
    (a.release other).vregToPreg vreg = none := by
  unfold RegisterAllocator.release
  split
  · exact hv
  · dsimp only [erase]
    split
    · rfl
    · exact hv

theorem Inv.allocateRegister (h : Inv a reserved) (vreg current : Int) (order : List Int) :
    Inv (a.allocateRegister vreg current order).2 reserved ∧
      ((a.allocateRegister vreg current order).1 = -1 ∨
        ∃ preg ∈ initFreeRegisters, (a.allocateRegister vreg current order).1 = preg.toNat) := by
  unfold RegisterAllocator.allocateRegister
  cases hv : a.vregToPreg vreg with
  | some preg => exact ⟨h, .inr ⟨preg, h.mapped preg vreg ((h.inverse vreg preg).1 hv), rfl⟩⟩
  | none =>
    dsimp only
    split
    · exact Inv.assignLast h.release (release_vregToPreg _ hv)
    · exact h.assignLast hv

theorem Inv.sound (h : Inv a reserved) : Sound a reserved :=
  ⟨h.toInStep, fun vreg current order => (h.allocateRegister vreg current order).2⟩

/-- The free list before `preg` is taken from it. -/
def freed (a : RegisterAllocator) (vreg : Int) (preg : UInt8) : List UInt8 :=
  match a.vregToPreg vreg with
  | some old => if old = preg then a.freeRegisters else a.freeRegisters ++ [old]
  | none => a.freeRegisters

theorem forceRegisterMapping_eq (a : RegisterAllocator) (vreg : Int) (preg : UInt8) :
    (∀ v, (a.forceRegisterMapping vreg preg).vregToPreg v =
      if v = vreg then some preg else if a.pregToVreg preg = some v then none else a.vregToPreg v) ∧
    (∀ p, (a.forceRegisterMapping vreg preg).pregToVreg p =
      if p = preg then some vreg else if a.vregToPreg vreg = some p then none else a.pregToVreg p) ∧
    (a.forceRegisterMapping vreg preg).freeRegisters = (a.freed vreg preg).erase preg := by
  have hevict : (a.evict vreg preg).vregToPreg vreg = a.vregToPreg vreg ∧
      (∀ p, (a.evict vreg preg).pregToVreg p = a.pregToVreg p) ∧
      (a.evict vreg preg).freeRegisters = a.freeRegisters ∧
      ∀ v, v ≠ vreg → (a.evict vreg preg).vregToPreg v = if a.pregToVreg preg = some v then
        none else a.vregToPreg v := by
    unfold evict
    cases hp : a.pregToVreg preg with
    | none => simp
    | some other =>
      by_cases hother : other = vreg
      · subst hother
        simp only [ne_eq, not_true, if_false, Option.some.injEq]
        grind
      · simp only [ne_eq, hother, not_false_iff, if_true, Option.some.injEq]
        grind
  obtain ⟨hv, hp, hfree, hothers⟩ := hevict
  unfold RegisterAllocator.forceRegisterMapping leaveOld freed
  cases hold : a.vregToPreg vreg with
  | none =>
    rw [hold] at hv
    simp only [hv, bind, hfree, and_true]
    grind
  | some old =>
    rw [hold] at hv
    by_cases hsame : old = preg <;> simp only [hv, bind, hsame, ne_eq, not_true, not_false_iff,
      if_true, if_false, hfree, and_true] <;> grind

theorem Inv.forceRegisterMapping (h : Inv a reserved) (hpool : preg ∈ initFreeRegisters) :
    Inv (a.forceRegisterMapping vreg preg) reserved := by
  obtain ⟨hvregs, hpregs, hfree⟩ := forceRegisterMapping_eq a vreg preg
  obtain ⟨⟨inverse, nodup, apart, kept, free⟩, mapped⟩ := h
  have hfreed : (a.freed vreg preg).Nodup ∧ ∀ p, p ∈ a.freed vreg preg ↔
      p ∈ a.freeRegisters ∨ a.vregToPreg vreg = some p ∧ p ≠ preg := by
    unfold freed
    cases hold : a.vregToPreg vreg <;> grind
  have hmem : ∀ p, p ∈ (a.forceRegisterMapping vreg preg).freeRegisters ↔
      p ≠ preg ∧ (p ∈ a.freeRegisters ∨ a.vregToPreg vreg = some p) := by
    intro p
    rw [hfree, hfreed.1.mem_erase_iff, hfreed.2]
    grind
  refine ⟨⟨?_, ?_, ?_, ?_, ?_⟩, ?_⟩
  · intro v p
    rw [hvregs, hpregs]
    have hboth := inverse v p
    have hvreg := inverse vreg p
    have hpreg := inverse v preg
    by_cases hv : v = vreg <;> by_cases hp : p = preg <;> simp only [hv, hp, if_true, if_false]
    · subst hv
      grind
    · grind
    · split <;> split <;> grind
  · rw [hfree]
    exact hfreed.1.erase preg
  all_goals grind

/-- The registers of a clobber list that are in use are one at most, and then nothing is free. -/
theorem Inv.handleSyscallClobbering (pregs : List UInt8) (h : Inv a reserved)
    (hsafe : a.Safe (clobbering pregs)) :
    Inv (a.handleSyscallClobbering pregs).2 reserved := by
  induction pregs generalizing a with
  | nil => exact h
  | cons p rest ih =>
    show Inv ((a.clobber p).2.handleSyscallClobbering rest).2 reserved
    unfold Safe at hsafe ih
    cases hp : a.pregToVreg p with
    | none =>
      have hsame : (a.clobber p).2 = a := by rw [clobber, hp]
      rw [hsame]
      exact ih h fun q hq r hr => hsafe q (List.mem_cons_of_mem _ hq) r (List.mem_cons_of_mem _ hr)
    | some v =>
      have hnil : a.freeRegisters = [] :=
        (hsafe p List.mem_cons_self p List.mem_cons_self (by rw [hp]; exact Option.some_ne_none _)
          (by rw [hp]; exact Option.some_ne_none _)).2
      have hspill : (a.clobber p).2 = a.spillRegister v := by rw [clobber, hp, hnil]; rfl
      have hv := (h.inverse v p).2 hp
      rw [hspill]
      refine ih h.release fun q hq r hr hmapped => ?_
      -- only `p` was in use, and it is not any more
      have hq' : a.pregToVreg q = none := by
        by_contra hne
        have heq := (hsafe p List.mem_cons_self q (List.mem_cons_of_mem _ hq)
          (by rw [hp]; exact Option.some_ne_none _) hne).1
        rw [← heq, spillRegister, RegisterAllocator.release, hv] at hmapped
        exact hmapped (if_pos rfl)
      rw [spillRegister, RegisterAllocator.release, hv] at hmapped
      refine absurd ?_ hmapped
      dsimp only [erase]
      split
      · rfl
      · exact hq'

theorem Inv.reserveRegister (h : Inv a reserved) :
    Inv (a.reserveRegister preg) fun p => reserved p ∨ p = preg := by
  obtain ⟨⟨inverse, nodup, apart, kept, free⟩, mapped⟩ := h
  refine ⟨⟨?_, ?_, ?_, ?_, ?_⟩, ?_⟩ <;> simp only [RegisterAllocator.reserveRegister] <;> grind

/-! ## 4. Whole runs -/

theorem Inv.mono {reserved' : UInt8 → Prop} (h : Inv a reserved)
    (hle : ∀ p, reserved p → reserved' p) :
    Inv a reserved' :=
  { h with kept := fun p hp hr => h.kept p hp fun hres => hr (hle p hres) }

theorem Inv.call (h : Inv a reserved) {c : AllocatorCall} (hsafe : a.Safe c) :
    Inv (a.call c) fun p => reserved p ∨ c = reserve p := by
  have hmono : ∀ {b : RegisterAllocator}, Inv b reserved → Inv b fun p => reserved p ∨ c = reserve p :=
    fun hb => hb.mono fun _ => .inl
  cases c with
  | allocate vreg current order => exact hmono (h.allocateRegister vreg current order).1
  | spill vreg => exact hmono h.release
  | free vreg => exact hmono h.release
  | invalidate vreg => exact hmono h.release
  | force vreg preg => exact hmono (h.forceRegisterMapping hsafe)
  | clobbering pregs => exact hmono (h.handleSyscallClobbering pregs hsafe)
  | reserve preg =>
    refine h.reserveRegister.mono fun p hp => ?_
    exact hp.imp_right fun heq => by rw [heq]

theorem Inv.run (calls : List AllocatorCall) (h : Inv a reserved) (hsafe : a.SafeRun calls) :
    Inv (a.run calls) fun p => reserved p ∨ reserve p ∈ calls := by
  induction calls generalizing a reserved with
  | nil => exact h.mono fun _ => .inl
  | cons c rest ih =>
    refine (ih (h.call hsafe.1) hsafe.2).mono fun p hp => ?_
    rcases hp with (hp | hp) | hp
    · exact .inl hp
    · exact .inr (hp ▸ List.mem_cons_self)
    · exact .inr (List.mem_cons_of_mem _ hp)

/-- After `init` and any safe calls the maps, the free list and the pool are in order. -/
theorem allocator_sound (f : IRFunction) (calls : List AllocatorCall)
    (hsafe : (init f).SafeRun calls) :
    Sound ((init f).run calls) fun preg => reserve preg ∈ calls := by
  apply Inv.sound
  exact ((inv_init f).run calls hsafe).mono fun _ hp => hp.resolve_left id

def bareFunction : IRFunction where
  name := "f"
  parameters := []
  instructions := []
  maxRegisters := 0

/-- Every register but the reserved one is handed out when the host call clobbers t0, so that its
value is given up. -/
def clobberingRun : List AllocatorCall :=
  reserve 9 :: (List.range 16).map (fun v : Nat => allocate v 0 []) ++
    [clobbering [10, 5, 17], allocate 16 0 [], force 1 30, spill 1]

theorem allocator_sound_clobbering :
    (init bareFunction).SafeRun clobberingRun ∧
      Sound ((init bareFunction).run clobberingRun) fun preg => reserve preg ∈ clobberingRun := by
  have hsafe : (init bareFunction).SafeRun clobberingRun := by decide
  exact ⟨hsafe, allocator_sound bareFunction _ hsafe⟩

/-- Clobbering t5 loses it: its value moves to t4, and nothing frees it. A register forced from
outside the pool becomes free with the virtual register it was forced on. -/
theorem clobbered_register_lost :
    (¬ Sound ((init bareFunction).run [allocate 0 0 [], clobbering [30]]) fun _ => False) ∧
      ¬ Sound ((init bareFunction).run [force 0 10, free 0]) fun _ => False := by
  constructor
  · intro h
    have hlost : ((init bareFunction).run [allocate 0 0 [], clobbering [30]]).pregToVreg
      30 = none := by decide
    rcases h.kept 30 (by decide) id with hfree | ⟨vreg, hvreg⟩
    · exact absurd hfree (by decide)
    · cases hlost.symm.trans hvreg
  · intro h
    exact absurd (h.free 10 (by decide)) (by decide)

end RegisterAllocator

end Riscv
