import GdscriptCompiler.Optimizer.Executing

/-!
# ConstantCopies — `IROptimizer::copy_propagation`

A MOVE from a register that a constant was just loaded into becomes that load.
-/

namespace Optimizer

open Ir Lib

/-! ## 1. The pass -/

structure ConstantInfo where
  opcode : Opcode
  value : IRValue
  typeHint : TypeHint

def ConstantInfo.load (info : ConstantInfo) (dst : Int) : IRInstruction where
  opcode := info.opcode
  operands := [.reg dst, info.value]
  typeHint := info.typeHint

abbrev ConstantRegs := Int → Option ConstantInfo

-- nothing is known at a label
def ConstantRegs.enter (regs : ConstantRegs) (instr : IRInstruction) : ConstantRegs :=
  if instr.opcode = .label then fun _ => none else regs

def ConstantRegs.kill (regs : ConstantRegs) (killed : Int) : ConstantRegs :=
  if 0 ≤ killed then Function.update regs killed none else regs

def ConstantRegs.load (regs : ConstantRegs) (instr : IRInstruction) : ConstantRegs :=
  if instr.opcode = .loadImm || instr.opcode = .loadFloatImm then
    match instr.operands with
    | .reg dst :: value :: _ => Function.update regs dst (some ⟨instr.opcode, value, instr.typeHint⟩)
    | _ => regs
  else regs

def ConstantRegs.move (regs : ConstantRegs) (instr : IRInstruction) :
    ConstantRegs × IRInstruction :=
  match instr.opcode, instr.operands with
  | .move, .reg dst :: .reg src :: _ =>
    match regs src with
    | some info => (Function.update regs dst (some info), info.load dst)
    | none => (regs, instr)
  | _, _ => (regs, instr)

/-- The body of the loop: what is known after the instruction, and what is emitted for it. -/
def copyStep (regs : ConstantRegs) (instr : IRInstruction) : ConstantRegs × IRInstruction :=
  (((regs.enter instr).kill instr.destinationRegister).load instr).move instr

def copyPropagation (f : IRFunction) : IRFunction :=
  { f with instructions := scan copyStep (fun _ => none) f.instructions }

/-! ## 2. What is known -/

structure ConstantInfo.Loads (info : ConstantInfo) (v : Value) : Prop where
  fits : ∀ dst, Fits (info.load dst)
  not_label : info.opcode ≠ .label
  execute : ∀ E fr dst, execute E (info.load dst) fr = some ([], fr.assign dst v, .next)

/-- Everything that is known is a load. -/
def ConstantRegs.Known (regs : ConstantRegs) : Prop :=
  ∀ r info, regs r = some info → ∃ v, info.Loads v

def ConstantRegs.Holds (regs : ConstantRegs) (fr : Frame) : Prop :=
  ∀ r info, regs r = some info → 0 ≤ r ∧ ∃ v, info.Loads v ∧ fr.registers r = some v

variable {info : ConstantInfo}

section Known

variable {regs : ConstantRegs} {instr : IRInstruction}

/-- An instruction is a load that is recorded, a MOVE, or leaves what is known. -/
inductive CopyCase (regs : ConstantRegs) (instr : IRInstruction) :
    ConstantRegs × IRInstruction → Prop
  | load (dst : Int) (info : ConstantInfo) (v : Value) (hloads : info.Loads v)
      (hmem : .reg dst ∈ instr.operands)
      (hexec : ∀ E fr, execute E instr fr = some ([], fr.assign dst v, .next)) :
      CopyCase regs instr (Function.update regs dst (some info), instr)
  | move (dst src : Int) (info : ConstantInfo) (hop : instr.opcode = .move)
      (hops : instr.operands = [.reg dst, .reg src]) (hsrc : regs src = some info) :
      CopyCase regs instr (Function.update regs dst (some info), info.load dst)
  | kept : CopyCase regs instr (regs, instr)

theorem loads_imm (v : Int64) (hint : TypeHint) :
    (⟨.loadImm, .imm v, hint⟩ : ConstantInfo).Loads (.int v) where
  fits _ := fits_of_checkOperandsOf (i := 0) rfl
  not_label := nofun
  execute _ _ _ := rfl

theorem loads_fimm (d : Float) (hint : TypeHint) :
    (⟨.loadFloatImm, .fimm d, hint⟩ : ConstantInfo).Loads (.float d) where
  fits _ := fits_of_checkOperandsOf (i := 0) rfl
  not_label := nofun
  execute _ _ _ := rfl

theorem copyCase (hfits : Fits instr) (regs : ConstantRegs) :
    CopyCase regs instr ((regs.load instr).move instr) := by
  by_cases himm : instr.opcode = .loadImm
  · obtain ⟨dst, v, hops⟩ := hfits.dst_imm (signature_of himm)
    unfold ConstantRegs.load ConstantRegs.move
    rw [himm, hops]
    exact .load dst _ (.int v) (loads_imm v _) (by rw [hops]; exact List.mem_cons_self)
      fun E fr => execute_constant hops ⟨v, v, 0, .inl ⟨himm, rfl, rfl⟩⟩
  by_cases hfimm : instr.opcode = .loadFloatImm
  · obtain ⟨dst, d, hops⟩ := hfits.dst_fimm (signature_of hfimm)
    unfold ConstantRegs.load ConstantRegs.move
    rw [hfimm, hops]
    exact .load dst _ (.float d) (loads_fimm d _) (by rw [hops]; exact List.mem_cons_self)
      fun E fr => execute_constant hops ⟨0, 0, d, .inr (.inr ⟨hfimm, rfl, rfl⟩)⟩
  have hload : regs.load instr = regs := by
    unfold ConstantRegs.load
    rw [if_neg (by simp [himm, hfimm])]
  rw [hload]
  by_cases hmove : instr.opcode = .move
  · obtain ⟨dst, src, hops⟩ := hfits.dst_src (signature_of hmove)
    unfold ConstantRegs.move
    rw [hmove, hops]
    dsimp only
    cases hsrc : regs src with
    | none => exact .kept
    | some info => exact .move dst src info hmove hops hsrc
  · have hkept : regs.move instr = (regs, instr) := by
      unfold ConstantRegs.move
      split
      · exact absurd (by assumption) hmove
      · rfl
    rw [hkept]
    exact .kept

theorem copyStep_cases (hfits : Fits instr) (regs : ConstantRegs) :
    CopyCase ((regs.enter instr).kill instr.destinationRegister) instr (copyStep regs instr) :=
  copyCase hfits _

theorem ConstantRegs.kill_some {killed r : Int} (h : regs.kill killed r = some info) :
    regs r = some info ∧ (0 ≤ killed → r ≠ killed) := by
  unfold ConstantRegs.kill at h
  split at h
  · have hne : r ≠ killed := by
      rintro rfl
      rw [Function.update_self] at h
      cases h
    rw [Function.update_of_ne hne] at h
    exact ⟨h, fun _ => hne⟩
  · exact ⟨h, by omega⟩

theorem ConstantRegs.enter_some {r : Int} (h : regs.enter instr r = some info) :
    regs r = some info := by
  unfold ConstantRegs.enter at h
  split at h
  · cases h
  · exact h

theorem copyStep_known (hfits : Fits instr) (h : regs.Known) : (copyStep regs instr).1.Known := by
  have hkilled : ((regs.enter instr).kill instr.destinationRegister).Known := fun r info hr =>
    h r info (ConstantRegs.enter_some (ConstantRegs.kill_some hr).1)
  have hupdate (dst : Int) (info : ConstantInfo) (hloads : ∃ v, info.Loads v) : ConstantRegs.Known
        (Function.update ((regs.enter instr).kill instr.destinationRegister) dst (some info)) := by
    intro r info' hr
    by_cases heq : r = dst
    · rw [heq, Function.update_self] at hr
      cases hr
      exact hloads
    · rw [Function.update_of_ne heq] at hr
      exact hkilled r info' hr
  have hcase := copyStep_cases hfits regs
  generalize copyStep regs instr = out at hcase ⊢
  cases hcase with
  | load dst info v hloads => exact hupdate dst info ⟨v, hloads⟩
  | move dst src info hop hops hsrc => exact hupdate dst info (hkilled src info hsrc)
  | kept => exact hkilled

theorem copyStep_emits (hfits : Fits instr) (h : regs.Known) :
    Fits (copyStep regs instr).2 ∧
      ((copyStep regs instr).2 = instr ∨ instr.opcode ≠ .label ∧
          (copyStep regs instr).2.opcode ≠ .label) := by
  have hcase := copyStep_cases hfits regs
  generalize copyStep regs instr = out at hcase ⊢
  cases hcase with
  | load => exact ⟨hfits, .inl rfl⟩
  | kept => exact ⟨hfits, .inl rfl⟩
  | move dst src info hop hops hsrc =>
    obtain ⟨v, hloads⟩ := h src info (ConstantRegs.enter_some (ConstantRegs.kill_some hsrc).1)
    exact ⟨hloads.fits dst, .inr ⟨by rw [hop]; decide, hloads.not_label⟩⟩

end Known

/-! ## 3. Every run -/

section Runs

variable {E : Env} {regs : ConstantRegs} {instr : IRInstruction} {fr fr' : Frame}
  {os : List Observation} {flow : Exit String Value}

theorem ConstantRegs.Holds.assign (h : regs.Holds fr) {dst : Int} (hdst : 0 ≤ dst) {v : Value}
    (hloads : info.Loads v) :
    ConstantRegs.Holds (Function.update regs dst (some info)) (fr.assign dst v) := by
  intro r info' hr
  by_cases heq : r = dst
  · subst heq
    rw [Function.update_self] at hr
    cases hr
    exact ⟨hdst, v, hloads, if_pos rfl⟩
  · rw [Function.update_of_ne heq] at hr
    obtain ⟨hpos, v', hloads', hv'⟩ := h r info' hr
    exact ⟨hpos, v', hloads', (if_neg heq).trans hv'⟩

theorem copyStep_execute (hfits : Fits instr) (hregs : ∀ r, .reg r ∈ instr.operands → 0 ≤ r)
    (h : (regs.enter instr).Holds fr) (hexec : execute E instr fr = some (os, fr', flow)) :
    execute E (copyStep regs instr).2 fr = some (os, fr', flow) ∧
      (copyStep regs instr).1.Holds fr' := by
  have hkilled : ((regs.enter instr).kill instr.destinationRegister).Holds fr :=
    fun r info hr => h r info (ConstantRegs.kill_some hr).1
  have hcase := copyStep_cases hfits regs
  generalize copyStep regs instr = out at hcase ⊢
  cases hcase with
  | load dst info v hloads hmem hload =>
    have hsame := hexec
    rw [hload] at hsame
    cases hsame
    exact ⟨hexec, hkilled.assign (hregs dst hmem) hloads⟩
  | move dst src info hop hops hsrc =>
    obtain ⟨-, v, hloads, hv⟩ := hkilled src info hsrc
    have hdst : 0 ≤ dst := hregs dst (by rw [hops]; exact List.mem_cons_self)
    rw [execute_move hop hops, Frame.touch_of_present hv, value_of_some hv] at hexec
    cases hexec
    exact ⟨hloads.execute E fr dst, hkilled.assign hdst hloads⟩
  | kept =>
    refine ⟨hexec, fun r info hr => ?_⟩
    obtain ⟨hpos, v, hloads, hv⟩ := hkilled r info hr
    have hne : r ≠ instr.destinationRegister := by
      intro heq
      exact (ConstantRegs.kill_some hr).2 (heq ▸ hpos) heq
    exact ⟨hpos, v, hloads, execute_keeps hexec hne hv⟩

end Runs

/-- What is known when instruction `k` is executed. -/
def knownAt (f : IRFunction) (k : Nat) : ConstantRegs :=
  scanned copyStep (fun _ => none) f.instructions k

def KnownHolds (f : IRFunction) (k : Nat) (fr : Frame) : Prop :=
  ∀ instr, f.instructions[k]? = some instr → ((knownAt f k).enter instr).Holds fr

def copied (f : IRFunction) (k : Nat) (instr : IRInstruction) : IRInstruction :=
  (copyStep (knownAt f k) instr).2

section Pass

variable {E : Env} {f : IRFunction} (hf : Verified E.program.strings f)
include hf

theorem knownAt_known (k : Nat) : (knownAt f k).Known := by
  have hempty : ConstantRegs.Known fun _ => none := by
    intro r info h
    cases h
  exact scanned_invariant copyStep hempty (fun _ instr hmem h => copyStep_known (hf.fits instr hmem) h) k

theorem knownHolds_execute {k : Nat} {instr : IRInstruction}
    (hinstr : f.instructions[k]? = some instr) {fr fr' : Frame} {os : List Observation}
    {flow : Exit String Value} (h : KnownHolds f k fr)
    (hexec : execute E instr fr = some (os, fr', flow)) :
    execute E (copied f k instr) fr = some (os, fr', flow) ∧
      LandedAt (machine E).labelOf f.instructions (KnownHolds f) k fr' flow := by
  have hmem := List.mem_of_getElem? hinstr
  obtain ⟨hnew, hafter⟩ := copyStep_execute (hf.fits instr hmem)
    (fun r hr => (hf.registers instr hmem r hr).1) (h instr hinstr) hexec
  refine ⟨hnew, ?_⟩
  cases flow with
  | ret v => trivial
  | next =>
    intro instr' hinstr' r info hr
    have hknown := ConstantRegs.enter_some hr
    unfold knownAt at hknown
    rw [scanned_succ copyStep hinstr] at hknown
    exact hafter r info hknown
  | goto l =>
    -- the target is a label, where nothing is known
    intro j target htarget hlabel instr' hinstr' r info hr
    rw [htarget] at hinstr'
    cases hinstr'
    unfold ConstantRegs.enter at hr
    rw [if_pos (opcode_of_labelName hlabel)] at hr
    cases hr

theorem copyPropagation_simulates :
    Simulation (machine E) (machine E)
      (expandPieces (fun k instr => [copied f k instr]) f.instructions)
      (fun k fr fr' => fr = fr' ∧ KnownHolds f k fr) Eq True := by
  refine .ofExpand ?_ ?_ ?_
  · intro k instr name hinstr hlabel
    rcases (copyStep_emits (hf.fits instr (List.mem_of_getElem? hinstr))
      (knownAt_known hf k)).2 with heq | ⟨hne, -⟩
    · exact congrArg (fun i => [i]) heq
    · exact absurd (opcode_of_labelName hlabel) hne
  · intro k instr hinstr hlabel
    refine List.forall_mem_singleton.mpr ?_
    rcases (copyStep_emits (hf.fits instr (List.mem_of_getElem? hinstr))
      (knownAt_known hf k)).2 with heq | ⟨-, hne⟩
    · exact (congrArg (machine E).labelOf heq).trans hlabel
    · exact labelName_of_opcode hne
  · intro k instr hinstr fr os fr' flow hhold hexec
    obtain ⟨hnew, hlanded⟩ := knownHolds_execute hf hinstr hhold hexec
    exact ⟨⟨1, Nat.le_refl _, Machine.block_single hnew⟩, hlanded⟩

end Pass

theorem copyPropagation_instructions (f : IRFunction) :
    (copyPropagation f).instructions = f.instructions.mapIdx (copied f) :=
  scan_eq copyStep _ _

/-- A call that completes leaves the same after the pass. -/
theorem copyPropagation_preserves (program : IRProgram) (table : GlobalFunctions) (call : Callee)
    (f : IRFunction) (haccepted : irVerify (some program.strings) f = .ok ())
    (args globals : List Value) (o : Outcome)
    (h : f.outcome program table call args globals = some o) :
    (copyPropagation f).outcome program table call args globals = some o := by
  let E : Env := ⟨program, table, call, f.name⟩
  have hf : Verified E.program.strings f := verified_of_irVerify haccepted
  have hcode : (copyPropagation f).instructions =
      Piece.newCode (expandPieces (fun k instr => [copied f k instr]) f.instructions) :=
    (copyPropagation_instructions f).trans (newCode_expandPieces_one _ _).symm
  have hstart : KnownHolds f 0 (startContext f args globals).frame := by
    intro instr _ r info hr
    cases ConstantRegs.enter_some hr
  refine outcome_of_simulation (E := E) (runnable_of_irVerify haccepted) ?_
    (oldCode_expandPieces _ _).symm hcode
    rfl rfl rfl (copyPropagation_simulates hf) ⟨rfl, hstart⟩ (fun fr fr' heq => by rw [heq]) h
  intro instr hmem
  rw [copyPropagation_instructions] at hmem
  obtain ⟨k, hk, rfl⟩ := List.mem_mapIdx.mp hmem
  exact (copyStep_emits (hf.fits _ (List.getElem_mem hk)) (knownAt_known hf k)).1

def copiedFive : IRFunction where
  name := "copiedFive"
  parameters := []
  maxRegisters := 3
  instructions :=
    [{ opcode := .loadImm, operands := [.reg 1, .imm 5] },
     { opcode := .move, operands := [.reg 2, .reg 1] },
     { opcode := .move, operands := [.reg 0, .reg 2] },
     { opcode := .returnOp, operands := [] }]

def copiedFiveProgram : IRProgram where
  functions := [copiedFive]
  strings := ⟨[], List.nodup_nil⟩
  stringConstants := []
  globals := []

theorem copyPropagation_preserves_copiedFive :
    irVerify (some copiedFiveProgram.strings) copiedFive = .ok () ∧
      (copyPropagation copiedFive).outcome copiedFiveProgram noGlobals
        (callAt copiedFiveProgram noGlobals 256)
        [] [] = some { result := .int 5, globals := [], trace := [] } :=
  ⟨rfl, copyPropagation_preserves copiedFiveProgram noGlobals _ copiedFive rfl [] [] _ rfl⟩

-- both copies are loads now
example :
    (copyPropagation copiedFive).instructions.map IRInstruction.opcode =
      [.loadImm, .loadImm, .loadImm, .returnOp] := rfl

/-! ## 4. A second run -/

def ConstantRegs.Recorded (regs : ConstantRegs) : Prop :=
  ∀ r info, regs r = some info → info.opcode = .loadImm ∨ info.opcode = .loadFloatImm

variable {regs : ConstantRegs}

theorem ConstantRegs.Recorded.update (h : regs.Recorded) (dst : Int)
    (hinfo : info.opcode = .loadImm ∨ info.opcode = .loadFloatImm) :
    ConstantRegs.Recorded (Function.update regs dst (some info)) := by
  intro r info' hr
  by_cases heq : r = dst
  · rw [heq, Function.update_self] at hr
    cases hr
    exact hinfo
  · rw [Function.update_of_ne heq] at hr
    exact h r info' hr

theorem ConstantRegs.Recorded.load (h : regs.Recorded) (instr : IRInstruction) :
    (regs.load instr).Recorded := by
  unfold ConstantRegs.load
  split
  · rename_i hop
    split
    · exact h.update _ (by simpa using hop)
    · exact h
  · exact h

/-- The load a MOVE becomes is recorded as the MOVE was. -/
theorem copyStep_again (h : regs.Recorded) (instr : IRInstruction) :
    copyStep regs (copyStep regs instr).2 = copyStep regs instr ∧
      (copyStep regs instr).1.Recorded := by
  have hkilled : ((regs.enter instr).kill instr.destinationRegister).Recorded := fun r info hr =>
    h r info (ConstantRegs.enter_some (ConstantRegs.kill_some hr).1)
  have hloaded := hkilled.load instr
  cases hout : copyStep regs instr with
  | mk after out =>
  have hstep := hout
  unfold copyStep ConstantRegs.move at hstep
  split at hstep
  · rename_i dst src rest hop hops
    have hload : ∀ regs : ConstantRegs, regs.load instr = regs := fun regs => if_neg (by simp [hop])
    rw [hload] at hstep hloaded
    split at hstep
    · rename_i info hsrc
      cases hstep
      have hinfo := hloaded src info hsrc
      refine ⟨?_, hloaded.update dst hinfo⟩
      have hdst : instr.destinationRegister = dst := by
        unfold IRInstruction.destinationRegister
        rw [hop, hops]
        rfl
      have henter : regs.enter instr = regs := if_neg (by rw [hop]; decide)
      rw [hdst, henter]
      obtain ⟨opcode, value, hint⟩ := info
      rcases hinfo with rfl | rfl
      · rfl
      · rfl
    · cases hstep
      exact ⟨hout, hloaded⟩
  · cases hstep
    exact ⟨hout, hloaded⟩

/-- A second run of the pass finds no MOVE to replace. -/
theorem copyPropagation_idempotent (f : IRFunction) :
    copyPropagation (copyPropagation f) = copyPropagation f := by
  unfold copyPropagation
  dsimp only
  rw [scan_scan copyStep (P := ConstantRegs.Recorded) (fun _ instr h => copyStep_again h instr)]
  intro r info hr
  cases hr

end Optimizer
