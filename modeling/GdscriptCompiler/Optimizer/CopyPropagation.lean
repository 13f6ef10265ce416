import GdscriptCompiler.Optimizer.Meaning

/-!
# CopyPropagation — `IROptimizer::enhanced_copy_propagation`

The map of copies depends on the place in the text only, so it is an invariant of every run once it
is read as: no label since, hence equal.
-/

namespace Optimizer

open Ir Lib

/-! ## 1. The pass -/

structure CopyInfo where
  sourceReg : Int
  defIdx : Nat

-- the `unordered_map` from a copy to what it was copied from
abbrev Copies := Int → Option CopyInfo

def registerUnmodifiedBetween (f : IRFunction) (reg : Int) (start stop : Nat) : Bool :=
  ((f.instructions.take stop).drop (start + 1)).all fun instr =>
    instr.destinationRegister ≠ reg ∧ instr.opcode ≠ .label

section Pass

variable (f : IRFunction)

/-- The operands of the instruction at `i`, with the copies it reads replaced. -/
def propagateOperand (copies : Copies) (i : Nat) (instr : IRInstruction) (j : Nat)
    (operand : IRValue) : IRValue :=
  -- an operand that is also written would redirect the write
  if instr.readsOperand j && !instr.writesOperand j then
    match operand with
    | .reg reg =>
      match copies reg with
      | some info =>
        if registerUnmodifiedBetween f info.sourceReg info.defIdx i then .reg info.sourceReg else
          .reg reg
      | none => .reg reg
    | other => other
  else operand

def propagate (copies : Copies) (i : Nat) (instr : IRInstruction) : IRInstruction :=
  { instr with operands := instr.operands.mapIdx (propagateOperand f copies i instr) }

def clearsCopies (op : Opcode) : Bool := op = .call || op = .await || op = .scopeRelease

def Copies.kill (copies : Copies) (written : Int) : Copies := fun reg =>
  if written < 0 then copies reg
  else if reg = written then none
  else (copies reg).filter fun info => info.sourceReg ≠ written

def Copies.record (copies : Copies) (i : Nat) (instr : IRInstruction) : Copies :=
  match instr.opcode, instr.operands with
  | .move, .reg dst :: .reg src :: _ =>
    if dst ≠ src then fun reg => if reg = dst then some ⟨src, i⟩ else copies reg else copies
  | _, _ => copies

/-- The copies after the (propagated) instruction at `i`. -/
def copiesAfter (copies : Copies) (i : Nat) (instr : IRInstruction) : Copies :=
  let copies : Copies := if clearsCopies instr.opcode then fun _ => none else copies
  (copies.kill instr.destinationRegister).record i instr

def propagateFrom (i : Nat) (copies : Copies) : List IRInstruction → List IRInstruction
  | [] => []
  | instr :: rest =>
    let instr := propagate f copies i instr
    instr :: propagateFrom (i + 1) (copiesAfter copies i instr) rest

def enhancedCopyPropagation : IRFunction :=
  { f with instructions := propagateFrom f 0 (fun _ => none) f.instructions }

/-! ## 2. The copies at a place in the text -/

def copiesBefore : Nat → Copies
  | 0 => fun _ => none
  | k + 1 =>
    match f.instructions[k]? with
    | some instr => copiesAfter (copiesBefore k) k (propagate f (copiesBefore k) k instr)
    | none => copiesBefore k

def propagated (k : Nat) (instr : IRInstruction) : IRInstruction :=
  propagate f (copiesBefore f k) k instr

theorem propagateFrom_eq (k : Nat) :
    propagateFrom f k (copiesBefore f k) (f.instructions.drop k) =
      (f.instructions.drop k).mapIdx fun j => propagated f (k + j) := by
  generalize hrest : f.instructions.drop k = rest
  induction rest generalizing k with
  | nil => rfl
  | cons instr rest ih =>
    have hinstr : f.instructions[k]? = some instr := by
      rw [← List.head?_drop, hrest]
      rfl
    have hcopies : copiesBefore f (k + 1) =
        copiesAfter (copiesBefore f k) k (propagate f (copiesBefore f k) k instr) := by
      rw [copiesBefore, hinstr]
    have htail : f.instructions.drop (k + 1) = rest := by
      rw [← List.tail_drop, hrest]
      rfl
    rw [propagateFrom, ← hcopies, ih (k + 1) htail, List.mapIdx_cons]
    simp [propagated, Nat.add_assoc, Nat.add_comm 1]

theorem enhancedCopyPropagation_instructions :
    (enhancedCopyPropagation f).instructions = f.instructions.mapIdx (propagated f) := by
  have h := propagateFrom_eq f 0
  simp only [List.drop_zero, Nat.zero_add] at h
  exact h

end Pass

variable {reg : Int} {instr : IRInstruction}

section Static

variable {f : IRFunction} {copies : Copies} {info : CopyInfo}

theorem kill_some {written : Int} (h : copies.kill written reg = some info) :
    copies reg = some info ∧ (0 ≤ written → reg ≠ written ∧ info.sourceReg ≠ written) := by
  unfold Copies.kill at h
  split at h
  · exact ⟨h, by omega⟩
  · split at h
    · cases h
    · obtain ⟨hsome, hne⟩ := Option.filter_eq_some_iff.mp h
      exact ⟨hsome, fun _ => ⟨by assumption, of_decide_eq_true hne⟩⟩

theorem record_some {i : Nat} (h : copies.record i instr reg = some info) :
    copies reg = some info ∨ instr.opcode = .move ∧ info.defIdx = i ∧ reg ≠ info.sourceReg ∧
      ∃ rest, instr.operands = .reg reg :: .reg info.sourceReg :: rest := by
  by_cases hmove : ∃ dst src rest, instr.opcode = .move ∧ dst ≠ src ∧
    instr.operands = .reg dst :: .reg src :: rest
  · obtain ⟨dst, src, rest, hop, hne, hops⟩ := hmove
    unfold Copies.record at h
    rw [hop, hops] at h
    change (if dst ≠ src then fun r => if r = dst then some ⟨src, i⟩ else copies r
      else copies : Copies) reg = some info at h
    rw [if_pos hne] at h
    split at h
    · rename_i hreg
      subst hreg
      cases h
      exact .inr ⟨hop, rfl, hne, rest, hops⟩
    · exact .inl h
  · left
    have heq : copies.record i instr = copies := by
      unfold Copies.record
      split
      · rename_i dst src rest hop hops
        exact if_neg fun hne => hmove ⟨dst, src, rest, hop, hne, hops⟩
      · rfl
    rw [← heq]
    exact h

theorem copiesBefore_some {k : Nat} (hinstr : f.instructions[k]? = some instr)
    (h : copiesBefore f (k + 1) reg = some info) :
    (copiesBefore f k).kill (propagated f k instr).destinationRegister reg = some info ∨
      instr.opcode = .move ∧ info.defIdx = k ∧ reg ≠ info.sourceReg ∧
        ∃ rest, (propagated f k instr).operands = .reg reg :: .reg info.sourceReg :: rest := by
  rw [copiesBefore, hinstr] at h
  change copiesAfter _ _ (propagated f k instr) reg = some info at h
  refine (record_some h).imp_left fun hkept => ?_
  split at hkept
  · cases (kill_some hkept).1
  · exact hkept

theorem propagateOperand_eq (copies : Copies) (i : Nat) (instr : IRInstruction) (j : Nat)
    (operand : IRValue) :
    propagateOperand f copies i instr j operand = operand ∨
      instr.readsOperand j = true ∧ instr.writesOperand j = false ∧ ∃ reg info, operand = .reg reg ∧
        copies reg = some info ∧ registerUnmodifiedBetween f info.sourceReg info.defIdx i = true ∧
        propagateOperand f copies i instr j operand = .reg info.sourceReg := by
  unfold propagateOperand
  split
  · rename_i hreads
    rw [Bool.and_eq_true, Bool.not_eq_true'] at hreads
    cases operand with
    | reg reg =>
      dsimp only
      cases hcopy : copies reg with
      | none => exact .inl rfl
      | some info =>
        dsimp only
        split
        · exact .inr ⟨hreads.1, hreads.2, reg, info, rfl, hcopy, by assumption, rfl⟩
        · exact .inl rfl
    | _ => exact .inl rfl
  · exact .inl rfl

theorem copiesBefore_bounds (hregs : ∀ instr ∈ f.instructions, ∀ r, .reg r ∈ instr.operands → 0 ≤ r)
    (k : Nat) (h : copiesBefore f k reg = some info) :
    info.defIdx < k ∧ 0 ≤ reg ∧ 0 ≤ info.sourceReg := by
  induction k generalizing reg info with
  | zero => cases h
  | succ k ih =>
    cases hinstr : f.instructions[k]? with
    | none =>
      rw [copiesBefore, hinstr] at h
      obtain ⟨hlt, hrest⟩ := ih h
      exact ⟨by omega, hrest⟩
    | some instr =>
      rcases copiesBefore_some hinstr h with hkept | ⟨-, hdef, -, rest, hops⟩
      · obtain ⟨hlt, hrest⟩ := ih (kill_some hkept).1
        exact ⟨by omega, hrest⟩
      · -- both operands are registers of the instruction or sources of earlier copies
        have hbound {r : Int} (hr : IRValue.reg r ∈ (propagated f k instr).operands) : 0 ≤ r := by
          obtain ⟨j, hj⟩ := List.mem_iff_getElem?.mp hr
          obtain ⟨operand, hoperand, heq⟩ :=
            Option.map_eq_some_iff.mp (List.getElem?_mapIdx.symm.trans hj)
          rcases propagateOperand_eq (f := f) (copiesBefore f k) k instr j operand with
            hsame | ⟨-, -, r', info', -, hcopy, -, hnew⟩
          · rw [hsame] at heq
            rw [heq] at hoperand
            exact hregs instr (List.mem_of_getElem? hinstr) r (List.mem_of_getElem? hoperand)
          · rw [hnew] at heq
            cases heq
            exact (ih hcopy).2.2
        rw [hops] at hbound
        exact ⟨by omega, hbound (by simp), hbound (by simp)⟩

end Static

/-! ## 3. The copies hold on every run -/

/-- No label after `start`, up to and including `stop`. -/
def NoLabel (f : IRFunction) (start stop : Nat) : Prop :=
  ∀ j instr, start < j → j ≤ stop → f.instructions[j]? = some instr → instr.opcode ≠ .label

/-- Before instruction `k` a copy with no label since equals its source. -/
def CopiesHold (f : IRFunction) (k : Nat) (fr : Frame) : Prop :=
  ∀ reg info, copiesBefore f k reg = some info → NoLabel f info.defIdx k →
    ∃ v, fr.registers reg = some v ∧ fr.registers info.sourceReg = some v

section Runs

variable {f : IRFunction} {k : Nat} {instr : IRInstruction} {fr : Frame}

theorem noLabel_of_unmodified {start : Nat} (h : registerUnmodifiedBetween f reg start k = true)
    (hinstr : f.instructions[k]? = some instr) (hlabel : instr.opcode ≠ .label) :
    NoLabel f start k := by
  intro j instr' hstart hstop hinstr'
  rcases Nat.lt_or_eq_of_le hstop with hlt | rfl
  · unfold registerUnmodifiedBetween at h
    rw [List.all_eq_true] at h
    have hmem : instr' ∈ (f.instructions.take k).drop (start + 1) := by
      refine List.mem_iff_getElem?.mpr ⟨j - (start + 1), ?_⟩
      rw [List.getElem?_drop, show start + 1 + (j - (start + 1)) = j by omega,
        List.getElem?_take_of_lt hlt]
      exact hinstr'
    exact (of_decide_eq_true (h instr' hmem)).2
  · rw [hinstr] at hinstr'
    cases hinstr'
    exact hlabel

theorem stands_propagated (hfits : Fits instr) (hinstr : f.instructions[k]? = some instr)
    (h : CopiesHold f k fr) :
    Stands fr instr.signature 0 instr.operands (propagated f k instr).operands := by
  refine .of_getElem? (List.length_mapIdx ..) fun j operand operand' hold hnew => ?_
  obtain ⟨_, hold', rfl⟩ := Option.map_eq_some_iff.mp (List.getElem?_mapIdx.symm.trans hnew)
  rw [hold] at hold'
  cases hold'
  rcases propagateOperand_eq (f := f) (copiesBefore f k) k instr j operand with
    hsame | ⟨hreads, hwrites, reg, info, rfl, hcopy, hbetween, hsource⟩
  · exact .inl hsame
  · have hkinds : kindAt instr.signature j ≠ .dst ∧ kindAt instr.signature j ≠ .inout := by
      unfold IRInstruction.writesOperand at hwrites
      rw [hold] at hwrites
      simpa using hwrites
    have hlabel : instr.opcode ≠ .label := by
      intro hop
      obtain ⟨id, hops⟩ := hfits.lbl (signature_of hop)
      rw [hops] at hold
      rcases j with _ | _ | j <;> simp at hold
    obtain ⟨v, hreg, hsrc⟩ := h reg info hcopy (noLabel_of_unmodified hbetween hinstr hlabel)
    rw [Nat.zero_add]
    exact .inr ⟨hkinds.1, hkinds.2, reg, info.sourceReg, rfl, hsource, .inr ⟨v, hreg, hsrc⟩⟩

theorem noLabel_of_succ {start : Nat} (h : NoLabel f start (k + 1)) : NoLabel f start k :=
  fun j instr hstart hstop => h j instr hstart (Nat.le_succ_of_le hstop)

variable {E : Env} {fr' : Frame} {os : List Observation} {flow : Exit String Value}

theorem fits_propagated (hfits : Fits instr) (k : Nat) : Fits (propagated f k instr) := by
  refine Fits.rename (List.forall₂_iff_get.mpr ⟨(List.length_mapIdx ..).symm, fun j hj hj' => ?_⟩) hfits
  simp only [List.get_eq_getElem, List.getElem_mapIdx]
  rcases propagateOperand_eq (f := f) (copiesBefore f k) k instr j instr.operands[j] with
    hsame | ⟨-, -, reg, info, hold, -, -, hnew⟩
  · exact .inl hsame
  · exact .inr ⟨reg, info.sourceReg, hold, hnew⟩

theorem copiesHold_execute (hf : Verified E.program.strings f)
    (hinstr : f.instructions[k]? = some instr) (h : CopiesHold f k fr)
    (hexec : execute E instr fr = some (os, fr', flow)) :
    execute E (propagated f k instr) fr = some (os, fr', flow) ∧
      LandedAt (machine E).labelOf f.instructions (CopiesHold f) k fr' flow := by
  have hfits := hf.fits instr (List.mem_of_getElem? hinstr)
  have hregs : ∀ instr ∈ f.instructions, ∀ r, .reg r ∈ instr.operands → 0 ≤ r :=
    fun instr hmem r hr => (hf.registers instr hmem r hr).1
  have hnew : execute E (propagated f k instr) fr = some (os, fr', flow) :=
    (execute_stands hfits (stands_propagated hfits hinstr h)).trans hexec
  refine ⟨hnew, ?_⟩
  cases flow with
  | ret v => trivial
  | goto l =>
    -- every copy is older than the label
    intro j target htarget hlabel reg info hcopy hnone
    obtain ⟨hlt, -⟩ := copiesBefore_bounds hregs j hcopy
    refine absurd ?_ (hnone j target hlt (Nat.le_refl _) htarget)
    exact opcode_of_labelName hlabel
  | next =>
    intro reg info hcopy hnone
    rcases copiesBefore_some hinstr hcopy with hkept | ⟨hop, hdef, hne, rest, hops⟩
    · obtain ⟨hcopy', hwritten⟩ := kill_some hkept
      obtain ⟨-, hreg, hsource⟩ := copiesBefore_bounds hregs k hcopy'
      obtain ⟨v, hv, hv'⟩ := h reg info hcopy' (noLabel_of_succ hnone)
      have hother : reg ≠ (propagated f k instr).destinationRegister ∧
          info.sourceReg ≠ (propagated f k instr).destinationRegister := by
        rcases Int.lt_or_le (propagated f k instr).destinationRegister 0 with hneg | hpos
        · exact ⟨by omega, by omega⟩
        · exact hwritten hpos
      exact ⟨v, execute_keeps hnew hother.1 hv, execute_keeps hnew hother.2 hv'⟩
    · have hexact : (propagated f k instr).operands = [.reg reg, .reg info.sourceReg] := by
        obtain ⟨_, _, hpair⟩ := (fits_propagated hfits k).dst_src (by
          rw [IRInstruction.signature, show (propagated f k instr).opcode = .move from hop]; rfl)
        rw [hpair] at hops ⊢
        cases hops
        rfl
      rw [execute_move (show (propagated f k instr).opcode = .move from hop) hexact] at hnew
      cases hnew
      refine ⟨fr.value info.sourceReg, if_pos rfl, ?_⟩
      exact (if_neg hne.symm).trans (if_pos (List.mem_singleton.mpr rfl))

end Runs

/-! ## 4. The pass keeps every completed call -/

variable {f : IRFunction}

theorem labelName_propagated (strings : StringTable) (k : Nat) :
    (propagated f k instr).labelName strings = instr.labelName strings := by
  unfold IRInstruction.labelName propagated propagate
  dsimp only
  cases hops : instr.operands with
  | nil => rfl
  | cons first rest =>
    rw [List.mapIdx_cons]
    rcases propagateOperand_eq (f := f) (copiesBefore f k) k instr 0 first with
      hsame | ⟨-, -, reg, info, rfl, -, -, hnew⟩
    · rw [hsame]
      cases instr.opcode <;> cases first <;> rfl
    · rw [hnew]
      cases instr.opcode <;> rfl

theorem propagated_label (hfits : Fits instr) (hop : instr.opcode = .label) (k : Nat) :
    propagated f k instr = instr := by
  obtain ⟨id, hops⟩ := hfits.lbl (signature_of hop)
  have hsame : instr.operands.mapIdx (propagateOperand f (copiesBefore f k) k instr) =
    instr.operands := by
    rw [hops]
    rcases propagateOperand_eq (f := f) (copiesBefore f k) k instr 0 (.label id) with
      hsame | ⟨-, -, reg, info, hreg, -⟩
    · simp [hsame]
    · cases hreg
  unfold propagated propagate
  rw [hsame]

theorem enhancedCopyPropagation_code (f : IRFunction) :
    (enhancedCopyPropagation f).instructions =
      Piece.newCode (expandPieces (fun k instr => [propagated f k instr]) f.instructions) := by
  rw [enhancedCopyPropagation_instructions, newCode_expandPieces_one]

theorem copyPropagation_simulation {E : Env} (hf : Verified E.program.strings f) :
    Simulation (machine E) (machine E)
      (expandPieces (fun k instr => [propagated f k instr]) f.instructions)
      (fun k fr fr' => fr = fr' ∧ CopiesHold f k fr) Eq True := by
  refine .ofExpand ?_ ?_ ?_
  · intro k instr name hinstr hlabel
    rw [propagated_label (hf.fits instr (List.mem_of_getElem? hinstr)) (opcode_of_labelName hlabel) k]
  · intro k instr hinstr hlabel
    exact List.forall_mem_singleton.mpr ((labelName_propagated E.program.strings k).trans hlabel)
  · intro k instr hinstr fr os fr' flow hhold hexec
    obtain ⟨hnew, hlanded⟩ := copiesHold_execute hf hinstr hhold hexec
    exact ⟨⟨1, Nat.le_refl _, Machine.block_single hnew⟩, hlanded⟩

/-- Whatever a verified function is called with: a call that completes leaves the same after the
pass, and wherever the pass replaced a register, on every run, the two hold the same value. -/
theorem enhancedCopyPropagation_preserves (program : IRProgram) (table : GlobalFunctions)
    (call : Callee) (f : IRFunction) (haccepted : irVerify (some program.strings) f = .ok ())
    (args globals : List Value) :
    (∀ o, f.outcome program table call args globals = some o →
      (enhancedCopyPropagation f).outcome program table call args globals = some o) ∧
    ∀ n ctx instr instr', runSteps program table call f n (startContext f args globals) =
      (none, ctx) →
      ctx.returned = false → f.instructions[ctx.pc]? = some instr →
      (enhancedCopyPropagation f).instructions[ctx.pc]? = some instr' →
      ∀ (j : Nat) (r s : Int), instr.operands[j]? = some (.reg r) →
        instr'.operands[j]? = some (.reg s) →
        ctx.frame.value s = ctx.frame.value r := by
  let E : Env := ⟨program, table, call, f.name⟩
  have hf := verified_of_irVerify haccepted
  have hrunnable := runnable_of_irVerify haccepted
  constructor
  · intro o ho
    refine outcome_of_simulation (E := E) hrunnable ?_ (oldCode_expandPieces _ _).symm
      (enhancedCopyPropagation_code f) rfl rfl rfl
      (copyPropagation_simulation hf) ⟨rfl, nofun⟩ (fun fr fr' heq => by rw [heq]) ho
    intro instr' hmem
    rw [enhancedCopyPropagation_instructions] at hmem
    obtain ⟨k, hk, rfl⟩ := List.mem_mapIdx.mp hmem
    exact fits_propagated (hf.fits _ (List.getElem_mem hk)) k
  · intro n ctx instr instr' hrun hret hinstr hinstr' j r s hr hs
    have hhold : CopiesHold f ctx.pc ctx.frame := by
      refine runSteps_invariant (E := E) hrunnable rfl (fun k i hi fr o fr₁ flow hinv hexec => ?_)
        nofun hrun hret
      exact (copiesHold_execute hf hi hinv hexec).2
    rw [enhancedCopyPropagation_instructions, List.getElem?_mapIdx, hinstr] at hinstr'
    cases hinstr'
    have hstands := stands_propagated (hf.fits instr (List.mem_of_getElem? hinstr)) hinstr hhold
    rcases hstands.getElem? j with heq | ⟨-, -, r', s', hr', hs', halike⟩
    · rw [heq, hr] at hs
      cases hs
      rfl
    · rw [hr] at hr'
      rw [hs] at hs'
      cases hr'
      cases hs'
      exact halike.value_eq.symm

def addCopy : IRFunction where
  name := "add_copy"
  parameters := ["n"]
  maxRegisters := 3
  instructions := [
    { opcode := .move, operands := [.reg 1, .reg 0] },
    { opcode := .add, operands := [.reg 2, .reg 1, .reg 0] },
    { opcode := .move, operands := [.reg 0, .reg 2] },
    { opcode := .returnOp, operands := [] }]

def addCopyProgram : IRProgram where
  functions := [addCopy]
  strings := ⟨[], List.nodup_nil⟩
  stringConstants := []
  globals := []

theorem enhancedCopyPropagation_preserves_addCopy :
    irVerify (some addCopyProgram.strings) addCopy = .ok () ∧
      (enhancedCopyPropagation addCopy).outcome addCopyProgram noGlobals
        (callAt addCopyProgram noGlobals 256)
        [.int 4] [] = some { result := .int 8, globals := [], trace := [] } :=
  ⟨rfl, (enhancedCopyPropagation_preserves addCopyProgram noGlobals _ addCopy rfl [.int 4] []).1 _ rfl⟩

-- the copy is gone from the addition
example :
    (enhancedCopyPropagation addCopy).instructions.map (·.collectReadRegisters) =
      [[0], [0, 0], [2], [0]] := rfl

end Optimizer
