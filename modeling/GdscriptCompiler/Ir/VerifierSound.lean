import GdscriptCompiler.Ir.SemanticsSound
import GdscriptCompiler.Ir.VerifierFlow
import Mathlib.Data.List.Find

/-! # VerifierSound — a verified function runs safely -/

namespace Ir

open Lib

/-! ## 1. Safe logs -/

/-- Written on this run, or a parameter. -/
def Written (f : IRFunction) (log : List Event) (r : Int) : Prop :=
  .write r ∈ log ∨ 0 ≤ r ∧ r < f.parameters.length

def InRange (f : IRFunction) (r : Int) : Prop := 0 ≤ r ∧ r < f.maxRegisters

/-- An event that may follow the events `earlier`. -/
def SafeEvent (strings : StringTable) (f : IRFunction) (earlier : List Event) : Event → Prop
  | .read r => InRange f r ∧ Written f earlier r
  | .write r => InRange f r
  | .jump label => ∃ target, f.runLabels strings label = some target
  | .mark _ => True
  | .release scope => .mark scope ∈ earlier
  | .stray => False

/-- Every event of a log (newest first) was safe when it happened. -/
def SafeLog (strings : StringTable) (f : IRFunction) : List Event → Prop
  | [] => True
  | event :: earlier => SafeEvent strings f earlier event ∧ SafeLog strings f earlier

variable {log : List Event} {r : Int}

section Logs

variable {strings : StringTable} {f : IRFunction} {log' : List Event}

theorem Written.mono (h : Written f log r) (hsub : ∀ event ∈ log, event ∈ log') :
    Written f log' r :=
  h.imp_left (hsub _)

theorem SafeEvent.mono {event : Event} (h : SafeEvent strings f log event)
    (hsub : ∀ event ∈ log, event ∈ log') :
    SafeEvent strings f log' event := by
  cases event with
  | read r => exact ⟨h.1, h.2.mono hsub⟩
  | release scope => exact hsub _ h
  | write r => exact h
  | jump label => exact h
  | mark scope => exact h
  | stray => exact h

-- Events that are each safe after `log` are safe one after the other.
theorem safeLog_append (h : SafeLog strings f log) (new : List Event)
    (hnew : ∀ event ∈ new, SafeEvent strings f log event) :
    SafeLog strings f (new ++ log) := by
  induction new with
  | nil => exact h
  | cons event new ih =>
    obtain ⟨hevent, hrest⟩ := List.forall_mem_cons.mp hnew
    exact ⟨hevent.mono fun e he => List.mem_append_right _ he, ih hrest⟩

end Logs

/-! ## 2. What acceptance gives -/

variable {i : Nat} {instr : IRInstruction} {state : RegisterState} {marked : Finset Int64}
  {op : Opcode}

section Accepted

variable {strings : StringTable} {f : IRFunction}

theorem hasEffect_label_iff : hasEffect op .label = true ↔ op = .label := by
  cases op <;> decide

theorem terminator_cases (h : hasEffect op .terminator = true) : op = .jump ∨ op = .returnOp := by
  revert h
  cases op <;> decide

structure Verified (strings : StringTable) (f : IRFunction) : Prop where
  parameters : (f.parameters.length : Int) ≤ f.maxRegisters
  registers : ∀ instr ∈ f.instructions, ∀ r, .reg r ∈ instr.operands → InRange f r
  fits : ∀ instr ∈ f.instructions, Fits instr
  labels : ∀ instr ∈ f.instructions, ∀ name ∈ instr.labelTargets (some strings),
    ∃ target, f.labelIndex (some strings) name = some target
  definedness : checkDefinednessAndTypes (some strings) f = .ok ()
  scopes : checkScopeMarks (some strings) f = .ok ()

theorem checkRegister_eq_ok {max : Int} (h : checkRegister max (.reg r) i = .ok ()) :
    0 ≤ r ∧ r < max := by
  unfold checkRegister at h
  dsimp only at h
  split at h
  · exact absurd h failAt_ne_ok
  · rename_i hneg
    have := failIf_eq_ok.mp h
    omega

theorem verified_of_irVerify (h : irVerify (some strings) f = .ok ()) : Verified strings f := by
  unfold irVerify at h
  rw [seq_eq_ok, seq_eq_ok, seq_eq_ok, seq_eq_ok, seq_eq_ok] at h
  obtain ⟨hrange, hoperands, hlabels, -, hdef, hscopes⟩ := h
  unfold checkRegisterRange at hrange
  rw [seq_eq_ok, seq_eq_ok, failFunctionIf_eq_ok, failFunctionIf_eq_ok, forInstructions_eq_ok]
    at hrange
  unfold checkOperands at hoperands
  rw [forInstructions_eq_ok] at hoperands
  unfold checkLabels at hlabels
  rw [seq_eq_ok, forInstructions_eq_ok, forInstructions_eq_ok] at hlabels
  refine ⟨by omega, ?_, ?_, ?_, hdef, hscopes⟩
  · intro instr hinstr r hr
    obtain ⟨i, hi⟩ := List.mem_iff_getElem?.mp hinstr
    exact checkRegister_eq_ok (forM_eq_ok.mp (hrange.2.2 i instr hi) _ hr)
  · intro instr hinstr
    obtain ⟨i, hi⟩ := List.mem_iff_getElem?.mp hinstr
    exact fits_of_checkOperandsOf (hoperands i instr hi)
  · intro instr hinstr name hname
    obtain ⟨i, hi⟩ := List.mem_iff_getElem?.mp hinstr
    have hsome := failIf_eq_ok.mp (forM_eq_ok.mp (hlabels.2 i instr hi) name hname)
    exact Option.isSome_iff_exists.mp (Option.isNone_eq_false_iff.mp (Bool.eq_false_iff.mpr hsome))

theorem runLabels_eq (h : Verified strings f) (name : String) :
    f.runLabels strings name = f.labelIndex (some strings) name := by
  unfold IRFunction.runLabels IRFunction.labelIndex
  congr 1
  apply List.find?_congr
  rintro ⟨instr, i⟩ hmem
  have hfits := h.fits instr
    (List.mem_of_getElem? (List.mem_zipIdx_iff_getElem?.mp (List.mem_reverse.mp hmem)))
  unfold IRInstruction.definesLabel
  dsimp only
  by_cases hop : instr.opcode = .label
  · obtain ⟨first, rest, hops, hfirst⟩ := hfits.row [.lbl] (by rw [hop]; decide)
    obtain _ | ⟨hlbl, _ | _⟩ := hfirst
    obtain ⟨id, rfl⟩ := exists_label (Or.inl rfl) hlbl
    rw [if_pos (hasEffect_label_iff.mpr hop), hop, hops]
    simp [IRValue.nameOf, IRValue.stringId]
  · rw [if_neg (fun heff => hop (hasEffect_label_iff.mp heff))]
    split
    · rename_i hlabel _
      exact absurd hlabel hop
    · simp

variable {block : BasicBlock}

theorem Verified.reads (h : Verified strings f) (hblock : InBlock (some strings) f i block)
    (hinstr : f.instructions[i]? = some instr)
    (hstate : f.definedness (some strings) (f.blockOf i) = some state) :
    checkReads instr ((block.before f i).foldl (fun state p => state.apply p.1) state) i =
      .ok () := by
  have hall := h.definedness
  unfold checkDefinednessAndTypes at hall
  dsimp only at hall
  rw [forM_eq_ok] at hall
  have hreport := hall (block, f.blockOf i) (List.mem_zipIdx_iff_getElem?.mpr hblock.found)
  rw [hstate] at hreport
  unfold reportBlock at hreport
  obtain ⟨final, hfold, -⟩ := bind_eq_ok.mp hreport
  obtain ⟨after, hsplit⟩ := hblock.instructions_eq hinstr
  exact foldlM_check_of_ok (fun state (p : IRInstruction × Nat) => checkReads p.1 state p.2)
    (fun state p => state.apply p.1) hfold _ (instr, i) after hsplit

theorem Verified.releases (h : Verified strings f) (hblock : InBlock (some strings) f i block)
    (hinstr : f.instructions[i]? = some instr)
    (hmarked : f.scopeMarks (some strings) (f.blockOf i) = some marked)
    (hrelease : instr.opcode = .scopeRelease) :
    instr.scopeId ∈ (block.before f i).foldl (fun marked p => applyScope marked p.1) marked := by
  have hall := h.scopes
  unfold checkScopeMarks at hall
  dsimp only at hall
  rw [forM_eq_ok] at hall
  have hreport := hall (block, f.blockOf i) (List.mem_zipIdx_iff_getElem?.mpr hblock.found)
  rw [hmarked] at hreport
  unfold reportScopes at hreport
  obtain ⟨final, hfold, -⟩ := bind_eq_ok.mp hreport
  obtain ⟨after, hsplit⟩ := hblock.instructions_eq hinstr
  have hcheck := foldlM_check_of_ok
    (fun marked (p : IRInstruction × Nat) =>
      failIf (p.1.opcode = .scopeRelease ∧ p.1.scopeId ∉ marked)
        ("scope " ++ toString p.1.scopeId ++ " is released on a path where it was never marked") p.2)
    (fun marked p => applyScope marked p.1) hfold _ (instr, i) after hsplit
  have hnot := failIf_eq_ok.mp hcheck
  by_contra hmiss
  exact hnot ⟨hrelease, hmiss⟩

end Accepted

/-! ## 3. The invariant of a run -/

/-- The states of both analyses before instruction `stop` of the block of `i` cover what the run has
done. -/
def Covered (strings : StringTable) (f : IRFunction) (i stop : Nat) (log : List Event) : Prop :=
  ∃ block state marked, InBlock (some strings) f i block ∧
    f.definedness (some strings) (f.blockOf i) = some state ∧
    CoversDefined ((block.before f stop).foldl (fun state p => state.apply p.1) state)
      (Written f log) ∧
    f.scopeMarks (some strings) (f.blockOf i) = some marked ∧
    CoversMarked ((block.before f stop).foldl (fun marked p => applyScope marked p.1) marked)
      (fun scope => .mark scope ∈ log)

structure Safe (strings : StringTable) (f : IRFunction) (ctx : Context) : Prop where
  log : SafeLog strings f ctx.log
  present : ∀ r, ctx.registers r ≠ none → InRange f r ∧ Written f ctx.log r
  covered : ctx.running f = true → Covered strings f ctx.pc ctx.pc ctx.log

variable {new : List Event}

section Invariant

variable {strings : StringTable} {f : IRFunction}

-- At a leader nothing of the block has run yet.
theorem covered_at_leader (hi : i < f.instructions.length) (hleader : f.isLeader i = true)
    (hstate : f.definedness (some strings) (f.blockOf i) = some state)
    (hcovers : CoversDefined state (Written f log))
    (hmarked : f.scopeMarks (some strings) (f.blockOf i) = some marked)
    (hcovers' : CoversMarked marked (fun scope => .mark scope ∈ log)) :
    Covered strings f i i log := by
  obtain ⟨block, hblock⟩ := exists_inBlock (some strings) f hi
  refine ⟨block, state, marked, hblock, hstate, ?_, hmarked, ?_⟩
  · rw [← hblock.start_eq hleader, before_start]
    exact hcovers
  · rw [← hblock.start_eq hleader, before_start]
    exact hcovers'

theorem covers_entryState (log : List Event) : CoversDefined f.entryState (Written f log) := by
  intro r hr
  unfold IRFunction.entryState at hr
  dsimp only at hr
  rw [List.getD_eq_getElem?_getD, List.getElem?_map] at hr
  by_cases hlt : r < f.registerCount
  · rw [List.getElem?_range hlt] at hr
    have hr := of_decide_eq_true hr
    right
    omega
  · rw [List.getElem?_eq_none (by rw [List.length_range]; omega)] at hr
    cases hr

theorem covers_apply (h : CoversDefined state (Written f log))
    (hwrote : 0 ≤ instr.destinationRegister → .write instr.destinationRegister ∈ new) :
    CoversDefined (state.apply instr) (Written f (new ++ log)) := by
  intro r hr
  unfold RegisterState.apply at hr
  dsimp only at hr
  split at hr
  · rename_i hdst
    by_cases heq : r = instr.destinationRegister.toNat
    · left
      apply List.mem_append_left
      rw [show (r : Int) = instr.destinationRegister by omega]
      exact hwrote hdst.1
    · rw [List.getD_eq_getElem?_getD, List.getElem?_set_ne (Ne.symm heq),
        ← List.getD_eq_getElem?_getD] at hr
      exact (h r hr).mono fun e he => List.mem_append_right _ he
  · exact (h r hr).mono fun e he => List.mem_append_right _ he

theorem covers_applyScope (h : CoversMarked marked (fun scope => .mark scope ∈ log))
    (hmarked : instr.opcode = .scopeMark → .mark instr.scopeId ∈ new) :
    CoversMarked (applyScope marked instr) (fun scope => .mark scope ∈ new ++ log) := by
  intro scope hscope
  unfold applyScope at hscope
  split at hscope
  · rename_i hop
    rcases Finset.mem_insert.mp hscope with rfl | hscope
    · exact List.mem_append_left _ (hmarked hop)
    · exact List.mem_append_right _ (h scope hscope)
  · exact List.mem_append_right _ (h scope hscope)

theorem Covered.after (h : Covered strings f i i log) (hinstr : f.instructions[i]? = some instr)
    (hwrote : 0 ≤ instr.destinationRegister → .write instr.destinationRegister ∈ new)
    (hmarked : instr.opcode = .scopeMark → .mark instr.scopeId ∈ new) :
    Covered strings f i (i + 1) (new ++ log) := by
  obtain ⟨block, state, marked, hblock, hstate, hdef, hmarks, hscope⟩ := h
  refine ⟨block, state, marked, hblock, hstate, ?_, hmarks, ?_⟩
  · rw [before_succ hblock.start_le hinstr, List.foldl_append]
    exact covers_apply hdef hwrote
  · rw [before_succ hblock.start_le hinstr, List.foldl_append]
    exact covers_applyScope hscope hmarked

-- Inside a block the next instruction continues with the same states.
theorem Covered.next (h : Covered strings f i (i + 1) log) (hi : i + 1 < f.instructions.length)
    (hnot : f.isLeader (i + 1) = false) :
    Covered strings f (i + 1) (i + 1) log := by
  obtain ⟨block, state, marked, hblock, hstate, hdef, hmarks, hscope⟩ := h
  have hsame := f.blockOf_succ_of_not_leader hnot
  exact ⟨block, state, marked, hblock.succ hi hnot, hsame ▸ hstate, hdef, hsame ▸ hmarks, hscope⟩

theorem Covered.edge {target : Nat} (h : Covered strings f i (i + 1) log)
    (hinstr : f.instructions[i]? = some instr)
    (hend : i + 1 = f.instructions.length ∨ f.isLeader (i + 1) = true)
    (htarget : target < f.instructions.length) (hleader : f.isLeader target = true)
    (hedge : f.blockOf target ∈ f.successorsOf (some strings) (f.blockOf i) instr) :
    Covered strings f target target log := by
  obtain ⟨block, state, marked, hblock, hstate, hdef, hmarks, hscope⟩ := h
  have hn : 0 < f.instructions.length := Nat.zero_lt_of_lt htarget
  have hstop := hblock.stop_eq hend
  have hsuccs : block.successors = f.successorsOf (some strings) (f.blockOf i) instr := by
    apply hblock.successors
    rw [hstop]
    exact hinstr
  have hmem : f.blockOf target ∈
    ((f.blocks (some strings))[f.blockOf i]?.map BasicBlock.successors).getD [] := by
    rw [hblock.found]
    change _ ∈ block.successors
    rw [hsuccs]
    exact hedge
  obtain ⟨state', hstate', hweaker⟩ := (definedness_solved (some strings) f hn).edge _ _ hstate _ hmem
  obtain ⟨marked', hmarks', hweaker'⟩ := (scopeMarks_solved (some strings) f hn).edge _ _ hmarks _ hmem
  apply covered_at_leader htarget hleader hstate' _ hmarks' _
  · apply hweaker
    unfold IRFunction.definednessFlow
    dsimp only
    rw [hblock.found]
    change CoversDefined (transfer f block state) _
    unfold transfer
    rw [instructions_eq_before, hstop]
    exact hdef
  · apply hweaker'
    unfold IRFunction.scopeFlow
    dsimp only
    rw [hblock.found]
    change CoversMarked ((block.instructions f).foldl _ marked) _
    rw [instructions_eq_before, hstop]
    exact hscope

theorem covered_start (hn : 0 < f.instructions.length) (log : List Event) :
    Covered strings f 0 0 log := by
  obtain ⟨state, hstate, hweaker⟩ := (definedness_solved (some strings) f hn).start
  obtain ⟨marked, hmarks, hweaker'⟩ := (scopeMarks_solved (some strings) f hn).start
  have hzero := f.blockOf_zero
  apply covered_at_leader hn rfl (hzero ▸ hstate) _ (hzero ▸ hmarks) _
  · exact hweaker _ (covers_entryState log)
  · apply hweaker'
    intro scope hscope
    cases hscope

end Invariant

/-! ## 4. Jumps -/

section Jumps

variable {strings : StringTable} {f : IRFunction} {instr : IRInstruction}

theorem kindAt_mem {signature : List OperandKind} {j : Nat} (h : kindAt signature j ≠ .none) :
    kindAt signature j ∈ signature := by
  unfold kindAt at h ⊢
  split
  · rename_i hj
    rw [if_pos hj] at h
    rw [List.getD_eq_getElem?_getD] at h ⊢
    cases hget : signature[j]? with
    | none =>
      rw [hget] at h
      exact absurd rfl h
    | some kind => exact List.mem_of_getElem? hget
  · rename_i hj
    rw [if_neg hj] at h
    split
    · rename_i hvar
      rw [if_pos hvar] at h
      cases signature with
      | nil => exact absurd rfl h
      | cons kind rest =>
        rw [List.getLastD_eq_getLast?, List.getLast?_eq_some_getLast (List.cons_ne_nil _ _)]
        exact List.getLast_mem _
    · rename_i hvar
      rw [if_neg hvar] at h
      exact absurd rfl h

-- In the opcode table only branches and terminators take a label they do not define.
theorem endsBlock_of_label_kind (hnot : hasEffect op .label = false)
    (h : .lbl ∈ (opcodeInfo op).signature ∨ .lblList ∈ (opcodeInfo op).signature) :
    (hasEffect op .branch || hasEffect op .terminator) = true := by
  revert h hnot
  cases op <;> decide

theorem operandMatches_label {id : Nat} {kind : OperandKind}
    (h : operandMatches (.label id) kind = true) :
    kind = .lbl ∨ kind = .lblList := by
  cases kind <;> first | exact Or.inl rfl | exact Or.inr rfl | cases h

theorem endsBlock_of_labelTargets (hfits : Fits instr) {label : String}
    (h : label ∈ instr.labelTargets (some strings)) :
    instr.endsBlock = true := by
  unfold IRInstruction.labelTargets at h
  split at h
  · cases h
  rename_i hnot
  obtain ⟨operand, hmem, hlabel⟩ := List.mem_filterMap.mp h
  obtain ⟨j, hj⟩ := List.mem_iff_getElem?.mp hmem
  cases operand with
  | label id =>
    have hkind := operandMatches_label (hfits.kinds j _ hj)
    have hmem : kindAt instr.signature j ∈ instr.signature := by
      apply kindAt_mem
      rcases hkind with hkind | hkind <;> rw [hkind] <;> decide
    apply endsBlock_of_label_kind (Bool.eq_false_iff.mpr hnot)
    rcases hkind with hkind | hkind <;> rw [hkind] at hmem
    · exact Or.inl hmem
    · exact Or.inr hmem
  | _ => cases hlabel

theorem labelIndex_isLabel {name : String} (h : f.labelIndex (some strings) name = some i) :
    ∃ instr, f.instructions[i]? = some instr ∧ hasEffect instr.opcode .label = true := by
  unfold IRFunction.labelIndex at h
  obtain ⟨⟨instr, j⟩, hfind, rfl⟩ := Option.map_eq_some_iff.mp h
  have hmem := List.mem_reverse.mp (List.mem_of_find?_eq_some hfind)
  refine ⟨instr, List.mem_zipIdx_iff_getElem?.mp hmem, ?_⟩
  have hfound := List.find?_some hfind
  have hdefines : instr.definesLabel (some strings) = some name := of_decide_eq_true hfound
  unfold IRInstruction.definesLabel at hdefines
  by_contra hnot
  rw [if_neg hnot] at hdefines
  cases hdefines

theorem isLeader_of_labelIndex {name : String} (h : f.labelIndex (some strings) name = some i) :
    f.isLeader i = true := by
  obtain ⟨instr, hinstr, hlabel⟩ := labelIndex_isLabel h
  unfold IRFunction.isLeader
  rw [hinstr]
  change (_ || hasEffect instr.opcode .label || _) = true
  rw [hlabel, Bool.or_true, Bool.true_or]

-- What follows a branch or a terminator leads a block.
theorem isLeader_succ (hinstr : f.instructions[i]? = some instr) (hends : instr.endsBlock = true) :
    f.isLeader (i + 1) = true := by
  unfold IRFunction.isLeader
  rw [Nat.add_sub_cancel, hinstr]
  change (_ || _ || instr.endsBlock) = true
  rw [hends, Bool.or_true]

end Jumps

/-! ## 5. One turn of the loop -/

section Step

variable {strings : StringTable} {f : IRFunction} {instr : IRInstruction} {ctx : Context}

theorem mem_operands_of_read (hnot : instr.isBareReturn = false)
    (h : r ∈ instr.collectReadRegisters) :
    .reg r ∈ instr.operands := by
  unfold IRInstruction.collectReadRegisters at h
  rw [hnot, if_neg Bool.false_ne_true] at h
  obtain ⟨⟨operand, j⟩, hmem, hread⟩ := List.mem_filterMap.mp h
  have hmem := List.mem_of_getElem? (List.mem_zipIdx_iff_getElem?.mp hmem)
  cases operand with
  | reg r' =>
    dsimp only at hread
    split at hread
    · cases hread
      exact hmem
    · cases hread
  | _ => cases hread

theorem Covered.read (h : Verified strings f) (hcovered : Covered strings f i i log)
    (hinstr : f.instructions[i]? = some instr) (hbare : instr.isBareReturn = false)
    (hr : r ∈ instr.collectReadRegisters) :
    InRange f r ∧ Written f log r := by
  obtain ⟨block, state, marked, hblock, hstate, hdef, -⟩ := hcovered
  have hrange := h.registers instr (List.mem_of_getElem? hinstr) r
    (mem_operands_of_read hbare hr)
  have hn : 0 < f.instructions.length :=
    Nat.zero_lt_of_lt (List.getElem?_eq_some_iff.mp hinstr).1
  have hsized := sized_foldl ((definedness_solved (some strings) f hn).ok _ _ hstate) (block.before f i)
  have hcheck := h.reads hblock hinstr hstate
  unfold checkReads at hcheck
  rw [hbare, if_neg Bool.false_ne_true, seq_eq_ok, forM_eq_ok] at hcheck
  have hdefined := failIf_eq_ok.mp (hcheck.1 r hr)
  obtain ⟨hzero, hlt⟩ := id hrange
  refine ⟨hrange, ?_⟩
  rw [← Int.toNat_of_nonneg hzero]
  apply hdef
  by_contra hundefined
  apply hdefined
  refine ⟨hzero, ?_, ?_⟩
  · rw [hsized.1]
    unfold IRFunction.registerCount
    omega
  · rw [Bool.eq_false_iff.mpr hundefined]
    rfl

theorem read_safe (h : Verified strings f) (hs : Safe strings f ctx)
    (hcovered : Covered strings f ctx.pc ctx.pc ctx.log)
    (hinstr : f.instructions[ctx.pc]? = some instr) (hr : r ∈ instr.collectReadRegisters)
    (hpresent : instr.isBareReturn = true → ctx.registers r ≠ none) :
    SafeEvent strings f ctx.log (.read r) := by
  cases hbare : instr.isBareReturn with
  | true => exact hs.present r (hpresent hbare)
  | false => exact hcovered.read h hinstr hbare hr

theorem event_safe (h : Verified strings f) (hs : Safe strings f ctx)
    (hcovered : Covered strings f ctx.pc ctx.pc ctx.log)
    (hinstr : f.instructions[ctx.pc]? = some instr) {event : Event}
    (hevent : EventOf strings instr ctx event) :
    SafeEvent strings f ctx.log event := by
  have hmem := List.mem_of_getElem? hinstr
  cases event with
  | read r => exact read_safe h hs hcovered hinstr hevent.1 hevent.2
  | write r => exact h.registers instr hmem r hevent.1
  | jump label =>
    change ∃ target, f.runLabels strings label = some target
    rw [runLabels_eq h]
    exact h.labels instr hmem label hevent
  | mark scope => trivial
  | release scope =>
    obtain ⟨block, state, marked, hblock, -, -, hmarks, hscope⟩ := hcovered
    rw [hevent.2]
    exact hscope _ (h.releases hblock hinstr hmarks hevent.1)
  | stray => exact hevent

theorem Covered.jump {j : Nat} (h : Covered strings f i (i + 1) log)
    (hinstr : f.instructions[i]? = some instr) (hfits : Fits instr) {label : String}
    (hlabel : label ∈ instr.labelTargets (some strings))
    (htarget : f.labelIndex (some strings) label = some j) :
    Covered strings f j j log := by
  have hends := endsBlock_of_labelTargets hfits hlabel
  apply h.edge hinstr (Or.inr (isLeader_succ hinstr hends)) (labelIndex_lt htarget)
    (isLeader_of_labelIndex htarget)
  unfold IRFunction.successorsOf
  apply List.mem_append_left
  exact List.mem_filterMap.mpr ⟨label, hlabel, by rw [htarget]; rfl⟩

theorem Covered.fall (h : Covered strings f i (i + 1) log)
    (hinstr : f.instructions[i]? = some instr) (hterm : hasEffect instr.opcode .terminator = false)
    (hnext : i + 1 < f.instructions.length) :
    Covered strings f (i + 1) (i + 1) log := by
  cases hleader : f.isLeader (i + 1) with
  | false => exact h.next hnext hleader
  | true =>
    apply h.edge hinstr (Or.inr hleader) hnext hleader
    have hsucc := f.blockOf_succ_of_leader hleader
    unfold IRFunction.successorsOf
    apply List.mem_append_right
    rw [if_pos]
    · rw [hsucc]
      exact List.mem_singleton_self _
    · rw [Bool.and_eq_true, decide_eq_true_eq, ← hsucc, hterm]
      exact ⟨rfl, blockOf_lt hnext⟩

theorem covered_of_completed (h : Verified strings f) {ctx' : Context}
    (hcovered : Covered strings f ctx.pc ctx.pc ctx.log)
    (hinstr : f.instructions[ctx.pc]? = some instr) (hlog : ctx'.log = new ++ ctx.log)
    (hdone : Completed strings f instr new ctx ctx') (hreturned : ctx'.returned = false) :
    if ctx'.pc = ctx.pc then
      ctx.pc + 1 < f.instructions.length → Covered strings f (ctx.pc + 1) (ctx.pc + 1) ctx'.log
      else Covered strings f ctx'.pc ctx'.pc ctx'.log := by
  have hfits := h.fits instr (List.mem_of_getElem? hinstr)
  have hafter := hcovered.after hinstr hdone.wrote hdone.marked
  rw [hlog]
  have hterm : instr.opcode ≠ .returnOp := by
    intro hop
    rw [hdone.returned.mpr (Or.inr hop)] at hreturned
    cases hreturned
  rcases hdone.pc with ⟨hpc, hjump⟩ | ⟨label, hlabel, htarget⟩
  · rw [if_pos hpc]
    intro hnext
    refine hafter.fall hinstr ?_ hnext
    rw [Bool.eq_false_iff]
    intro heffect
    rcases terminator_cases heffect with hop | hop
    · exact hjump hop
    · exact hterm hop
  · rw [runLabels_eq h] at htarget
    -- the branch is not itself the label it lands on
    have hne : ctx'.pc ≠ ctx.pc := by
      intro heq
      obtain ⟨instr', hinstr', heffect⟩ := labelIndex_isLabel htarget
      rw [heq, hinstr] at hinstr'
      cases hinstr'
      unfold IRInstruction.labelTargets at hlabel
      rw [if_pos heffect] at hlabel
      cases hlabel
    rw [if_neg hne]
    exact hafter.jump hinstr hfits hlabel htarget

theorem present_step (hs : Safe strings f ctx) {ctx' : Context} (hlog : ctx'.log = new ++ ctx.log)
    (hregisters : ∀ r, ctx'.registers r ≠ none →
      ctx.registers r ≠ none ∨ .read r ∈ new ∨ .write r ∈ new)
    (hsafe : ∀ event ∈ new, SafeEvent strings f ctx.log event)
    (hr : ctx'.registers r ≠ none) :
    InRange f r ∧ Written f ctx'.log r := by
  rw [hlog]
  have hmono : ∀ event ∈ ctx.log, event ∈ new ++ ctx.log := fun e he => List.mem_append_right _ he
  rcases hregisters r hr with hold | hread | hwrite
  · have hpresent := hs.present r hold
    exact ⟨hpresent.1, hpresent.2.mono hmono⟩
  · have hevent := hsafe _ hread
    exact ⟨hevent.1, hevent.2.mono hmono⟩
  · exact ⟨hsafe _ hwrite, Or.inl (List.mem_append_left _ hwrite)⟩

theorem stepOnce_safe (program : IRProgram) (table : GlobalFunctions) (call : Callee)
    (h : Verified program.strings f) (hs : Safe program.strings f ctx)
    (hrun : ctx.running f = true) :
    SafeLog program.strings f (stepOnce program table call f ctx).2.log ∧
      ((stepOnce program table call f ctx).1 = none →
          Safe program.strings f (stepOnce program table call f ctx).2) := by
  have hpc : ctx.pc < f.instructions.length := by
    unfold Context.running at hrun
    exact of_decide_eq_true (Bool.and_eq_true_iff.mp hrun).1
  have hcovered := hs.covered hrun
  have hinstr := List.getElem?_eq_getElem hpc
  have hfits := h.fits _ (List.mem_of_getElem? hinstr)
  obtain ⟨new, hstep⟩ := executeInstruction_stepped program table call (f := f) hfits ctx
  have hsafe : ∀ event ∈ new, SafeEvent program.strings f ctx.log event := fun event hevent =>
    event_safe h hs hcovered hinstr (hstep.events event hevent)
  have hlog := safeLog_append hs.log new hsafe
  have hpresent := fun r => present_step hs hstep.log hstep.registers hsafe (r := r)
  rw [← hstep.log] at hlog
  unfold stepOnce
  rw [hinstr]
  dsimp only
  cases hout : executeInstruction program table call f f.instructions[ctx.pc] ctx with
  | mk result after =>
    rw [hout] at hstep hlog hpresent
    cases result with
    | error fault => exact ⟨hlog, fun hnone => nomatch hnone⟩
    | ok u =>
      have hdone := hstep.completed rfl
      have hnext := covered_of_completed h hcovered hinstr hstep.log hdone
      dsimp only at hlog hpresent hnext ⊢
      split
      · -- no branch was taken: the loop moves on by one
        rename_i hstay
        rw [Bool.and_eq_true, Bool.not_eq_true', decide_eq_true_eq] at hstay
        have hnext := hnext hstay.1
        rw [if_pos hstay.2] at hnext
        refine ⟨hlog, fun _ => ⟨hlog, hpresent, fun hrunning => ?_⟩⟩
        unfold Context.running at hrunning
        have hlt := of_decide_eq_true (Bool.and_eq_true_iff.mp hrunning).1
        dsimp only at hlt ⊢
        rw [hstay.2] at hlt ⊢
        exact hnext hlt
      · rename_i hmoved
        refine ⟨hlog, fun _ => ⟨hlog, hpresent, fun hrunning => ?_⟩⟩
        unfold Context.running at hrunning
        have hnot : after.returned = false := by
          rw [← Bool.not_eq_true']
          exact (Bool.and_eq_true_iff.mp hrunning).2
        have hne : after.pc ≠ ctx.pc := by
          intro heq
          apply hmoved
          rw [hnot, decide_eq_true heq]
          rfl
        have hnext := hnext hnot
        rw [if_neg hne] at hnext
        exact hnext

theorem runSteps_safe (program : IRProgram) (table : GlobalFunctions) (call : Callee)
    (h : Verified program.strings f) (k : Nat) (hs : Safe program.strings f ctx) :
    SafeLog program.strings f (runSteps program table call f k ctx).2.log := by
  induction k generalizing ctx with
  | zero => exact hs.log
  | succ k ih =>
    unfold runSteps
    split
    · rename_i hrun
      obtain ⟨hlog, hnext⟩ := stepOnce_safe program table call h hs hrun
      cases hout : stepOnce program table call f ctx with
      | mk fault after =>
        rw [hout] at hlog hnext
        cases fault with
        | some fault => exact hlog
        | none => exact ih (hnext rfl)
    · exact hs.log

theorem startContext_safe (h : Verified strings f) (args globals : List Value) :
    Safe strings f (startContext f args globals) where
  log := trivial
  present := fun r hr => by
    unfold startContext at hr
    dsimp only at hr
    have hparam : ¬ (r < 0 ∨ f.parameters.length ≤ r.toNat) := by
      intro hout
      rw [if_pos hout] at hr
      exact hr rfl
    have hcount := h.parameters
    exact ⟨⟨by omega, by omega⟩, Or.inr ⟨by omega, by omega⟩⟩
  covered := fun hrun => by
    unfold Context.running at hrun
    have hpc := of_decide_eq_true (Bool.and_eq_true_iff.mp hrun).1
    exact covered_start hpc []

end Step

/-! ## 6. Soundness -/

/-- Whatever a verified function is called with, whatever its callees do, and however far it has
run: everything it did was safe. -/
theorem irVerify_sound (program : IRProgram) (table : GlobalFunctions) (call : Callee)
    (f : IRFunction) (haccepted : irVerify (some program.strings) f = .ok ())
    (args globals : List Value) (k : Nat) :
    SafeLog program.strings f
      (runSteps program table call f k (startContext f args globals)).2.log := by
  have h := verified_of_irVerify haccepted
  exact runSteps_safe program table call h k (startContext_safe h args globals)

-- the table of a program that calls no global function
def noGlobals : GlobalFunctions where
  str := 0
  toInt := 1
  toFloat := 2
  toBool := 3
  globalFunction _ := .error (.other "unknown global function")
  evalGlobalInt _ _ := .error (.other "unknown global function")
  evalGlobalIntSyscall _ _ := .error (.other "unknown global function")
  evalGlobalFloat _ _ := .error (.other "unknown global function")
  fmod x _ := x

/-- Counts up to its parameter, with a scope in the body of the loop. -/
def countTo : IRFunction where
  name := "count_to"
  parameters := ["n"]
  maxRegisters := 3
  isCoroutine := false
  instructions :=
    [{ opcode := .loadImm, operands := [.reg 1, .imm 0] },
     { opcode := .label, operands := [.label 0] },
     { opcode := .branchGte, operands := [.reg 1, .reg 0, .label 1] },
     { opcode := .scopeMark, operands := [.imm 7] },
     { opcode := .loadImm, operands := [.reg 2, .imm 1] },
     { opcode := .add, operands := [.reg 1, .reg 1, .reg 2], typeHint := Variant.int },
     { opcode := .scopeRelease, operands := [.imm 7] },
     { opcode := .jump, operands := [.label 0] },
     { opcode := .label, operands := [.label 1] },
     { opcode := .move, operands := [.reg 0, .reg 1] },
     { opcode := .returnOp, operands := [] }]

def countProgram : IRProgram where
  functions := [countTo]
  strings := ⟨["loop", "end"], by decide⟩
  stringConstants := []
  globals := []

theorem irVerify_sound_countTo :
    irVerify (some countProgram.strings) countTo = .ok () ∧ SafeLog countProgram.strings countTo
        (runSteps countProgram noGlobals (callAt countProgram noGlobals 256) countTo 100
          (startContext countTo [.int 3] [])).2.log :=
  ⟨rfl, irVerify_sound countProgram noGlobals _ countTo rfl [.int 3] [] 100⟩

-- The run gets to its end, so the log is that of the whole call.
example :
    (runSteps countProgram noGlobals (callAt countProgram noGlobals 256) countTo 100
      (startContext countTo [.int 3] [])).2.returned = true := rfl

end Ir
