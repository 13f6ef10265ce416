import GdscriptCompiler.Ir.Runs

/-!
# Supplied — a verified function called with all its arguments reads only registers that are there

The interpreter reads a register nothing wrote as NIL and creates it; here that never happens.
-/

namespace Ir

open Lib

/-! ## 1. What an instruction does to the registers -/

variable {op : Opcode} {globals : List Value}

section Registers

variable {E : Env} {instr : IRInstruction} {fr fr' : Frame} {os : List Observation}
  {flow : Exit String Value}

theorem execute_finish (h : execute E instr fr = some (os, fr', flow))
    (hop : instr.opcode ≠ .returnOp) :
    ∃ e, denote E fr.globals instr.opcode instr.typeHint (instr.args fr.value) = some e ∧
      instr.finish fr e = (os, fr', flow) := by
  unfold execute at h
  rw [if_neg hop] at h
  exact Option.map_eq_some_iff.mp h

theorem execute_return (h : execute E instr fr = some (os, fr', flow))
    (hop : instr.opcode = .returnOp) :
    os = [] ∧ fr' = fr ∧ flow = .ret fr.returned := by
  unfold execute at h
  rw [if_pos hop] at h
  split at h
  · cases h
    exact ⟨rfl, rfl, rfl⟩
  · cases h

variable {r : Int}

theorem finish_registers (e : Effects) (hr : r ≠ instr.destinationRegister) :
    (instr.finish fr e).2.1.registers r = (fr.touch (instr.touched fr.value)).registers r := by
  unfold IRInstruction.finish Frame.write
  cases e.result with
  | none => rfl
  | some v => exact if_neg hr

theorem touch_present {v : Value} (rs : List Int) (h : fr.registers r = some v) :
    (fr.touch rs).registers r = some v := by
  unfold Frame.touch Frame.value
  dsimp only
  rw [h]
  split <;> rfl

theorem execute_keeps (h : execute E instr fr = some (os, fr', flow)) {v : Value}
    (hr : r ≠ instr.destinationRegister) (hv : fr.registers r = some v) :
    fr'.registers r = some v := by
  by_cases hop : instr.opcode = .returnOp
  · rw [(execute_return h hop).2.1]
    exact hv
  · obtain ⟨e, -, hfinish⟩ := execute_finish h hop
    have hregs : (instr.finish fr e).2.1.registers r = some v :=
      (finish_registers e hr).trans (touch_present _ hv)
    rw [hfinish] at hregs
    exact hregs

-- what does nothing, branches or stores has no destination
theorem destinationRegister_neg
    (h : op ∈ .returnOp :: .storeGlobal :: quietOpcodes ++ branchOpcodes) :
    IRInstruction.destinationOperandIndex op = -1 := by
  revert h
  cases op <;> decide

theorem result_of_destination {hint : TypeHint} {args : List Arg} {e : Effects}
    (h : denote E globals op hint args = some e)
    (hdst : 0 ≤ IRInstruction.destinationOperandIndex op) :
    e.flow = .next ∧ ∃ v, e.result = some v := by
  have hnone (hop : op ∈ .returnOp :: .storeGlobal :: quietOpcodes ++ branchOpcodes) : False := by
    rw [destinationRegister_neg hop] at hdst
    omega
  cases denoted_of_denote h with
  | computes v => exact ⟨rfl, v, rfl⟩
  | calls name args v left => exact ⟨rfl, v, rfl⟩
  | quiet hquiet => exact (hnone (by simp [hquiet])).elim
  | falls hbranch => exact (hnone (by simp [hbranch])).elim
  | goes l hbranch => exact (hnone (by simp [hbranch])).elim
  | stores index v hstore => exact (hnone (by rw [hstore]; decide)).elim

theorem destinationOperandIndex_nonneg (h : 0 ≤ instr.destinationRegister) :
    0 ≤ IRInstruction.destinationOperandIndex instr.opcode := by
  unfold IRInstruction.destinationRegister at h
  dsimp only at h
  split at h
  · omega
  · omega

-- the destination is an operand that is written
theorem destinationOperandIndex_kind {i : Nat} (h : IRInstruction.destinationOperandIndex op = i) :
    kindAt (opcodeInfo op).signature i = .dst ∨ kindAt (opcodeInfo op).signature i = .inout := by
  unfold IRInstruction.destinationOperandIndex at h
  dsimp only at h
  generalize (opcodeInfo op).signature = signature at h
  cases hfind : (signature.take (fixedCount signature)).findIdx? fun k => k = .dst ∨ k = .inout with
  | none =>
    rw [hfind] at h
    dsimp only at h
    omega
  | some i' =>
    rw [hfind] at h
    obtain rfl : i' = i := Int.ofNat_inj.mp h
    obtain ⟨hlt, hkind, -⟩ := List.findIdx?_eq_some_iff_getElem.mp hfind
    rw [List.length_take] at hlt
    rw [List.getElem_take] at hkind
    unfold kindAt
    rw [if_pos (by omega), List.getD_eq_getElem?_getD, List.getElem?_eq_getElem (by omega)]
    exact of_decide_eq_true hkind

theorem execute_defines (h : execute E instr fr = some (os, fr', flow))
    (hdst : 0 ≤ instr.destinationRegister) :
    fr'.registers instr.destinationRegister ≠ none := by
  have hindex := destinationOperandIndex_nonneg hdst
  by_cases hop : instr.opcode = .returnOp
  · rw [hop, destinationRegister_neg (by decide)] at hindex
    omega
  · obtain ⟨e, hdenote, hfinish⟩ := execute_finish h hop
    obtain ⟨-, v, hv⟩ := result_of_destination hdenote hindex
    have hregs : (instr.finish fr e).2.1.registers instr.destinationRegister = some v := by
      unfold IRInstruction.finish
      rw [hv]
      exact if_pos rfl
    rw [hfinish] at hregs
    rw [hregs]
    exact Option.some_ne_none v

theorem execute_present (h : execute E instr fr = some (os, fr', flow)) (hr : 0 ≤ r)
    (hv : fr.registers r ≠ none) :
    fr'.registers r ≠ none := by
  obtain ⟨v, hv⟩ := Option.ne_none_iff_exists'.mp hv
  by_cases heq : r = instr.destinationRegister
  · subst heq
    exact execute_defines h hr
  · rw [execute_keeps h heq hv]
    exact Option.some_ne_none v

end Registers

/-! ## 2. Written registers are there -/

def Supplied (f : IRFunction) (ctx : Context) : Prop :=
  ∀ r, 0 ≤ r → Written f ctx.log r → ctx.registers r ≠ none

section Supplied

variable {E : Env} {f : IRFunction} {ctx after : Context} {args : List Value}

theorem startContext_supplied (hargs : f.parameters.length ≤ args.length) :
    Supplied f (startContext f args globals) := by
  intro r hr hwritten
  obtain hlog | ⟨-, hlt⟩ := hwritten
  · cases hlog
  · unfold startContext
    dsimp only
    rw [if_neg (by omega), List.getElem?_eq_getElem (by omega)]
    exact Option.some_ne_none _

theorem stepOnce_supplied (h : Verified E.program.strings f) (hname : f.name = E.name)
    (hs : Supplied f ctx) (hrun : ctx.running f = true)
    (hstep : stepOnce E.program E.table E.call f ctx = (none, after)) :
    Supplied f after := by
  obtain ⟨-, instr, hinstr⟩ := running_iff.mp hrun
  have hfits := h.fits instr (List.mem_of_getElem? hinstr)
  have hran := executeInstruction_ran E hfits hname ctx
  obtain ⟨new, hstepped⟩ := executeInstruction_stepped E.program E.table E.call (f := f) hfits ctx
  unfold stepOnce at hstep
  rw [hinstr] at hstep
  dsimp only at hstep
  -- what was written before is still there, and so is the destination
  have hgoal {fr : Frame} {os : List Observation} {flow : Exit String Value} {log : List Event}
      (hexec : execute E instr ctx.frame = some (os, fr, flow)) (hlog : log = new ++ ctx.log) {r : Int}
      (hr : 0 ≤ r) (hwritten : Written f log r) : fr.registers r ≠ none := by
    rw [hlog] at hwritten
    obtain hwrite | hparam := hwritten
    · rcases List.mem_append.mp hwrite with hnew | hold
      · have hdst : r = instr.destinationRegister := (hstepped.events _ hnew).2
        rw [hdst] at hr ⊢
        exact execute_defines hexec hr
      · exact execute_present hexec hr (hs r hr (.inl hold))
    · exact execute_present hexec hr (hs r hr (.inr hparam))
  have hlog := hstepped.log
  generalize executeInstruction E.program E.table E.call f instr ctx = out at hran hstep hlog
  generalize hexec : execute E instr ctx.frame = machineOut at hran
  cases hran with
  | fault => cases hstep
  | lost => cases hstep
  | next fr log =>
    dsimp only at hstep
    split at hstep <;> cases hstep <;> exact fun r hr => hgoal hexec hlog hr
  | goto fr log =>
    dsimp only at hstep
    split at hstep <;> cases hstep <;> exact fun r hr => hgoal hexec hlog hr
  | ret fr log v =>
    cases hstep
    exact fun r hr => hgoal hexec hlog hr

variable {os : List Observation} {c : Config Frame Value}

theorem context_of_steps (haccepted : irVerify (some E.program.strings) f = .ok ())
    (hname : f.name = E.name) {n : Nat}
    (hsteps : (machine E).Steps f.instructions ctx.config n os c)
    (hsafe : Safe E.program.strings f ctx) (hs : Supplied f ctx) :
    ∃ ctx', ctx'.config = c ∧ Safe E.program.strings f ctx' ∧ Supplied f ctx' := by
  have h := verified_of_irVerify haccepted
  generalize hc : ctx.config = c₀ at hsteps
  induction hsteps generalizing ctx with
  | refl => exact ⟨ctx, hc, hsafe, hs⟩
  | @head c₀ c₁ c os os' n hstep _ ih =>
    subst hc
    by_cases hrun : ctx.running f = true
    · obtain ⟨hret, instr, hinstr⟩ := running_iff.mp hrun
      rcases stepOnce_eq (runnable_of_irVerify haccepted) hname hinstr hret with
        ⟨fault, after, -, hnone⟩ | ⟨after, hafter, hsome⟩
      · rw [hnone] at hstep
        cases hstep
      · rw [hsome] at hstep
        cases hstep
        have hnext := (stepOnce_safe E.program E.table E.call h hsafe hrun).2
        rw [hafter] at hnext
        exact ih (hnext rfl) (stepOnce_supplied h hname hs hrun hafter) rfl
    · rw [Machine.step_of_halted (halted_config.mpr (Bool.eq_false_iff.mpr hrun))] at hstep
      cases hstep

-- a bare RETURN looks at r0 only if it is there
def IRInstruction.supplied (instr : IRInstruction) (fr : Frame) : Bool :=
  instr.isBareReturn || instr.collectReadRegisters.all fun r => (fr.registers r).isSome

theorem supplied_of_steps (haccepted : irVerify (some E.program.strings) f = .ok ())
    (hname : f.name = E.name) (hargs : f.parameters.length ≤ args.length) {n : Nat}
    (hsteps :
      (machine E).Steps f.instructions ⟨0, (startContext f args globals).frame, none⟩ n os c)
    (hresult : c.result = none) {instr : IRInstruction} (hinstr : f.instructions[c.pc]? = some instr) :
    instr.supplied c.frame = true := by
  have h := verified_of_irVerify haccepted
  obtain ⟨ctx, rfl, hsafe, hs⟩ := context_of_steps haccepted hname
    (show (machine E).Steps f.instructions (startContext f args globals).config n os c from hsteps)
    (startContext_safe h args globals) (startContext_supplied hargs)
  have hret : ctx.returned = false := by
    unfold Context.config at hresult
    split at hresult
    · cases hresult
    · exact Bool.eq_false_iff.mpr (by assumption)
  rw [config_of_not_returned hret] at hinstr ⊢
  have hcovered := hsafe.covered (running_iff.mpr ⟨hret, instr, hinstr⟩)
  unfold IRInstruction.supplied
  cases hbare : instr.isBareReturn with
  | true => rfl
  | false =>
    refine List.all_eq_true.mpr fun r hr => ?_
    have hread := read_safe h hsafe hcovered hinstr hr (by rw [hbare]; nofun)
    exact Option.isSome_iff_ne_none.mpr (hs r hread.1.1 hread.2)

end Supplied

/-! ## 3. Instructions without side effects -/

section Pure

variable {E : Env} {instr : IRInstruction} {fr fr' : Frame} {os : List Observation}
  {flow : Exit String Value} {value value' : Int → Value}

theorem argsFrom_congr {signature : List OperandKind} {j : Nat} {operands : List IRValue}
    (h : ∀ r ∈ registersReadFrom signature j operands, value' r = value r) :
    argsFrom value' signature j operands = argsFrom value signature j operands := by
  induction operands generalizing j with
  | nil => rfl
  | cons operand rest ih =>
    rw [registersReadFrom_cons] at h
    rw [argsFrom, argsFrom, ih fun r hr => h r (List.mem_append_right _ hr)]
    cases operand with
    | reg r =>
      by_cases hkind : kindAt signature j = .dst
      · simp [Arg.ofOperand, hkind]
      · simp [Arg.ofOperand, hkind, h r (by simp [hkind])]
    | _ => rfl

theorem not_isBareReturn (h : instr.opcode ≠ .returnOp) : instr.isBareReturn = false := by
  unfold IRInstruction.isBareReturn
  rw [decide_eq_false h]
  rfl

theorem args_congr (hop : instr.opcode ≠ .returnOp)
    (h : ∀ r ∈ instr.collectReadRegisters, value' r = value r) :
    instr.args value' = instr.args value := by
  rw [collectReadRegisters_from (not_isBareReturn hop)] at h
  exact argsFrom_congr h

theorem touch_of_all_present {rs : List Int} (h : ∀ r ∈ rs, fr.registers r ≠ none) :
    fr.touch rs = fr := by
  unfold Frame.touch Frame.value
  congr 1
  funext r
  split
  · rename_i hr
    obtain ⟨v, hv⟩ := Option.ne_none_iff_exists'.mp (h r hr)
    rw [hv]
    rfl
  · rfl

theorem present_of_supplied (hop : instr.opcode ≠ .returnOp) (h : instr.supplied fr = true) :
    ∀ r ∈ instr.collectReadRegisters, fr.registers r ≠ none := by
  unfold IRInstruction.supplied at h
  rw [not_isBareReturn hop, Bool.false_or, List.all_eq_true] at h
  exact fun r hr => Option.isSome_iff_ne_none.mp (h r hr)

theorem finish_supplied (hfits : Fits instr) (hop : instr.opcode ≠ .returnOp)
    (hsupplied : instr.supplied fr = true) (e : Effects) :
    instr.finish fr e =
      (e.observed, { fr with globals := e.globals }.write instr.destinationRegister e.result,
          e.flow) := by
  unfold IRInstruction.finish
  rw [touch_of_all_present fun r hr => present_of_supplied hop hsupplied r (touched_subset hfits _ hr)]

theorem execute_of_denote (hfits : Fits instr) (hop : instr.opcode ≠ .returnOp)
    (hsupplied : instr.supplied fr = true) {e : Effects}
    (h : denote E fr.globals instr.opcode instr.typeHint (instr.args fr.value) = some e) :
    execute E instr fr =
      some (e.observed, { fr with globals := e.globals }.write instr.destinationRegister e.result,
          e.flow) := by
  unfold execute
  rw [if_neg hop, h, Option.map_some, finish_supplied hfits hop hsupplied]

theorem supplied_congr {g : Frame} (h : instr.supplied fr = true)
    (hsame : ∀ r ∈ instr.collectReadRegisters, g.registers r = fr.registers r) :
    instr.supplied g = true := by
  unfold IRInstruction.supplied at h ⊢
  rw [Bool.or_eq_true, List.all_eq_true] at h ⊢
  exact h.imp_right fun h r hr => hsame r hr ▸ h r hr

-- the opcodes with no result of their own have side effects
theorem computes_of_isPure (h : isPure op = true) :
    op ≠ .returnOp ∧ op ≠ .storeGlobal ∧ op ≠ .call ∧ op ∉ quietOpcodes ∧ op ∉ branchOpcodes := by
  revert h
  cases op <;> decide

/-- An instruction without side effects is a function of the globals and of the registers it reads.
-/
theorem execute_pure (hfits : Fits instr) (hpure : isPure instr.opcode = true)
    (hsupplied : instr.supplied fr = true) (h : execute E instr fr = some (os, fr', flow)) :
    os = [] ∧ flow = .next ∧ ∃ v, fr' = fr.assign instr.destinationRegister v ∧
      ∀ g : Frame, g.globals = fr.globals →
        (∀ r ∈ instr.collectReadRegisters, g.registers r = fr.registers r) →
        execute E instr g = some ([], g.assign instr.destinationRegister v, .next) := by
  obtain ⟨hret, hstore, hcall, hquiet, hbranch⟩ := computes_of_isPure hpure
  obtain ⟨e, hdenote, hfinish⟩ := execute_finish h hret
  rw [finish_supplied hfits hret hsupplied] at hfinish
  cases denoted_of_denote hdenote with
  | quiet hop => exact absurd hop hquiet
  | falls hop => exact absurd hop hbranch
  | goes l hop => exact absurd hop hbranch
  | stores index v hop => exact absurd hop hstore
  | calls name args v left hop => exact absurd hop hcall
  | computes v =>
    cases hfinish
    refine ⟨rfl, rfl, v, rfl, fun g hglobals hsame => ?_⟩
    have hargs : instr.args g.value = instr.args fr.value := by
      refine args_congr hret fun r hr => ?_
      unfold Frame.value
      rw [hsame r hr]
    rw [← hargs, ← hglobals] at hdenote
    exact execute_of_denote hfits hret (supplied_congr hsupplied hsame) hdenote

end Pure

end Ir
