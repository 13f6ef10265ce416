import GdscriptCompiler.Ir.Supplied
import GdscriptCompiler.Lib.Pieces

/-! # Meaning — what a pass over the instructions of a function has to keep -/

namespace Optimizer

open Ir Lib

/-! ## 1. From simulations to outcomes -/

variable {f f' : IRFunction} {pieces : List (Piece IRInstruction)} {strings : StringTable}
  {args globals : List Value}

section Outcome

variable {E : Env} {Q : Nat → Frame → Frame → Prop} {Done : Frame → Frame → Prop}
  (hf : Runnable E.program.strings f) (hfits : ∀ instr ∈ f'.instructions, Fits instr)
  (hold : f.instructions = Piece.oldCode pieces) (hnew : f'.instructions = Piece.newCode pieces)
  (hname : f.name = E.name) (hname' : f'.name = f.name) (hparams : f'.parameters = f.parameters)
include hf hfits hold hnew hname hname' hparams

/-- A simulation of the runs that meet a condition, no longer than they are, keeps the outcome of
every call that completes on such a run. -/
theorem outcome_of_restricted {allowed : IRInstruction → Frame → Bool}
    (S : Simulation ((machine E).restrict allowed) (machine E) pieces Q Done True)
    (hall : ∀ n os c, (machine E).Steps f.instructions
        ⟨0, (startContext f args globals).frame, none⟩ n os c → c.result = none →
      ∀ instr, f.instructions[c.pc]? = some instr → allowed instr c.frame = true)
    (hstart : Q 0 (startContext f args globals).frame (startContext f args globals).frame)
    (hdone : ∀ fr fr', Done fr fr' → fr'.globals = fr.globals) {o : Outcome}
    (h : f.outcome E.program E.table E.call args globals = some o) :
    f'.outcome E.program E.table E.call args globals = some o := by
  have hf' : Runnable E.program.strings f' := by
    have hlabels := Piece.labels_eq S.labelled
    rw [← hold, ← hnew] at hlabels
    exact ⟨hfits, hlabels ▸ hf.unique⟩
  have hframe : (startContext f' args globals).frame = (startContext f args globals).frame := by
    unfold startContext
    rw [hparams]
  obtain ⟨n, c, hle, hsteps, hhalted, hresult, hglobals⟩ := (outcome_eq_some_iff hf hname).mp h
  have hsteps := hsteps.restrict hall
  rw [hold] at hsteps hhalted
  obtain ⟨n', c', hsteps', hhalted', hresult', hdone', hle'⟩ := S.completes hstart hsteps hhalted
  refine (outcome_eq_some_iff hf' (hname'.trans hname)).mpr ⟨n', c', (hle' trivial).trans hle, ?_,
    ?_, ?_, ?_⟩
  · rw [hnew, hframe]
    exact hsteps'
  · rw [hnew]
    exact hhalted'
  · rw [hresult, hresult']
  · rw [hglobals, hdone _ _ hdone']

/-- A simulation that runs no longer keeps the outcome of every call that completes. -/
theorem outcome_of_simulation (S : Simulation (machine E) (machine E) pieces Q Done True)
    (hstart : Q 0 (startContext f args globals).frame (startContext f args globals).frame)
    (hdone : ∀ fr fr', Done fr fr' → fr'.globals = fr.globals) {o : Outcome}
    (h : f.outcome E.program E.table E.call args globals = some o) :
    f'.outcome E.program E.table E.call args globals = some o := by
  rw [← Machine.restrict_true (M := machine E)] at S
  exact outcome_of_restricted hf hfits hold hnew hname hname' hparams S (fun _ _ _ _ _ _ _ => rfl) hstart
    hdone h

end Outcome

/-- An invariant that every instruction carries to where it lands holds wherever a call comes to. -/
theorem runSteps_invariant {E : Env} (hf : Runnable E.program.strings f) (hname : f.name = E.name)
    {Inv : Nat → Frame → Prop}
    (hexec : ∀ k instr, f.instructions[k]? = some instr → ∀ fr os fr' flow, Inv k fr →
        execute E instr fr = some (os, fr', flow) →
      LandedAt (machine E).labelOf f.instructions Inv k fr' flow)
    (hstart : Inv 0 (startContext f args globals).frame) {n : Nat} {ctx : Context}
    (hrun : runSteps E.program E.table E.call f n (startContext f args globals) = (none, ctx))
    (hret : ctx.returned = false) :
    Inv ctx.pc ctx.frame := by
  obtain ⟨m, -, hsteps⟩ := steps_of_runSteps hf hname n hrun
  rw [config_of_not_returned hret] at hsteps
  exact hsteps.invariant hexec (fun _ => hstart) rfl

/-! ## 2. Registers an instruction leaves alone -/

section Registers

variable {E : Env} {instr : IRInstruction} {fr fr' : Frame} {os : List Observation}
  {flow : Exit String Value}

theorem execute_move {dst src : Int} (hop : instr.opcode = .move)
    (hops : instr.operands = [.reg dst, .reg src]) :
    execute E instr fr = some ([], (fr.touch [src]).assign dst (fr.value src), .next) := by
  have hsig : instr.signature = [.dst, .src] := signature_of hop
  have hargs : instr.args fr.value = [.hole, .val (fr.value src)] := by
    rw [IRInstruction.args, hops, hsig]
    rfl
  have htouched : instr.touched fr.value = [src] :=
    (touched_eq (by rw [hop]; decide) _).trans ((collectReadRegisters_eq hsig hops).trans rfl)
  have hdst : instr.destinationRegister = dst := destination_first hsig (by rw [hsig]; decide) hops
  unfold execute
  rw [if_neg (by rw [hop]; decide), hop, hargs]
  change some (instr.finish fr _) = _
  unfold IRInstruction.finish
  rw [htouched, hdst]
  rfl

end Registers

/-! ## 3. Runs that read only what is there -/

-- the machine of the old code, which reads no register that is not there
abbrev suppliedMachine (E : Env) : Machine IRInstruction Frame String Observation Value :=
  (machine E).restrict IRInstruction.supplied

theorem labelName_of_opcode {instr : IRInstruction} (h : instr.opcode ≠ .label) :
    instr.labelName strings = none := by
  cases hlabel : instr.labelName strings with
  | none => rfl
  | some name => exact absurd (opcode_of_labelName hlabel) h

/-- Frames that differ in registers of `D` only. -/
structure Agree (D : Int → Prop) (fr g : Frame) : Prop where
  globals : g.globals = fr.globals
  registers : ∀ r, ¬ D r → g.registers r = fr.registers r

variable {r : Int}

section Agree

variable {E : Env} {D : Int → Prop} {fr g : Frame} {instr : IRInstruction}

theorem Agree.refl (D : Int → Prop) (fr : Frame) : Agree D fr fr := ⟨rfl, fun _ _ => rfl⟩

section

variable (h : Agree D fr g)
include h

theorem Agree.assign (r : Int) (v : Value) : Agree D (fr.assign r v) (g.assign r v) where
  globals := h.globals
  registers r' hr' := by
    unfold Frame.assign
    dsimp only
    rw [h.registers r' hr']

theorem Agree.write (globals : List Value) (r : Int) (result : Option Value) :
    Agree D ({ fr with globals := globals }.write r result)
      ({ g with globals := globals }.write r result) := by
  have h' : Agree D { fr with globals := globals } { g with globals := globals } := ⟨rfl, h.registers⟩
  cases result with
  | none => exact h'
  | some v => exact h'.assign r v

theorem Agree.drop (hr : D r) (v : Value) : Agree D (fr.assign r v) g where
  globals := h.globals
  registers r' hr' := by
    have hne : r' ≠ r := by
      rintro rfl
      exact hr' hr
    exact (h.registers r' hr').trans (if_neg hne).symm

theorem Agree.reads (hreads : ∀ r ∈ instr.collectReadRegisters, ¬ D r) :
    ∀ r ∈ instr.collectReadRegisters, g.registers r = fr.registers r :=
  fun r hr => h.registers r (hreads r hr)

theorem execute_agree (hfits : Fits instr) (hsupplied : instr.supplied fr = true)
    (hreads : ∀ r ∈ instr.collectReadRegisters, ¬ D r) {os : List Observation} {fr₁ : Frame}
    {flow : Exit String Value} (hexec : execute E instr fr = some (os, fr₁, flow)) :
    ∃ g₁, execute E instr g = some (os, g₁, flow) ∧ Agree D fr₁ g₁ := by
  have hsame := h.reads hreads
  by_cases hop : instr.opcode = .returnOp
  · obtain ⟨rfl, hfr, rfl⟩ := execute_return hexec hop
    subst hfr
    have hempty : instr.operands.isEmpty = true := by
      unfold execute at hexec
      rw [if_pos hop] at hexec
      split at hexec
      · assumption
      · cases hexec
    have hread : instr.collectReadRegisters = [0] := by
      unfold IRInstruction.collectReadRegisters IRInstruction.isBareReturn
      rw [hop, hempty]
      rfl
    have hreturned : g.returned = fr₁.returned := by
      unfold Frame.returned
      rw [hsame 0 (by rw [hread]; exact List.mem_singleton.mpr rfl)]
    refine ⟨g, ?_, h⟩
    unfold execute
    rw [if_pos hop, if_pos hempty, hreturned]
  · obtain ⟨e, hdenote, hfinish⟩ := execute_finish hexec hop
    rw [finish_supplied hfits hop hsupplied] at hfinish
    cases hfinish
    have hargs : instr.args g.value = instr.args fr.value := by
      refine args_congr hop fun r hr => ?_
      unfold Frame.value
      rw [hsame r hr]
    rw [← hargs, ← h.globals] at hdenote
    exact ⟨_, execute_of_denote hfits hop (supplied_congr hsupplied hsame) hdenote,
      h.write e.globals instr.destinationRegister e.result⟩

end

end Agree

/-! ## 4. Operands that stand for one another -/

/-- Two registers that cannot be told apart by reading them. -/
def Alike (fr : Frame) (r s : Int) : Prop :=
  r = s ∨ ∃ v, fr.registers r = some v ∧ fr.registers s = some v

/-- The operands from the `j`-th on, with registers that are only read replaced by ones alike. -/
inductive Stands (fr : Frame) (signature : List OperandKind) :
    Nat → List IRValue → List IRValue → Prop
  | nil {j : Nat} : Stands fr signature j [] []
  | keep {j : Nat} {operand : IRValue} {rest rest' : List IRValue}
    (h : Stands fr signature (j + 1) rest rest') :
      Stands fr signature j (operand :: rest) (operand :: rest')
  | swap {j : Nat} {r s : Int} {rest rest' : List IRValue} (hdst : kindAt signature j ≠ .dst)
      (hinout : kindAt signature j ≠ .inout) (halike : Alike fr r s)
      (h : Stands fr signature (j + 1) rest rest') :
      Stands fr signature j (.reg r :: rest) (.reg s :: rest')

section Stands

variable {fr : Frame} {signature : List OperandKind} {j : Nat} {operands operands' : List IRValue}

theorem Alike.value_eq {s : Int} (h : Alike fr r s) : fr.value r = fr.value s := by
  obtain rfl | ⟨v, hr, hs⟩ := h
  · rfl
  · unfold Frame.value
    rw [hr, hs]

theorem touch_alike {rs ss : List Int} (h : List.Forall₂ (Alike fr) rs ss) :
    fr.touch rs = fr.touch ss := by
  have hmissing {r : Int} (hr : fr.registers r = none) : r ∈ rs ↔ r ∈ ss := by
    induction h with
    | nil => rfl
    | cons halike _ ih =>
      obtain rfl | ⟨v, hv, hv'⟩ := halike
      · simp [ih]
      · have hne : ∀ {t}, fr.registers t = some v → r ≠ t := by
          rintro t ht rfl
          rw [hr] at ht
          cases ht
        simp [ih, hne hv, hne hv']
  unfold Frame.touch Frame.value
  congr 1
  funext r
  cases hr : fr.registers r with
  | none => simp only [hmissing hr]
  | some v => simp

variable {rest : List IRValue}

theorem Stands.reg_inv (h : Stands fr signature j (.reg r :: rest) operands') :
    ∃ s rest', operands' = .reg s :: rest' ∧ Alike fr r s ∧
      Stands fr signature (j + 1) rest rest' := by
  cases h with
  | keep h => exact ⟨r, _, rfl, .inl rfl, h⟩
  | swap _ _ halike h => exact ⟨_, _, rfl, halike, h⟩

theorem Stands.cons_inv {operand : IRValue}
    (h : Stands fr signature j (operand :: rest) operands') (hreg : ∀ r, operand ≠ .reg r) :
    ∃ rest', operands' = operand :: rest' ∧ Stands fr signature (j + 1) rest rest' := by
  cases h with
  | keep h => exact ⟨_, rfl, h⟩
  | swap => exact absurd rfl (hreg _)

section

variable (h : Stands fr signature j operands operands')
include h

theorem Stands.args_eq :
    argsFrom fr.value signature j operands' = argsFrom fr.value signature j operands := by
  induction h with
  | nil => rfl
  | keep _ ih => rw [argsFrom, argsFrom, ih]
  | swap hdst _ halike _ ih =>
    rw [argsFrom, argsFrom, ih]
    simp [Arg.ofOperand, hdst, halike.value_eq]

theorem Stands.length_eq : operands'.length = operands.length := by
  induction h with
  | nil => rfl
  | keep _ ih => simp [ih]
  | swap _ _ _ _ ih => simp [ih]

theorem Stands.getElem? (k : Nat) :
    operands'[k]? = operands[k]? ∨
      kindAt signature (j + k) ≠ .dst ∧ kindAt signature (j + k) ≠ .inout ∧
        ∃ r s, operands[k]? = some (.reg r) ∧ operands'[k]? = some (.reg s) ∧ Alike fr r s := by
  induction h generalizing k with
  | nil => exact .inl rfl
  | @keep j operand rest rest' _ ih =>
    cases k with
    | zero => exact .inl rfl
    | succ k => simpa [Nat.add_assoc, Nat.add_comm 1] using ih k
  | @swap j r s rest rest' hdst hinout halike _ ih =>
    cases k with
    | zero => exact .inr ⟨hdst, hinout, r, s, rfl, rfl, halike⟩
    | succ k => simpa [Nat.add_assoc, Nat.add_comm 1] using ih k

end

theorem reg_mem_of_registersReadFrom (h : r ∈ registersReadFrom signature j operands) :
    .reg r ∈ operands := by
  obtain ⟨⟨operand, i⟩, hmem, hread⟩ := List.mem_filterMap.mp h
  cases operand with
  | reg s =>
    dsimp only at hread
    split at hread
    · cases hread
      exact List.fst_mem_of_mem_zipIdx hmem
    · cases hread
  | _ => cases hread

theorem Alike.refl (fr : Frame) (r : Int) : Alike fr r r := .inl rfl

theorem Stands.registersRead (h : Stands fr signature j operands operands') :
    List.Forall₂ (Alike fr) (registersReadFrom signature j operands)
      (registersReadFrom signature j operands') := by
  induction h with
  | nil => exact .nil
  | @keep j operand rest rest' _ ih =>
    rw [registersReadFrom_cons, registersReadFrom_cons]
    exact List.rel_append (List.forall₂_same.mpr fun r _ => .refl fr r) ih
  | @swap j r s rest rest' hdst _ halike _ ih =>
    rw [registersReadFrom_cons, registersReadFrom_cons]
    refine List.rel_append ?_ ih
    simpa [hdst] using halike

theorem Stands.argumentRegisters (h : Stands fr signature j operands operands') (count : Int64) :
    List.Forall₂ (Alike fr) (argumentRegisters count operands)
      (argumentRegisters count operands') := by
  unfold Ir.argumentRegisters
  generalize count.toInt32.toInt.toNat = n
  induction h generalizing n with
  | nil => simp
  | @keep j operand rest rest' _ ih =>
    cases n with
    | zero => simp
    | succ n =>
      cases operand with
      | reg r => simpa [List.filterMap_cons] using ⟨.refl fr r, ih n⟩
      | _ => simpa [List.filterMap_cons] using ih n
  | @swap j r s rest rest' _ _ halike _ ih =>
    cases n with
    | zero => simp
    | succ n => simpa [List.filterMap_cons] using ⟨halike, ih n⟩

theorem Stands.of_getElem? (hlen : operands'.length = operands.length)
    (h : ∀ (k : Nat) operand operand', operands[k]? = some operand → operands'[k]? = some operand' →
      operand' = operand ∨ kindAt signature (j + k) ≠ .dst ∧ kindAt signature (j + k) ≠ .inout ∧
        ∃ r s, operand = .reg r ∧ operand' = .reg s ∧ Alike fr r s) :
    Stands fr signature j operands operands' := by
  induction operands generalizing j operands' with
  | nil =>
    rw [List.length_eq_zero_iff.mp hlen]
    exact .nil
  | cons operand rest ih =>
    obtain ⟨operand', rest', rfl⟩ := List.exists_cons_of_length_eq_add_one hlen
    have hrest : Stands fr signature (j + 1) rest rest' := by
      refine ih (Nat.succ.inj hlen) fun k o o' ho ho' => ?_
      have := h (k + 1) o o' ho ho'
      rwa [← Nat.add_assoc, Nat.add_right_comm] at this
    obtain rfl | ⟨hdst, hinout, r, s, rfl, rfl, halike⟩ := h 0 operand operand' rfl rfl
    · exact .keep hrest
    · exact .swap hdst hinout halike hrest

section Execute

variable {E : Env} {instr : IRInstruction}

theorem Stands.destination_eq (h : Stands fr instr.signature 0 instr.operands operands') :
    { instr with operands := operands' }.destinationRegister = instr.destinationRegister := by
  unfold IRInstruction.destinationRegister
  dsimp only
  split
  · rfl
  · rename_i hneg
    obtain ⟨i, hi⟩ := Int.eq_ofNat_of_zero_le (Int.not_lt.mp hneg)
    rw [hi, Int.toNat_natCast]
    rcases h.getElem? i with heq | ⟨hdst, hinout, -⟩
    · rw [heq]
    · rw [Nat.zero_add] at hdst hinout
      exact absurd (destinationOperandIndex_kind hi) (not_or.mpr ⟨hdst, hinout⟩)

variable (hfits : Fits instr)
include hfits

theorem Stands.touched (h : Stands fr instr.signature 0 instr.operands operands') :
    List.Forall₂ (Alike fr) (instr.touched fr.value)
      ({ instr with operands := operands' }.touched fr.value) := by
  by_cases hop : instr.opcode ∈ [.returnOp, .and, .or, .call, .globalCall]
  · simp only [List.mem_cons, List.not_mem_nil, or_false] at hop
    unfold IRInstruction.touched
    rw [← or_assoc (a := instr.opcode = .and)] at hop
    rcases hop with hop | hop | hop | hop
    · rw [hop]
      exact .nil
    · have hsig : instr.signature = [.dst, .src, .src] := hop.elim signature_of signature_of
      obtain ⟨dst, src1, src2, hops⟩ := hfits.dst_src_src hsig
      rw [hops] at h
      obtain ⟨dst', rest1, rfl, -, h1⟩ := h.reg_inv
      obtain ⟨s1, rest2, rfl, halike1, h2⟩ := h1.reg_inv
      obtain ⟨s2, rest3, rfl, halike2, h3⟩ := h2.reg_inv
      cases h3
      -- the second operand is read when the first does not decide
      rcases hop with hop | hop <;> rw [hop, hops] <;> dsimp only <;> rw [halike1.value_eq] <;> split
      · exact .cons halike1 (.cons halike2 .nil)
      · exact .cons halike1 .nil
      · exact .cons halike1 .nil
      · exact .cons halike1 (.cons halike2 .nil)
    · obtain ⟨name, dst, count, rs, hops, -, -⟩ := hfits.call hop
      rw [hops] at h
      obtain ⟨rest1, rfl, h1⟩ := h.cons_inv (by simp)
      obtain ⟨dst', rest2, rfl, -, h2⟩ := h1.reg_inv
      obtain ⟨rest3, rfl, h3⟩ := h2.cons_inv (by simp)
      rw [hop, hops]
      exact h3.argumentRegisters count
    · obtain ⟨dst, fn, flag, count, rs, hops, -, -⟩ := hfits.globalCall hop
      rw [hops] at h
      obtain ⟨dst', rest1, rfl, -, h1⟩ := h.reg_inv
      obtain ⟨rest2, rfl, h2⟩ := h1.cons_inv (by simp)
      obtain ⟨rest3, rfl, h3⟩ := h2.cons_inv (by simp)
      obtain ⟨rest4, rfl, h4⟩ := h3.cons_inv (by simp)
      rw [hop, hops]
      exact h4.argumentRegisters count
  · have htouched (operands : List IRValue) : { instr with operands := operands }.touched fr.value =
        { instr with operands := operands }.collectReadRegisters :=
      touched_eq (show { instr with operands := operands }.opcode ∉ _ from hop) _
    rw [htouched operands', htouched instr.operands]
    have hbare (operands : List IRValue) : { instr with operands := operands }.isBareReturn = false := by
      unfold IRInstruction.isBareReturn
      rw [decide_eq_false fun heq => hop (by rw [heq]; decide)]
      rfl
    rw [collectReadRegisters_from (hbare operands'), collectReadRegisters_from (hbare instr.operands)]
    exact h.registersRead

theorem execute_stands (h : Stands fr instr.signature 0 instr.operands operands') :
    execute E { instr with operands := operands' } fr = execute E instr fr := by
  have hargs : { instr with operands := operands' }.args fr.value = instr.args fr.value := h.args_eq
  have hempty : operands'.isEmpty = instr.operands.isEmpty := by
    rw [Bool.eq_iff_iff, List.isEmpty_iff_length_eq_zero, List.isEmpty_iff_length_eq_zero, h.length_eq]
  have hfinish : { instr with operands := operands' }.finish fr = instr.finish fr := by
    funext e
    unfold IRInstruction.finish
    rw [← touch_alike (h.touched hfits), h.destination_eq]
  unfold execute
  rw [hargs, hfinish]
  dsimp only
  rw [hempty]

end Execute

end Stands

/-! ## 5. Operands of the same kind -/

def SameKind (operand operand' : IRValue) : Prop :=
  operand' = operand ∨ ∃ r s, operand = .reg r ∧ operand' = .reg s

theorem operandMatches_reg (r s : Int) (kind : OperandKind) :
    operandMatches (.reg r) kind = operandMatches (.reg s) kind := by
  cases kind <;> rfl

section SameKind

variable {instr : IRInstruction} {operands : List IRValue}
  (h : List.Forall₂ SameKind instr.operands operands)
include h

theorem sameKind_at (j : Nat) :
    operands[j]? = instr.operands[j]? ∨
      ∃ r s, instr.operands[j]? = some (.reg r) ∧ operands[j]? = some (.reg s) := by
  generalize instr.operands = old at h
  induction h generalizing j with
  | nil => exact .inl rfl
  | @cons operand operand' rest rest' hkind _ ih =>
    cases j with
    | succ j => exact ih j
    | zero =>
      obtain rfl | ⟨r, s, rfl, rfl⟩ := hkind
      · exact .inl rfl
      · exact .inr ⟨r, s, rfl, rfl⟩

theorem checkArgumentCount_rename (i : Nat) :
    checkArgumentCount { instr with operands := operands } i = checkArgumentCount instr i := by
  unfold checkArgumentCount
  dsimp only
  congr 1
  funext j
  rcases sameKind_at h j with heq | ⟨r, s, hr, hs⟩
  · rw [heq, h.length_eq]
    rfl
  · rw [hr, hs]
    rfl

theorem Fits.rename (hfits : Fits instr) : Fits { instr with operands := operands } := by
  have hlen := h.length_eq
  refine ⟨?_, ?_, ?_, ?_⟩
  · exact hlen ▸ hfits.enough
  · exact fun hvar => hlen ▸ hfits.few hvar
  · intro j operand hj
    rcases sameKind_at h j with heq | ⟨r, s, hr, hs⟩
    · exact hfits.kinds j operand (heq ▸ hj)
    · rw [show operand = .reg s from Option.some.inj (hj.symm.trans hs)]
      exact (operandMatches_reg s r _).trans (hfits.kinds j (.reg r) hr)
  · intro i
    rw [checkArgumentCount_rename h]
    exact hfits.counted i

end SameKind

end Optimizer
