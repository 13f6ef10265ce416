import GdscriptCompiler.Ir.VerifierSound

/-! # Runs — a run of the interpreter is a run of the machine -/

namespace Ir

open Lib

/-! ## 1. Outcomes -/

/-- The effects of an instruction that outlive the registers. -/
def IRInstruction.observed (strings : StringTable) (instr : IRInstruction) (value : Int → Value) :
    List Observation :=
  match instr.opcode, instr.operands with
  | .storeGlobal, [.imm index, .reg src] => [.store index (value src)]
  | .call, .str id :: _ :: .imm count :: rest =>
    [.call (strings.nameOf id) ((argumentRegisters count rest).map value)]
  | _, _ => []

structure Outcome where
  result : Value
  globals : List Value
  trace : List Observation

section Outcomes

variable (program : IRProgram) (table : GlobalFunctions) (call : Callee) (f : IRFunction)

/-- The stores and calls of at most `k` turns of the loop. -/
def runTrace : Nat → Context → List Observation
  | 0, _ => []
  | k + 1, ctx =>
    if ctx.running f then
      match f.instructions[ctx.pc]?, stepOnce program table call f ctx with
      | some instr, (none, after) =>
        instr.observed program.strings ctx.frame.value ++ runTrace k after
      | _, _ => []
    else []

/-- A call of `f`, unless it throws. -/
def IRFunction.outcome (args globals : List Value) : Option Outcome :=
  let ctx := startContext f args globals
  match executeFunction program table call f ctx with
  | (none, after) => some {
      result := if after.returned then after.returnValue else .nil
      globals := after.globals
      trace := runTrace program table call f maxSteps ctx }
  | (some _, _) => none

end Outcomes

/-! ## 2. Functions that can be run by label -/

structure Runnable (strings : StringTable) (f : IRFunction) : Prop where
  fits : ∀ instr ∈ f.instructions, Fits instr
  unique : (f.instructions.filterMap (IRInstruction.labelName strings)).Nodup

section Labels

variable {strings : StringTable} {f : IRFunction} {name : String}

theorem Runnable.label_index (h : Runnable strings f) {i j : Nat} {a b : IRInstruction}
    (hi : f.instructions[i]? = some a) (hj : f.instructions[j]? = some b)
    (ha : a.labelName strings = some name) (hb : b.labelName strings = some name) :
    i = j := by
  have hpair := (List.pairwise_filterMap.mp h.unique)
  rw [List.pairwise_iff_getElem] at hpair
  obtain ⟨hi', rfl⟩ := List.getElem?_eq_some_iff.mp hi
  obtain ⟨hj', rfl⟩ := List.getElem?_eq_some_iff.mp hj
  rcases Nat.lt_trichotomy i j with hlt | heq | hgt
  · exact absurd rfl (hpair i j hi' hj' hlt name ha name hb)
  · exact heq
  · exact absurd rfl (hpair j i hj' hi' hgt name hb name ha)

variable {instr : IRInstruction}

theorem opcode_of_labelName (h : instr.labelName strings = some name) : instr.opcode = .label := by
  unfold IRInstruction.labelName at h
  split at h
  · assumption
  · cases h

theorem runLabels_find (name : String) :
    f.runLabels strings name = (f.instructions.zipIdx.reverse.find? fun p =>
      decide (p.1.labelName strings = some name)).map Prod.snd := by
  unfold IRFunction.runLabels
  congr 1
  apply List.find?_congr
  rintro ⟨instr, i⟩ -
  unfold IRInstruction.labelName
  dsimp only
  generalize instr.operands = operands
  cases instr.opcode
  case label => rcases operands with _ | ⟨_ | _ | _ | _ | _ | _, _⟩ <;> simp
  all_goals rfl

theorem runLabels_at {t : Nat} (h : f.runLabels strings name = some t) :
    ∃ instr, f.instructions[t]? = some instr ∧ instr.labelName strings = some name := by
  rw [runLabels_find] at h
  obtain ⟨⟨instr, i⟩, hfind, rfl⟩ := Option.map_eq_some_iff.mp h
  have hmem := List.mem_reverse.mp (List.mem_of_find?_eq_some hfind)
  have hlabel := List.find?_some hfind
  exact ⟨instr, List.mem_zipIdx_iff_getElem?.mp hmem, of_decide_eq_true hlabel⟩

theorem runLabels_none (h : f.runLabels strings name = none) (instr : IRInstruction)
    (hmem : instr ∈ f.instructions) :
    instr.labelName strings ≠ some name := by
  rw [runLabels_find] at h
  obtain ⟨i, hi⟩ := List.mem_iff_getElem?.mp hmem
  have hnone := List.find?_eq_none.mp (Option.map_eq_none_iff.mp h) (instr, i)
    (List.mem_reverse.mpr (List.mem_zipIdx_iff_getElem?.mpr hi))
  exact fun hlabel => hnone (decide_eq_true hlabel)

theorem Runnable.runLabels_eq_some_iff (h : Runnable strings f) {t : Nat} :
    f.runLabels strings name = some t ↔
      ∃ instr, f.instructions[t]? = some instr ∧ instr.labelName strings = some name := by
  refine ⟨runLabels_at, fun ⟨instr, hinstr, hlabel⟩ => ?_⟩
  cases hfind : f.runLabels strings name with
  | none => exact absurd hlabel (runLabels_none hfind instr (List.mem_of_getElem? hinstr))
  | some t' =>
    obtain ⟨instr', hinstr', hlabel'⟩ := runLabels_at hfind
    rw [h.label_index hinstr' hinstr hlabel' hlabel]

theorem definesLabel_eq (hfits : Fits instr) :
    instr.definesLabel (some strings) = instr.labelName strings := by
  unfold IRInstruction.definesLabel IRInstruction.labelName
  by_cases hop : instr.opcode = .label
  · obtain ⟨id, hops⟩ := hfits.lbl (signature_of hop)
    rw [if_pos (hasEffect_label_iff.mpr hop), hop, hops]
    simp [IRValue.nameOf, IRValue.stringId]
  · rw [if_neg fun heff => hop (hasEffect_label_iff.mp heff)]
    split
    · exact absurd (by assumption) hop
    · rfl

theorem Runnable.runLabels_eq_target {E : Env} (h : Runnable E.program.strings f) (name : String) :
    f.runLabels E.program.strings name = (machine E).target f.instructions name := by
  cases hrun : f.runLabels E.program.strings name with
  | none =>
    refine (List.findIdx?_eq_none_iff.mpr fun instr hmem => ?_).symm
    exact decide_eq_false (runLabels_none hrun instr hmem)
  | some t =>
    obtain ⟨instr, hinstr, hlabel⟩ := runLabels_at hrun
    cases htarget : (machine E).target f.instructions name with
    | none =>
      have hnone := List.findIdx?_eq_none_iff.mp htarget instr (List.mem_of_getElem? hinstr)
      exact absurd hlabel (of_decide_eq_false hnone)
    | some t' =>
      obtain ⟨hlt, hat, -⟩ := List.findIdx?_eq_some_iff_getElem.mp htarget
      rw [h.label_index hinstr (List.getElem?_eq_getElem hlt) hlabel (of_decide_eq_true hat)]

theorem runnable_of_irVerify (h : irVerify (some strings) f = .ok ()) : Runnable strings f := by
  have hfits := (verified_of_irVerify h).fits
  refine ⟨hfits, ?_⟩
  unfold irVerify at h
  rw [seq_eq_ok, seq_eq_ok, seq_eq_ok] at h
  obtain ⟨-, -, hlabels, -⟩ := h
  unfold checkLabels at hlabels
  rw [seq_eq_ok, forInstructions_eq_ok] at hlabels
  rw [List.nodup_iff_pairwise_ne, List.pairwise_filterMap, List.pairwise_iff_getElem]
  rintro i j hi hj hlt name hname _ hname' rfl
  have hcheck := hlabels.1 j _ (List.getElem?_eq_getElem hj)
  rw [definesLabel_eq (hfits _ (List.getElem_mem hj)), hname'] at hcheck
  refine absurd ?_ (failIf_eq_ok.mp hcheck)
  refine List.any_eq_true.mpr ⟨f.instructions[i], ?_, ?_⟩
  · exact List.mem_iff_getElem.mpr ⟨i, by rw [List.length_take]; omega, List.getElem_take⟩
  · rw [definesLabel_eq (hfits _ (List.getElem_mem hi)), hname]
    exact decide_eq_true rfl

end Labels

/-! ## 3. Steps -/

section Steps

variable {E : Env} {f : IRFunction} {instr : IRInstruction}

theorem argumentValues_eq {count : Int64} {rs : List Int} {value : Int → Value} {vs : List Value}
    (h : argumentValues count (rs.map fun r => .val (value r)) = some vs) :
    vs = (argumentRegisters count (rs.map .reg)).map value := by
  unfold argumentValues at h
  dsimp only at h
  split at h
  · cases h
  · rw [← List.map_take, ← Function.comp_def Arg.val value, ← List.map_map, mapM_value?] at h
    rw [argumentRegisters_map, Option.some.inj h]

variable {os : List Observation}

theorem observed_of_execute (hfits : Fits instr) {fr fr' : Frame}
    {flow : Exit String Value} (h : execute E instr fr = some (os, fr', flow)) :
    os = instr.observed E.program.strings fr.value := by
  unfold execute at h
  unfold IRInstruction.observed
  by_cases hret : instr.opcode = .returnOp
  · rw [if_pos hret] at h
    split at h
    · cases h
      rw [hret]
    · cases h
  rw [if_neg hret] at h
  obtain ⟨e, hdenote, heq⟩ := Option.map_eq_some_iff.mp h
  cases heq
  by_cases hstore : instr.opcode = .storeGlobal
  · have hsig : instr.signature = [.imm, .src] := signature_of hstore
    obtain ⟨index, src, hops⟩ := hfits.imm_src hsig
    rw [IRInstruction.args, hsig, hops, hstore] at hdenote
    change denoteStore fr.globals [.imm index, .val (fr.value src)] = some e at hdenote
    unfold denoteStore at hdenote
    rw [hstore, hops]
    dsimp only at hdenote ⊢
    split at hdenote
    · cases hdenote
    · cases hdenote
      rfl
  by_cases hcall : instr.opcode = .call
  · obtain ⟨name, dst, count, rs, hops, -, -, -, hargs⟩ := hfits.call hcall
    rw [hargs, hcall] at hdenote
    change denoteCall E fr.globals
      (.str name :: .hole :: .imm count :: rs.map fun r => .val (fr.value r)) = some e at hdenote
    unfold denoteCall at hdenote
    obtain ⟨vs, hvs, hdenote⟩ := Option.bind_eq_some_iff.mp hdenote
    rw [hcall, hops]
    dsimp only at hdenote ⊢
    rw [← argumentValues_eq hvs]
    split at hdenote
    · cases hdenote
    · split at hdenote
      · cases hdenote
        rfl
      · cases hdenote
  · have hnone : e.observed = [] := by
      cases denoted_of_denote hdenote with
      | computes v hop => rfl
      | quiet hop => rfl
      | falls hop => rfl
      | goes l hop => rfl
      | stores index v hop => exact absurd hop hstore
      | calls name args v left hop => exact absurd hop hcall
    rw [hnone]
    split
    · exact absurd (by assumption) hstore
    · exact absurd (by assumption) hcall
    · rfl

def Context.config (ctx : Context) : Config Frame Value :=
  if ctx.returned then ⟨0, ctx.frame, some ctx.returnValue⟩ else ⟨ctx.pc, ctx.frame, none⟩

variable {ctx : Context}

theorem config_of_not_returned (h : ctx.returned = false) :
    ctx.config = ⟨ctx.pc, ctx.frame, none⟩ := by
  unfold Context.config
  rw [h]
  rfl

theorem not_label_of_goto {fr fr' : Frame} {l : String}
    (h : execute E instr fr = some (os, fr', .goto l)) (strings : StringTable) :
    instr.labelName strings = none := by
  have hop : instr.opcode ≠ .label := by
    intro hop
    unfold execute at h
    rw [if_neg (by rw [hop]; decide)] at h
    obtain ⟨e, hdenote, heq⟩ := Option.map_eq_some_iff.mp h
    have hflow : e.flow = .goto l := congrArg (fun r => r.2.2) heq
    cases denoted_of_denote hdenote with
    | goes l' hbranch => rw [hop] at hbranch; revert hbranch; decide
    | _ => cases hflow
  unfold IRInstruction.labelName
  split
  · exact absurd (by assumption) hop
  · rfl

theorem stepOnce_eq (h : Runnable E.program.strings f) (hname : f.name = E.name)
    (hinstr : f.instructions[ctx.pc]? = some instr) (hret : ctx.returned = false) :
    (∃ fault after, stepOnce E.program E.table E.call f ctx = (some fault, after) ∧
        (machine E).step f.instructions ctx.config = none) ∨
      ∃ after, stepOnce E.program E.table E.call f ctx = (none, after) ∧
        (machine E).step f.instructions ctx.config =
          some (instr.observed E.program.strings ctx.frame.value, after.config) := by
  have hfits := h.fits instr (List.mem_of_getElem? hinstr)
  have hstep := Machine.step_at (M := machine E) hinstr ctx.frame
  have hran := executeInstruction_ran E hfits hname ctx
  rw [config_of_not_returned hret, hstep]
  unfold stepOnce
  rw [hinstr]
  dsimp only
  rw [show (machine E).exec instr ctx.frame = execute E instr ctx.frame from rfl]
  generalize executeInstruction E.program E.table E.call f instr ctx = out at hran ⊢
  generalize hexec : execute E instr ctx.frame = machineOut at hran ⊢
  cases hran with
  | fault => exact .inl ⟨_, _, rfl, rfl⟩
  | lost hlost =>
    refine .inl ⟨_, _, rfl, ?_⟩
    rw [h.runLabels_eq_target] at hlost
    simp [Machine.lands, hlost]
  | next fr log =>
    refine .inr ⟨{ ctx.withFrame fr log with pc := ctx.pc + 1 }, ?_, ?_⟩
    · change (if (!ctx.returned && decide (ctx.pc = ctx.pc)) = true then _ else _) = _
      rw [hret, if_pos (by simp)]
      rfl
    · rw [observed_of_execute hfits hexec]
      simp [Machine.lands, Context.config, Context.withFrame, hret, Context.frame]
  | @goto os l t fr log hgoto =>
    -- the place of the label is not the branch's own
    have hne : t ≠ ctx.pc := by
      rintro rfl
      obtain ⟨instr', hinstr', hlabel⟩ := runLabels_at hgoto
      rw [hinstr] at hinstr'
      cases hinstr'
      rw [not_label_of_goto hexec] at hlabel
      cases hlabel
    refine .inr ⟨{ ctx.withFrame fr log with pc := t }, ?_, ?_⟩
    · change (if (!ctx.returned && decide (t = ctx.pc)) = true then _ else _) = _
      rw [if_neg (by simp [hne])]
    · rw [observed_of_execute hfits hexec]
      rw [h.runLabels_eq_target] at hgoto
      simp [Machine.lands, hgoto, Context.config, Context.withFrame, hret, Context.frame]
  | ret fr log v =>
    refine .inr ⟨{ ctx.withFrame fr log with returned := true, returnValue := v }, rfl, ?_⟩
    rw [observed_of_execute hfits hexec]
    rfl

/-! ## 4. Runs -/

theorem halted_config : Machine.Halted f.instructions ctx.config ↔ ctx.running f = false := by
  unfold Machine.Halted Context.config Context.running
  cases ctx.returned with
  | false => simp
  | true => simp

theorem running_iff :
    ctx.running f = true ↔ ctx.returned = false ∧
      ∃ instr, f.instructions[ctx.pc]? = some instr := by
  unfold Context.running
  rw [Bool.and_eq_true, Bool.not_eq_true', decide_eq_true_eq, and_comm]
  refine and_congr_right fun _ => ⟨fun hlt => ⟨_, List.getElem?_eq_getElem hlt⟩, ?_⟩
  rintro ⟨instr, hinstr⟩
  exact (List.getElem?_eq_some_iff.mp hinstr).1

section

variable (h : Runnable E.program.strings f) (hname : f.name = E.name)
include h hname

theorem steps_of_runSteps (k : Nat) {after : Context}
    (hrun : runSteps E.program E.table E.call f k ctx = (none, after)) :
    ∃ n, n ≤ k ∧ (machine E).Steps f.instructions ctx.config n
      (runTrace E.program E.table E.call f k ctx) after.config := by
  induction k generalizing ctx with
  | zero =>
    cases hrun
    exact ⟨0, Nat.le_refl _, .refl _⟩
  | succ k ih =>
    rw [runSteps] at hrun
    rw [runTrace]
    by_cases hrunning : ctx.running f = true
    · rw [if_pos hrunning] at hrun ⊢
      obtain ⟨hret, instr, hinstr⟩ := running_iff.mp hrunning
      rcases stepOnce_eq h hname hinstr hret with ⟨fault, next, hstep, -⟩ | ⟨next, hstep, hmachine⟩
      · rw [hstep] at hrun
        cases hrun
      · rw [hstep] at hrun
        rw [hstep, hinstr]
        obtain ⟨n, hle, hsteps⟩ := ih hrun
        exact ⟨n + 1, Nat.succ_le_succ hle, .head hmachine hsteps⟩
    · rw [if_neg hrunning] at hrun ⊢
      cases hrun
      exact ⟨0, Nat.zero_le _, .refl _⟩

theorem runSteps_of_steps {n k : Nat} {c : Config Frame Value}
    (hsteps : (machine E).Steps f.instructions ctx.config n os c)
    (hhalted : Machine.Halted f.instructions c) (hle : n ≤ k) :
    ∃ after, runSteps E.program E.table E.call f k ctx = (none, after) ∧ after.config = c ∧
      runTrace E.program E.table E.call f k ctx = os := by
  induction n generalizing k ctx os with
  | zero =>
    cases hsteps
    have hstopped := halted_config.mp hhalted
    cases k with
    | zero => exact ⟨ctx, rfl, rfl, rfl⟩
    | succ k =>
      rw [runSteps, runTrace, hstopped]
      exact ⟨ctx, rfl, rfl, rfl⟩
  | succ n ih =>
    cases hsteps with
    | head hmachine hrest =>
      cases k with
      | zero => omega
      | succ k =>
        by_cases hrunning : ctx.running f = true
        · obtain ⟨hret, instr, hinstr⟩ := running_iff.mp hrunning
          rcases stepOnce_eq h hname hinstr hret with ⟨fault, next, -, hnone⟩ | ⟨next, hstep, hsome⟩
          · rw [hnone] at hmachine
            cases hmachine
          · rw [hsome] at hmachine
            cases hmachine
            obtain ⟨after, hrun, hafter, htrace⟩ := ih hrest (Nat.le_of_succ_le_succ hle)
            rw [runSteps, runTrace, if_pos hrunning, if_pos hrunning, hstep, hinstr]
            exact ⟨after, hrun, hafter, congrArg (_ ++ ·) htrace⟩
        · rw [Machine.step_of_halted (halted_config.mpr (Bool.eq_false_iff.mpr hrunning))] at hmachine
          cases hmachine

/-- A completed call is a halting run of the machine within the step limit. -/
theorem outcome_eq_some_iff {args globals : List Value} {o : Outcome} :
    f.outcome E.program E.table E.call args globals = some o ↔ ∃ n c, n ≤ maxSteps ∧
      (machine E).Steps f.instructions ⟨0, (startContext f args globals).frame, none⟩ n o.trace c ∧
      Machine.Halted f.instructions c ∧ o.result = c.result.getD .nil ∧
        o.globals = c.frame.globals := by
  have hstart : (⟨0, (startContext f args globals).frame, none⟩ : Config Frame Value) =
      (startContext f args globals).config := rfl
  have hresult (ctx : Context) : (if ctx.returned then ctx.returnValue else .nil) =
    ctx.config.result.getD .nil := by
    unfold Context.config
    split <;> rfl
  have hglobals (ctx : Context) : ctx.globals = ctx.config.frame.globals := by
    unfold Context.config
    split <;> rfl
  rw [hstart]
  unfold IRFunction.outcome executeFunction
  generalize startContext f args globals = ctx
  generalize maxSteps = k
  constructor
  · intro hout
    dsimp only at hout
    cases hrun : runSteps E.program E.table E.call f k ctx with
    | mk fault after =>
      rw [hrun] at hout
      cases fault with
      | some fault => cases hout
      | none =>
        obtain ⟨n, hle, hsteps⟩ := steps_of_runSteps h hname k hrun
        dsimp only at hout
        by_cases hrunning : after.running f = true
        · rw [if_pos hrunning] at hout
          cases hout
        · rw [if_neg hrunning] at hout
          cases hout
          exact ⟨n, _, hle, hsteps, halted_config.mpr (Bool.eq_false_iff.mpr hrunning),
            hresult after, hglobals after⟩
  · rintro ⟨n, c, hle, hsteps, hhalted, hres, hglob⟩
    obtain ⟨after, hrun, rfl, htrace⟩ := runSteps_of_steps h hname hsteps hhalted hle
    dsimp only
    rw [hrun]
    dsimp only
    rw [halted_config.mp hhalted, if_neg (by decide)]
    dsimp only
    rw [hresult, hglobals, htrace, ← hres, ← hglob]

end

end Steps

end Ir
