import GdscriptCompiler.Optimizer.ConstantCopies
import GdscriptCompiler.Optimizer.ConstantFolding
import GdscriptCompiler.Optimizer.CopyPropagation
import GdscriptCompiler.Optimizer.DeadCode
import GdscriptCompiler.Optimizer.RegisterPressure

/-!
# Pipeline — `IROptimizer::optimize`

Each function goes through the passes that are switched on, in the order of the table and no further
than the pass limit. A pass that answered "no change" is skipped until another one answers
"changed". With verification on, the function is verified before the first pass, after each pass and
at the end.
-/

namespace Optimizer

open Lib Ir

/-! ## 1. The driver -/

inductive IRPass where
  | constantFolding | eliminateUnreachableCode | copyPropagation | enhancedCopyPropagation
  | scalarReplaceStructs | loopInvariantCodeMotion | peepholeOptimization | eliminateRedundantStores
  | eliminateDeadCode | reduceRegisterPressure | tightenScopeMarks
  deriving DecidableEq

def IRPass.name : IRPass → String
  | constantFolding => "constant-folding"
  | eliminateUnreachableCode => "unreachable-code"
  | copyPropagation => "copy-propagation"
  | enhancedCopyPropagation => "enhanced-copy-propagation"
  | scalarReplaceStructs => "scalar-replacement"
  | loopInvariantCodeMotion => "licm"
  | peepholeOptimization => "peephole"
  | eliminateRedundantStores => "redundant-stores"
  | eliminateDeadCode => "dead-code"
  | reduceRegisterPressure => "compact-registers"
  | tightenScopeMarks => "scope-marks"

def pipeline : List IRPass :=
  [.constantFolding, .eliminateUnreachableCode, .copyPropagation, .enhancedCopyPropagation,
    .scalarReplaceStructs, .loopInvariantCodeMotion, .peepholeOptimization, .peepholeOptimization,
    .eliminateRedundantStores, .peepholeOptimization, .eliminateDeadCode, .reduceRegisterPressure,
    .tightenScopeMarks]

/-- An `IROptimizer`: the passes that have no definition here, what each pass answers, and the
switches. No name in `enabled` means every pass. -/
structure IROptimizer where
  table : GlobalFunctions
  scalarReplaceStructs : IRFunction → Except Fault IRFunction
  loopInvariantCodeMotion : IRFunction → Except Fault IRFunction
  peepholeOptimization : IRFunction → Except Fault IRFunction
  tightenScopeMarks : IRFunction → Except Fault IRFunction
  changed : IRPass → IRFunction → Bool
  enabled : List String
  passLimit : Nat
  verify : Bool

/-- The exception of a pass, or of the verifier after a pass. -/
inductive Stopped where
  | pass (fault : Fault)
  | verifier (afterPass : String) (error : VerifyError)

namespace IROptimizer

variable (O : IROptimizer) (strings : StringTable)

def run (f : IRFunction) : IRPass → Except Fault IRFunction
  | .constantFolding => constantFolding O.table f
  | .eliminateUnreachableCode => .ok (eliminateUnreachableCode f)
  | .copyPropagation => .ok (copyPropagation f)
  | .enhancedCopyPropagation => .ok (enhancedCopyPropagation f)
  | .scalarReplaceStructs => O.scalarReplaceStructs f
  | .loopInvariantCodeMotion => O.loopInvariantCodeMotion f
  | .peepholeOptimization => O.peepholeOptimization f
  | .eliminateRedundantStores => eliminateRedundantStores O.table f
  | .eliminateDeadCode => eliminateDeadCode O.table f
  | .reduceRegisterPressure => .ok (reduceRegisterPressure f []).1
  | .tightenScopeMarks => O.tightenScopeMarks f

def isPassEnabled (pass : IRPass) : Bool := O.enabled.isEmpty || O.enabled.contains pass.name

-- `if (verify) ir_verify(func, after_pass, m_strings);`
def check (afterPass : String) (f : IRFunction) : Except Stopped Unit :=
  if O.verify then (irVerify (some strings) f).mapError (.verifier afterPass) else .ok ()

def runPass (f : IRFunction) (pass : IRPass) : Except Stopped IRFunction := do
  let f' ← (O.run f pass).mapError .pass
  O.check strings pass.name f'
  return f'

/-- The body of the loop, on the function and the passes that have settled. -/
def turn (state : IRFunction × List IRPass) (pass : IRPass) :
    Except Stopped (IRFunction × List IRPass) := do
  if !O.isPassEnabled pass || state.2.contains pass then
    return state
  let f ← O.runPass strings state.1 pass
  return (f, if O.changed pass state.1 then [] else state.2 ++ [pass])

def optimizeFunction (f : IRFunction) : Except Stopped IRFunction := do
  O.check strings "codegen" f
  let state ← (pipeline.take O.passLimit).foldlM (O.turn strings) (f, [])
  let f' := recomputeMaxRegisters state.1
  O.check strings "max-registers" f'
  return f'

def optimize (program : IRProgram) : Except Stopped IRProgram := do
  let functions ← program.functions.mapM (O.optimizeFunction program.strings)
  let memberInit ← program.memberInit.mapM (O.optimizeFunction program.strings)
  let globalInit ← program.globalInit.mapM (O.optimizeFunction program.strings)
  return { program with functions, memberInit, globalInit }

/-! ## 2. What a turn does -/

variable {O} {strings} {f f' : IRFunction} {pass : IRPass}

theorem runPass_eq_ok :
    O.runPass strings f pass = .ok f' ↔ O.run f pass = .ok f' ∧
      O.check strings pass.name f' = .ok () := by
  unfold runPass
  rw [bind_eq_ok]
  constructor
  · rintro ⟨g, hg, h⟩
    obtain ⟨hcheck, hsame⟩ := seq_eq_ok.mp h
    cases hsame
    exact ⟨mapError_eq_ok.mp hg, hcheck⟩
  · rintro ⟨hrun, hcheck⟩
    exact ⟨f', mapError_eq_ok.mpr hrun, seq_eq_ok.mpr ⟨hcheck, rfl⟩⟩

/-- A pass that is off or settled leaves the state; any other runs. -/
theorem turn_cases (state : IRFunction × List IRPass) (pass : IRPass) :
    (O.isPassEnabled pass = false ∨ pass ∈ state.2) ∧ O.turn strings state pass = .ok state ∨
      O.isPassEnabled pass = true ∧
        O.turn strings state pass = (O.runPass strings state.1 pass).map fun f =>
        (f, if O.changed pass state.1 then [] else state.2 ++ [pass]) := by
  unfold turn
  by_cases hskip : (!O.isPassEnabled pass || state.2.contains pass) = true
  · rw [if_pos hskip]
    exact .inl ⟨by simpa using hskip, rfl⟩
  · rw [if_neg hskip]
    refine .inr ⟨by simp_all, ?_⟩
    cases O.runPass strings state.1 pass with
    | error e => rfl
    | ok f => rfl

end IROptimizer

/-! ## 3. Passes that keep what a call leaves -/

/-- Whatever the callees do, a call of `f` that completes leaves what the call of `f'` leaves. -/
structure Preserves (program : IRProgram) (table : GlobalFunctions) (f f' : IRFunction) : Prop where
  name : f'.name = f.name
  outcome : ∀ call args globals o, f.outcome program table call args globals = some o →
    f'.outcome program table call args globals = some o

/-- A function a pass may leave for `f`. -/
def Kept (program : IRProgram) (table : GlobalFunctions) (f f' : IRFunction) : Prop :=
  irVerify (some program.strings) f' = .ok () ∧ Preserves program table f f'

section Passes

variable {program : IRProgram} {table : GlobalFunctions} {f f' f'' : IRFunction}

theorem Preserves.trans (h : Preserves program table f f') (h' : Preserves program table f' f'') :
    Preserves program table f f'' :=
  ⟨h'.name.trans h.name, fun call args globals o ho => h'.outcome call args globals o
  (h.outcome call args globals o ho)⟩

theorem preserves_of_mapIdx {g : Nat → IRInstruction → IRInstruction} {Inv : Nat → Frame → Prop}
    (hf : Runnable program.strings f) (hcode : f'.instructions = f.instructions.mapIdx g)
    (hname : f'.name = f.name) (hparams : f'.parameters = f.parameters)
    (hfits : ∀ k (hk : k < f.instructions.length), Fits (g k f.instructions[k]))
    (hsim : ∀ call, Simulation (machine ⟨program, table, call, f.name⟩)
        (machine ⟨program, table, call, f.name⟩)
      (expandPieces (fun k instr => [g k instr]) f.instructions)
      (fun k fr fr' => fr = fr' ∧ Inv k fr) Eq True) (hstart : ∀ fr, Inv 0 fr) :
    Preserves program table f f' where
  name := hname
  outcome call args globals o h := by
    let E : Env := ⟨program, table, call, f.name⟩
    refine outcome_of_simulation (E := E) hf ?_ (oldCode_expandPieces _ _).symm
      (hcode.trans (newCode_expandPieces_one _ _).symm) rfl hname hparams (hsim call) ⟨rfl, hstart _⟩
      (fun fr fr' heq => by rw [heq]) h
    intro instr hmem
    rw [hcode] at hmem
    obtain ⟨k, hk, rfl⟩ := List.mem_mapIdx.mp hmem
    exact hfits k hk

/-- The passes that keep the outcome of every call of a verified function. -/
def soundPasses : List IRPass :=
  [.copyPropagation, .enhancedCopyPropagation, .reduceRegisterPressure]

theorem run_preserves {O : IROptimizer} {pass : IRPass}
    (haccepted : irVerify (some program.strings) f = .ok ()) (hpass : pass ∈ soundPasses)
    (h : O.run f pass = .ok f') :
    Preserves program table f f' := by
  let E : Env := ⟨program, table, callAt program table 0, f.name⟩
  have hf : Verified E.program.strings f := verified_of_irVerify haccepted
  have hrunnable := runnable_of_irVerify haccepted
  simp only [soundPasses, List.mem_cons, List.not_mem_nil, or_false] at hpass
  rcases hpass with rfl | rfl | rfl
  · cases h
    refine preserves_of_mapIdx hrunnable (copyPropagation_instructions f) rfl rfl
      (fun k hk => (copyStep_emits (hf.fits _ (List.getElem_mem hk)) (knownAt_known (E := E) hf k)).1)
      (fun call => copyPropagation_simulates (E := ⟨program, table, call, f.name⟩) hf) ?_
    intro fr instr _ r info hr
    cases ConstantRegs.enter_some hr
  · cases h
    refine preserves_of_mapIdx hrunnable (enhancedCopyPropagation_instructions f) rfl rfl
      (fun k hk => fits_propagated (hf.fits _ (List.getElem_mem hk)) k)
      (fun call => copyPropagation_simulation (E := ⟨program, table, call, f.name⟩) hf) ?_
    intro fr reg info hinfo
    cases hinfo
  · cases h
    have hrenamed := reduceRegisterPressure_renamed hf []
    have hrenamed : RenamedFunction (regMap f).apply
      (insert (-1) { r | Pinned f r ∨ r ∈ namedRegisters f }) f
        (reduceRegisterPressure f []).1 :=
      ⟨hrenamed.renames, hrenamed.instructions, hrenamed.registers, hrenamed.parameters,
      hrenamed.parameter,
        hrenamed.name⟩
    exact ⟨rfl, fun call args globals o => outcome_of_renamed hrenamed hrunnable⟩

theorem recomputeMaxRegisters_preserves (hf : Runnable program.strings f) :
    Preserves program table f (recomputeMaxRegisters f) where
  name := rfl
  outcome call args globals o h := by
    let E : Env := ⟨program, table, call, f.name⟩
    have hf' : Runnable E.program.strings (recomputeMaxRegisters f) := ⟨hf.fits, hf.unique⟩
    exact (outcome_eq_some_iff (E := E) hf' rfl).mpr ((outcome_eq_some_iff (E := E) hf rfl).mp h)

variable {O : IROptimizer} (hverify : O.verify = true)
  (hsound : ∀ pass, O.isPassEnabled pass = true → pass ∈ soundPasses)
include hverify

theorem check_eq_ok {strings : StringTable} {afterPass : String} :
    O.check strings afterPass f = .ok () ↔ irVerify (some strings) f = .ok () := by
  unfold IROptimizer.check
  rw [if_pos hverify, mapError_eq_ok]

include hsound

theorem turn_kept {state state' : IRFunction × List IRPass} {pass : IRPass}
    (haccepted : irVerify (some program.strings) state.1 = .ok ())
    (h : O.turn program.strings state pass = .ok state') :
    Kept program table state.1 state'.1 := by
  rcases IROptimizer.turn_cases state pass with ⟨-, hturn⟩ | ⟨hon, hturn⟩
  · rw [hturn] at h
    cases h
    exact ⟨haccepted, rfl, fun _ _ _ _ ho => ho⟩
  · rw [hturn] at h
    cases hrun : O.runPass program.strings state.1 pass with
    | error e => rw [hrun] at h; cases h
    | ok f =>
      rw [hrun] at h
      cases h
      obtain ⟨hran, hchecked⟩ := IROptimizer.runPass_eq_ok.mp hrun
      exact ⟨(check_eq_ok hverify).mp hchecked, run_preserves haccepted (hsound pass hon) hran⟩

theorem foldlM_turn_kept {passes : List IRPass} {state state' : IRFunction × List IRPass}
    (h : passes.foldlM (O.turn program.strings) state = .ok state')
    (haccepted : irVerify (some program.strings) state.1 = .ok ()) :
    Kept program table state.1 state'.1 := by
  induction passes generalizing state with
  | nil =>
    cases h
    exact ⟨haccepted, rfl, fun _ _ _ _ ho => ho⟩
  | cons pass passes ih =>
    rw [List.foldlM_cons] at h
    obtain ⟨mid, hmid, hrest⟩ := bind_eq_ok.mp h
    obtain ⟨hacc, hpres⟩ := turn_kept hverify hsound haccepted hmid
    obtain ⟨hacc', hpres'⟩ := ih hrest hacc
    exact ⟨hacc', hpres.trans hpres'⟩

theorem optimizeFunction_kept (h : O.optimizeFunction program.strings f = .ok f') :
    Kept program table f f' := by
  unfold IROptimizer.optimizeFunction at h
  obtain ⟨hfirst, h⟩ := seq_eq_ok.mp h
  obtain ⟨state, hstate, h⟩ := bind_eq_ok.mp h
  obtain ⟨hlast, h⟩ := seq_eq_ok.mp h
  cases h
  obtain ⟨hacc, hpres⟩ := foldlM_turn_kept hverify hsound hstate ((check_eq_ok hverify).mp hfirst)
  exact ⟨(check_eq_ok hverify).mp hlast,
    hpres.trans (recomputeMaxRegisters_preserves (runnable_of_irVerify hacc))⟩

end Passes

/-! ## 4. Programs -/

/-- Whatever call completes completes here as well, and leaves the same. -/
def Extends (call call' : Callee) : Prop :=
  ∀ name args globals v left, call name args globals = (.ok v, left) →
    call' name args globals = (.ok v, left)

/-- `program'` has a function that does the same for each function of `program`, and is like it
otherwise. -/
structure Optimized (table : GlobalFunctions) (program program' : IRProgram) : Prop where
  same : ∃ functions globalInit memberInit, program' = { program with functions, globalInit, memberInit }
  functions : List.Forall₂ (Kept program table) program.functions program'.functions
  globalInit : Option.Rel (Kept program table) program.globalInit program'.globalInit
  memberInit : Option.Rel (Kept program table) program.memberInit program'.memberInit

section Programs

variable {program program' : IRProgram} {table : GlobalFunctions} {call call' : Callee}
  (hopt : Optimized table program program')
include hopt

theorem findFunction_kept (name : String) :
    Option.Rel (Kept program table) (program.findFunction name) (program'.findFunction name) := by
  have hreverse := List.forall₂_reverse_iff.mpr hopt.functions
  unfold IRProgram.findFunction
  generalize program.functions.reverse = fs at hreverse ⊢
  generalize program'.functions.reverse = fs' at hreverse ⊢
  induction hreverse with
  | nil => exact .none
  | cons h _ ih =>
    rw [List.find?_cons, List.find?_cons, h.2.name]
    split
    · exact .some h
    · exact ih

theorem isNone_findFunction (name : String) :
    (program'.findFunction name).isNone = (program.findFunction name).isNone := by
  have h := findFunction_kept hopt name
  generalize program.findFunction name = found at h ⊢
  generalize program'.findFunction name = found' at h ⊢
  cases h <;> rfl

variable (hcalls : Extends call call') {globals : List Value}
include hcalls

theorem denote_extends {name : String} {op : Opcode} {hint : TypeHint} {args : List Arg}
    {e : Effects} (h : denote ⟨program, table, call, name⟩ globals op hint args = some e) :
    denote ⟨program', table, call', name⟩ globals op hint args = some e := by
  have hfinds := isNone_findFunction hopt
  obtain ⟨functions, globalInit, memberInit, rfl⟩ := hopt.same
  cases op
  case call =>
    change denoteCall _ globals args = some e at h ⊢
    unfold denoteCall at h ⊢
    split at h
    · obtain ⟨values, hvalues, h⟩ := Option.bind_eq_some_iff.mp h
      refine Option.bind_eq_some_iff.mpr ⟨values, hvalues, ?_⟩
      dsimp only at h ⊢
      rw [hfinds]
      split at h
      · cases h
      · rw [if_neg (by assumption)]
        split at h
        · rw [hcalls _ _ _ _ _ (by assumption)]
          exact h
        · cases h
    · cases h
  all_goals exact h

theorem outcome_extends {f : IRFunction} {args : List Value} {o : Outcome}
    (hf : irVerify (some program.strings) f = .ok ())
    (h : f.outcome program table call args globals = some o) :
    f.outcome program' table call' args globals = some o := by
  let E : Env := ⟨program, table, call, f.name⟩
  let E' : Env := ⟨program', table, call', f.name⟩
  have hstrings : program'.strings = program.strings := by
    obtain ⟨functions, globalInit, memberInit, rfl⟩ := hopt.same
    rfl
  have hrunnable : Runnable E.program.strings f := runnable_of_irVerify hf
  have hrunnable' : Runnable E'.program.strings f := hstrings ▸ hrunnable
  obtain ⟨n, c, hle, hsteps, hrest⟩ := (outcome_eq_some_iff (E := E) hrunnable rfl).mp h
  refine (outcome_eq_some_iff (E := E') hrunnable' rfl).mpr ⟨n, c, hle, hsteps.mono ?_ ?_, hrest⟩
  · exact congrArg IRInstruction.labelName hstrings
  · intro instr fr r hexec
    change execute E instr fr = some r at hexec
    change execute E' instr fr = some r
    unfold execute at hexec ⊢
    split at hexec
    · rw [if_pos (by assumption)]
      exact hexec
    · rw [if_neg (by assumption)]
      obtain ⟨e, hdenote, heq⟩ := Option.map_eq_some_iff.mp hexec
      exact Option.map_eq_some_iff.mpr ⟨e, denote_extends hopt hcalls hdenote, heq⟩

/-- A completed execution of `f` is one of the function kept for it. -/
theorem executeFunction_kept {f f' : IRFunction} {args : List Value} {after : Context}
    (hkept : Kept program table f f')
    (h : executeFunction program table call f (startContext f args globals) = (none, after)) :
    ∃ after', executeFunction program' table call' f' (startContext f' args globals) =
      (none, after') ∧
      after'.globals = after.globals ∧ (if after'.returned then after'.returnValue else .nil) =
        if after.returned then after.returnValue else .nil := by
  have ho : ∃ trace, f.outcome program table call args globals = some
      ⟨if after.returned then after.returnValue else .nil, after.globals, trace⟩ := by
    unfold IRFunction.outcome
    dsimp only
    rw [h]
    exact ⟨_, rfl⟩
  obtain ⟨trace, ho⟩ := ho
  have ho' := outcome_extends hopt hcalls hkept.1 (hkept.2.outcome call args globals _ ho)
  unfold IRFunction.outcome at ho'
  dsimp only at ho'
  split at ho'
  · rename_i after' hrun
    have heq := Option.some.inj ho'
    exact ⟨after', hrun, congrArg Outcome.globals heq, congrArg Outcome.result heq⟩
  · cases ho'

omit hcalls

theorem callAt_extends (depth : Nat) :
    Extends (callAt program table depth) (callAt program' table depth) := by
  induction depth with
  | zero =>
    intro name args globals v left h
    have hfound := findFunction_kept hopt name
    unfold callAt at h ⊢
    generalize program.findFunction name = found at h hfound
    generalize program'.findFunction name = found' at hfound ⊢
    cases hfound with
    | none => exact h
    | some hkept => cases h
  | succ depth ih =>
    intro name args globals v left h
    have hfound := findFunction_kept hopt name
    unfold callAt at h ⊢
    generalize program.findFunction name = found at h hfound
    generalize program'.findFunction name = found' at hfound ⊢
    cases hfound with
    | none => exact h
    | @some f f' hkept =>
      dsimp only at h ⊢
      split at h
      · cases h
      · cases h
        obtain ⟨after', hrun, hglobals, hresult⟩ := executeFunction_kept hopt ih hkept (by assumption)
        rw [hrun]
        dsimp only
        rw [hglobals, hresult]

theorem runInit_kept {init init' : Option IRFunction}
    (hinit : Option.Rel (Kept program table) init init') {left : List Value}
    (h : runInit program table init globals = .ok left) :
    runInit program' table init' globals = .ok left := by
  unfold runInit at h ⊢
  cases hinit with
  | none => exact h
  | some hkept =>
    dsimp only at h ⊢
    split at h
    · cases h
    · cases h
      obtain ⟨after', hrun, hglobals, -⟩ :=
        executeFunction_kept hopt (callAt_extends hopt _) hkept (by assumption)
      rw [hrun, ← hglobals]

theorem callProgram_kept {name : String} {args : List Value} {r : Value × List Value}
    (h : callProgram program table name args = .ok r) :
    callProgram program' table name args = .ok r := by
  have hglobals : program'.globals = program.globals := by
    obtain ⟨functions, globalInit, memberInit, rfl⟩ := hopt.same
    rfl
  unfold callProgram initializeGlobals at h ⊢
  simp only [bind_eq_ok] at h ⊢
  obtain ⟨left, ⟨mid, hmid, hleft⟩, v, hcall, hr⟩ := h
  cases hr
  have hkept := callAt_extends hopt maxCallDepth name args left v _ (Prod.ext hcall rfl)
  refine ⟨left, ⟨mid, hglobals ▸ runInit_kept hopt hopt.globalInit hmid,
    runInit_kept hopt hopt.memberInit hleft⟩, v, ?_⟩
  rw [hkept]
  exact ⟨rfl, rfl⟩

end Programs

theorem optional_kept {P : IRFunction → IRFunction → Prop}
    {opt : IRFunction → Except Stopped IRFunction} (hkeeps : ∀ f f', opt f = .ok f' → P f f')
    {init init' : Option IRFunction} (h : init.mapM opt = .ok init') :
    Option.Rel P init init' := by
  cases init with
  | none =>
    cases h
    exact .none
  | some f =>
    obtain ⟨f', hf', h⟩ := bind_eq_ok.mp h
    cases h
    exact .some (hkeeps f f' hf')

/-- Verification on, any pass limit and any of the sound passes switched on: whatever a call on a
new interpreter for the program comes to, the call on one for the optimized program comes to. -/
theorem optimize_preserves_calls (O : IROptimizer) (hverify : O.verify = true)
    (hsound : ∀ pass, O.isPassEnabled pass = true → pass ∈ soundPasses)
    (program program' : IRProgram) (h : O.optimize program = .ok program') (table : GlobalFunctions)
    (name : String) (args : List Value) (r : Value × List Value)
    (hcall : callProgram program table name args = .ok r) :
    callProgram program' table name args = .ok r := by
  have hkeeps : ∀ f f', O.optimizeFunction program.strings f = .ok f' → Kept program table f f' :=
    fun f f' => optimizeFunction_kept hverify hsound
  unfold IROptimizer.optimize at h
  obtain ⟨functions, hfunctions, h⟩ := bind_eq_ok.mp h
  obtain ⟨memberInit, hmember, h⟩ := bind_eq_ok.mp h
  obtain ⟨globalInit, hglobal, h⟩ := bind_eq_ok.mp h
  cases h
  exact callProgram_kept ⟨⟨_, _, _, rfl⟩, (forall₂_of_mapM hfunctions).imp hkeeps,
    optional_kept hkeeps hglobal, optional_kept hkeeps hmember⟩ hcall

def soundOptimizer : IROptimizer where
  table := noGlobals
  scalarReplaceStructs := .ok
  loopInvariantCodeMotion := .ok
  peepholeOptimization := .ok
  tightenScopeMarks := .ok
  changed pass _ := soundPasses.contains pass
  enabled := soundPasses.map IRPass.name
  passLimit := pipeline.length
  verify := true

-- calls the function whose copies become loads
def callsCopiedFive : IRProgram where
  functions := [copiedFive, {
    name := "main"
    parameters := []
    maxRegisters := 4
    instructions :=
      [{ opcode := .call, operands := [.str 0, .reg 3, .imm 0] },
       { opcode := .move, operands := [.reg 2, .reg 3] },
       { opcode := .move, operands := [.reg 0, .reg 2] },
       { opcode := .returnOp, operands := [] }] }]
  strings := ⟨["copiedFive"], by decide⟩
  stringConstants := []
  globals := []

theorem optimize_preserves_calls_copiedFive :
    ∃ program', soundOptimizer.optimize callsCopiedFive = .ok program' ∧
      callProgram program' noGlobals "main" [] = .ok (.int 5, []) :=
  ⟨_, rfl, optimize_preserves_calls soundOptimizer rfl (by intro pass; cases pass <;> decide)
  callsCopiedFive _ rfl
    noGlobals "main" [] _ rfl⟩

end Optimizer
