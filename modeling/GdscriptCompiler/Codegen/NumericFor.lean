import GdscriptCompiler.Codegen.Loops
import Mathlib.Tactic.Ring

/-!
# NumericFor — integer `for` loops

`gen_numeric_for` counts in the register of the loop variable.
-/

namespace Codegen

open Ir Lib

/-! ## 1. The loop -/

def Before (step v stop : Int) : Prop := 0 < step ∧ v < stop ∨ step < 0 ∧ stop < v

instance (step v stop : Int) : Decidable (Before step v stop) := by unfold Before; infer_instance

-- the value iteration `k` starts with, in unbounded integers
def counterAt (start step : Int64) (k : Nat) : Int := start.toInt + k * step.toInt

def rangeEnter {W : Type} (var : Int) (start stop step : Int64) (k : Nat) (s : View W) :
    Option (View W) :=
  if Before step.toInt (counterAt start step k) stop.toInt then
    some (s.assign var (.int (Int64.ofInt (counterAt start step k))))
  else none

def NoOverflow (start stop step : Int64) : Prop :=
  ∀ k, Before step.toInt (counterAt start step k) stop.toInt →
    -2 ^ 63 ≤ counterAt start step (k + 1) ∧ counterAt start step (k + 1) < 2 ^ 63

structure IntegerRange where
  start : Int64
  stop : Int64
  step : Int64
  nonzero : step ≠ 0
  bounded : NoOverflow start stop step

/-- The iterations that go on leave the loop variable alone. -/
def LoopBody.Keeping {W : Type} {own : List Int} (B : LoopBody W own) (var : Int) (s : View W)
    (os : List Observation) (s' : View W) (leave : Leave Value) : Prop :=
  B.Leaves s os s' leave ∧ (leave = .again → s'.frame.registers var = s.frame.registers var)

/-! ## 2. `gen_numeric_for` -/

/-- The last write of the step: whether it is a constant, and then whether that is positive. -/
def constantStep (emitted : List IRInstruction) (stepReg : Int) : Option Bool :=
  match emitted.reverse.find? (·.destinationRegister = stepReg) with
  | some { opcode := .loadImm, operands := [_, .imm v], .. } => some (0 ≤ v)
  | some { opcode := .loadFloatImm, operands := [_, .fimm d], .. } => some (0.0 ≤ d)
  | _ => none

structure NumericFor where
  startReg : Int
  endReg : Int
  stepReg : Int
  -- `next_register` when the loop is generated, and after its body
  nextRegister : Int
  afterBody : Int
  scope : Option Int64
  -- start and step are known to be floats
  floatLoop : Bool
  -- everything emitted before the test of the loop
  emitted : List IRInstruction
  loopLabel : Nat
  continueLabel : Nat
  endLabel : Nat
  posStepLabel : Nat
  checkCondLabel : Nat
  -- `alloc_register` never hands out a register twice
  fresh : startReg < nextRegister ∧ endReg < nextRegister ∧ stepReg < nextRegister
  -- a constant step takes no registers for the sign test
  later : nextRegister + (if (constantStep emitted stepReg).isSome then 2 else 4) ≤ afterBody

namespace NumericFor

variable (L : NumericFor)

def loopVarReg : Int := L.nextRegister
def condReg : Int := L.nextRegister + 1
def zeroReg : Int := L.nextRegister + 2
def stepSignReg : Int := L.nextRegister + 3
def newValReg : Int := L.afterBody

def constant : Option Bool := constantStep L.emitted L.stepReg

theorem var_lt_newVal : L.loopVarReg < L.newValReg := by
  have h := L.later
  unfold loopVarReg newValReg
  split at h
  all_goals omega

def numeric : TypeHint := if L.floatLoop then Variant.float else Variant.int

def own : List Int :=
  [L.startReg, L.endReg, L.stepReg, L.condReg, L.newValReg] ++
    if L.constant.isNone then [L.zeroReg, L.stepSignReg] else []

def test (rest : List Slot) : List Slot :=
  match L.constant with
  | some positive =>
    ins (if positive then .cmpLt else .cmpGt) [.reg L.condReg, .reg L.loopVarReg, .reg L.endReg]
      L.numeric :: rest
  | none =>
    (if L.floatLoop then ins .loadFloatImm [.reg L.zeroReg, .fimm 0.0] Variant.float
      else ins .loadImm [.reg L.zeroReg, .imm 0]) ::
    ins .cmpGte [.reg L.stepSignReg, .reg L.stepReg, .reg L.zeroReg] L.numeric ::
    ins .branchNotZero [.reg L.stepSignReg, .label L.posStepLabel] ::
    ins .cmpGt [.reg L.condReg, .reg L.loopVarReg, .reg L.endReg] L.numeric ::
    ins .jump [.label L.checkCondLabel] ::
    ins .label [.label L.posStepLabel] ::
    ins .cmpLt [.reg L.condReg, .reg L.loopVarReg, .reg L.endReg] L.numeric ::
    ins .label [.label L.checkCondLabel] :: rest

-- from the label `break` jumps to; `after` is what follows the loop
def exit (after : List Slot) : List Slot :=
  ins .label [.label L.endLabel] :: (emitScopeRelease L.scope ++ after)

def latch (after : List Slot) : List Slot :=
  ins .label [.label L.continueLabel] ::
  ins .add [.reg L.newValReg, .reg L.loopVarReg, .reg L.stepReg] L.numeric ::
  ins .move [.reg L.loopVarReg, .reg L.newValReg] ::
  ins .jump [.label L.loopLabel] :: L.exit after

def branch (after : List Slot) : List Slot :=
  ins .branchZero [.reg L.condReg, .label L.endLabel] :: .body :: L.latch after

def head (after : List Slot) : List Slot :=
  ins .label [.label L.loopLabel] ::
    (emitScopeRelease L.scope ++ L.test (L.branch after))

/-- `gen_numeric_for`, followed by `after`. -/
def gen (after : List Slot) : List Slot :=
  ins .move [.reg L.loopVarReg, .reg L.startReg] :: (openScope L.scope ++ L.head after)

-- the loop `gen_stmt` finds on `func.loops`
def context (E : Env) (batchScopes : List (Int64 × Int64)) : LoopContext where
  continueLabel := E.program.strings.nameOf L.continueLabel
  breakLabel := E.program.strings.nameOf L.endLabel
  scopes := L.scope.toList
  buffers := []
  codepoints := []
  batchScopes

end NumericFor

/-! ## 3. Its test -/

section Test

variable {W : Type} {own : List Int} (E : Env) (H : Host W) (B : LoopBody W own)
  (loop : LoopContext) {L : NumericFor} {code rest : List Slot} {t : LoopState W} {a b c : Int64}

theorem before_of_nonneg (hc : c ≠ 0) (h : 0 ≤ c) :
    decide (Before c.toInt a.toInt b.toInt) = decide (a < b) := by
  have hne : c.toInt ≠ 0 := fun h0 => hc (Int64.toInt_inj.mp h0)
  have hle : (0 : Int) ≤ c.toInt := Int64.le_iff_toInt_le.mp h
  rw [decide_eq_decide, Int64.lt_iff_toInt_lt, Before]
  omega

theorem before_of_neg (h : ¬0 ≤ c) : decide (Before c.toInt a.toInt b.toInt) = decide (b < a) := by
  have hlt : ¬(0 : Int) ≤ c.toInt := fun hle => h (Int64.le_iff_toInt_le.mpr hle)
  rw [decide_eq_decide, Int64.lt_iff_toInt_lt, Before]
  omega

-- registers only the test writes
def NumericFor.testRegs (L : NumericFor) : List Int :=
  L.condReg :: if L.constant.isNone then [L.zeroReg, L.stepSignReg] else []

theorem runs_test (hfloat : L.floatLoop = false)
    (hvar : t.frame.registers L.loopVarReg = some (.int a))
    (hend : t.frame.registers L.endReg = some (.int b))
    (hstep : t.frame.registers L.stepReg = some (.int c)) (hc : c ≠ 0)
    (hconst : ∀ positive ∈ L.constant, positive = decide (0 ≤ c)) (hplace : L.test rest <:+ code) :
    ∃ t', (loopMachine E H B loop).Runs code (L.test rest) t [] rest t' ∧ Writes L.testRegs t t' ∧
      t'.frame.registers L.condReg =
        some (intOfBool (decide (Before c.toInt a.toInt b.toInt))) := by
  unfold NumericFor.test at hplace ⊢
  cases hconstant : L.constant with
  | some positive =>
    have hpos := hconst positive hconstant
    refine ⟨t.assign L.condReg (intOfBool (decide (Before c.toInt a.toInt b.toInt))), ?_,
      (Writes.refl _ t).assign (List.mem_cons_self ..), LoopState.assign_same⟩
    by_cases hle : 0 ≤ c
    · rw [hpos, decide_eq_true hle, before_of_nonneg hc hle]
      exact .next (exec_compare _ (by decide) hvar hend) (.refl _ _)
    · rw [hpos, decide_eq_false hle, before_of_neg hle]
      exact .next (exec_compare _ (by decide) hvar hend) (.refl _ _)
  | none =>
    simp only [hconstant, hfloat, Bool.false_eq_true, if_false] at hplace ⊢
    have hregs : L.testRegs = [L.condReg, L.zeroReg, L.stepSignReg] := by
      rw [NumericFor.testRegs, hconstant]
      rfl
    have hpos := (List.drop_suffix 5 _).trans hplace
    have hcheck := (List.drop_suffix 7 _).trans hplace
    obtain ⟨-, hlt, hlt'⟩ := L.fresh
    have hends : L.endReg ≠ L.zeroReg ∧ L.endReg ≠ L.stepSignReg := by
      unfold NumericFor.zeroReg NumericFor.stepSignReg
      omega
    have hvars : L.loopVarReg ≠ L.zeroReg ∧ L.loopVarReg ≠ L.stepSignReg := by
      unfold NumericFor.loopVarReg NumericFor.zeroReg NumericFor.stepSignReg
      omega
    have hsteps : L.stepReg ≠ L.zeroReg := by
      unfold NumericFor.zeroReg
      omega
    -- the sign of the step is tested on every pass
    let t₁ := (t.assign L.zeroReg (.int 0)).assign L.stepSignReg (intOfBool (decide (0 ≤ c)))
    have hvar₁ : t₁.frame.registers L.loopVarReg = some (.int a) := by simp [t₁, hvars.1, hvars.2, hvar]
    have hend₁ : t₁.frame.registers L.endReg = some (.int b) := by simp [t₁, hends.1, hends.2, hend]
    have hwrites : Writes L.testRegs t t₁ := by
      rw [hregs]
      exact ((Writes.refl _ t).assign (by simp)).assign (by simp)
    refine ⟨t₁.assign L.condReg (intOfBool (decide (Before c.toInt a.toInt b.toInt))), ?_,
      hwrites.assign (hregs ▸ List.mem_cons_self ..), LoopState.assign_same⟩
    have hstep₁ : (t.assign L.zeroReg (.int 0)).frame.registers L.stepReg = some (.int c) := by
      rw [LoopState.assign_other hsteps, hstep]
    refine .next (exec_load _ _ _) (.next (exec_compare _ (by decide) hstep₁ LoopState.assign_same) ?_)
    by_cases hle : 0 ≤ c
    · rw [before_of_nonneg hc hle]
      refine .goto (exec_branchNotZero_goes _ _ LoopState.assign_same ?_) rfl hpos ?_
      · rw [getBool_intOfBool]
        exact decide_eq_true hle
      · exact .next (exec_label _ _) (.next (exec_compare _ (by decide) hvar₁ hend₁)
          (.next (exec_label _ _) (.refl _ _)))
    · rw [before_of_neg hle]
      refine .next (exec_branchNotZero_falls _ _ LoopState.assign_same ?_) ?_
      · rw [getBool_intOfBool]
        exact decide_eq_false hle
      · exact .next (exec_compare _ (by decide) hvar₁ hend₁)
          (.goto (exec_jump _ _) rfl hcheck (.next (exec_label _ _) (.refl _ _)))

end Test

/-! ## 4. Its iterations -/

section Lowering

variable {W : Type} {E : Env} {H : Host W} {L : NumericFor} {B : LoopBody W L.own}
  {R : IntegerRange} {code after rest : List Slot} {s : View W} {t : LoopState W} {k : Nat}
  {owners : List (Int64 × Int64)}

-- what the code of the loop finds at its head and after the body
structure NumericFor.Held (L : NumericFor) (R : IntegerRange) (t : LoopState W) : Prop where
  stop : t.frame.registers L.endReg = some (.int R.stop)
  step : t.frame.registers L.stepReg = some (.int R.step)
  marked : t.memory.Marked L.scope

/-- The values the loop runs on: integers in its three registers, and a constant step found in the
code is the one the register holds. -/
structure NumericFor.Loaded (L : NumericFor) (R : IntegerRange) (t : LoopState W) : Prop where
  start : t.frame.registers L.startReg = some (.int R.start)
  stop : t.frame.registers L.endReg = some (.int R.stop)
  step : t.frame.registers L.stepReg = some (.int R.step)
  integers : L.floatLoop = false
  constant : ∀ positive ∈ L.constant, positive = decide (0 ≤ R.step)

def IntegerRange.value (R : IntegerRange) (k : Nat) : Value :=
  .int (Int64.ofInt (counterAt R.start R.step k))

structure NumericFor.AtHead (L : NumericFor) (R : IntegerRange) (after : List Slot) (k : Nat)
    (s : View W) (rest : List Slot) (t : LoopState W) : Prop where
  place : rest = L.head after
  agree : Agree (L.loopVarReg :: L.own) s t.toView
  held : L.Held R t
  counter : t.frame.registers L.loopVarReg = some (R.value k)
  inRange : -2 ^ 63 ≤ counterAt R.start R.step k ∧ counterAt R.start R.step k < 2 ^ 63

structure NumericFor.InBody (L : NumericFor) (R : IntegerRange) (k : Nat) (s : View W)
    (t : LoopState W) : Prop where
  held : L.Held R t
  counter : s.frame.registers L.loopVarReg = some (R.value k)
  before : Before R.step.toInt (counterAt R.start R.step k) R.stop.toInt

theorem counterAt_succ (start step : Int64) (k : Nat) :
    Int64.ofInt (counterAt start step k) + step = Int64.ofInt (counterAt start step (k + 1)) := by
  have hsucc : counterAt start step (k + 1) = counterAt start step k + step.toInt := by
    unfold counterAt
    push_cast
    ring
  rw [hsucc, Int64.ofInt_add, Int64.ofInt_toInt]

-- adding the step to the counter
theorem exec_count {own : List Int} {B : LoopBody W own} {loop : LoopContext}
    {dst counter stepReg : Int} (R : IntegerRange) (hint : TypeHint)
    (hcounter : t.frame.registers counter = some (R.value k))
    (hstep : t.frame.registers stepReg = some (.int R.step)) :
    (loopMachine E H B loop).exec (ins .add [.reg dst, .reg counter, .reg stepReg] hint) t =
      some ([], t.assign dst (R.value (k + 1)), .next) := by
  rw [exec_add hint hcounter hstep, counterAt_succ]
  rfl

theorem IntegerRange.enter_eq (R : IntegerRange) (var : Int) (k : Nat) (s : View W) :
    rangeEnter var R.start R.stop R.step k s =
      if Before R.step.toInt (counterAt R.start R.step k) R.stop.toInt then
        some (s.assign var (R.value k)) else none := rfl

theorem NumericFor.own_of_test (L : NumericFor) {r : Int} (h : r ∈ L.testRegs) : r ∈ L.own := by
  unfold NumericFor.testRegs at h
  unfold NumericFor.own
  rcases List.mem_cons.mp h with rfl | h
  · simp
  · exact List.mem_append_right _ h

theorem NumericFor.var_not_own (L : NumericFor) : L.loopVarReg ∉ L.own := by
  obtain ⟨h₁, h₂, h₃⟩ := L.fresh
  have h₄ := L.var_lt_newVal
  have hother : ∀ r ∈ (if L.constant.isNone then [L.zeroReg, L.stepSignReg] else []),
    L.loopVarReg ≠ r := by
    intro r hr
    split at hr
    · simp only [NumericFor.zeroReg, NumericFor.stepSignReg, List.mem_cons, List.not_mem_nil,
        or_false] at hr
      unfold NumericFor.loopVarReg
      omega
    · cases hr
  intro h
  rcases List.mem_append.mp h with h | h
  · simp only [NumericFor.condReg, List.mem_cons, List.not_mem_nil, or_false] at h
    unfold NumericFor.loopVarReg at h h₄
    omega
  · exact hother _ h rfl

section

variable (h : L.gen after <:+ code)
include h

theorem NumericFor.head_suffix : L.head after <:+ code :=
  (List.suffix_append (openScope L.scope) _).trans ((List.suffix_cons _ _).trans h)

theorem NumericFor.test_suffix : L.test (L.branch after) <:+ code :=
  (List.suffix_append (emitScopeRelease L.scope) _).trans ((List.suffix_cons _ _).trans (head_suffix h))

theorem NumericFor.branch_suffix : L.branch after <:+ code := by
  refine List.IsSuffix.trans ?_ (test_suffix h)
  unfold NumericFor.test
  split
  · exact List.suffix_cons _ _
  · exact List.drop_suffix 8 (_ :: _ :: _ :: _ :: _ :: _ :: _ :: _ :: L.branch after)

theorem NumericFor.exit_suffix : L.exit after <:+ code :=
  (List.drop_suffix 6 (L.branch after)).trans (branch_suffix h)

end

theorem runs_head (hplace : L.gen after <:+ code) (hfloat : L.floatLoop = false)
    (hconst : ∀ positive ∈ L.constant, positive = decide (0 ≤ R.step))
    (h : L.AtHead R after k s rest t) :
    ∃ t', (loopMachine E H B (L.context E owners)).Runs code rest t [] (L.branch after) t' ∧
      Writes L.testRegs t t' ∧
      t'.frame.registers L.condReg =
        some (intOfBool
            (decide (Before R.step.toInt (counterAt R.start R.step k) R.stop.toInt))) := by
  have hreleased : Writes L.testRegs t (t.release (L.context E owners) L.scope) := .release _ _ _
  have hview := t.release_view (L.context E owners) L.scope
  obtain ⟨t', hruns, hwrites, hcond⟩ := runs_test E H B (L.context E owners) hfloat (hview ▸ h.counter)
    (hview ▸ h.held.stop) (hview ▸ h.held.step) R.nonzero hconst (NumericFor.test_suffix hplace)
  rw [Int64.toInt_ofInt_of_le h.inRange.1 h.inRange.2] at hcond
  rw [h.place]
  exact ⟨t', .next (exec_label _ _) (run_release h.held.marked hruns), hreleased.trans hwrites, hcond⟩

theorem NumericFor.Held.writes {t' : LoopState W} (h : L.Held R t) {rs : List Int}
    (hwrites : Writes rs t t') (hstop : L.endReg ∉ rs) (hstep : L.stepReg ∉ rs) :
    L.Held R t' where
  stop := (hwrites.registers _ hstop).trans h.stop
  step := (hwrites.registers _ hstep).trans h.step
  marked := h.marked.writes hwrites

theorem NumericFor.test_not_end (L : NumericFor) :
    L.endReg ∉ L.testRegs ∧ L.stepReg ∉ L.testRegs := by
  obtain ⟨-, h₂, h₃⟩ := L.fresh
  unfold NumericFor.testRegs NumericFor.condReg NumericFor.zeroReg NumericFor.stepSignReg
  constructor
  all_goals
    intro h
    split at h
    all_goals
      simp only [List.mem_cons, List.not_mem_nil, or_false] at h
      omega

theorem NumericFor.var_not_test (L : NumericFor) : L.loopVarReg ∉ L.testRegs :=
  fun h => L.var_not_own (L.own_of_test h)

theorem NumericFor.mem_own (L : NumericFor) :
    L.endReg ∈ L.own ∧ L.stepReg ∈ L.own ∧ L.newValReg ∈ L.own := by
  simp [NumericFor.own]

theorem NumericFor.Held.passed {u : LoopState W} {s' : View W} (h : L.Held R t)
    (hpassed : Passed L.own (L.context E owners) t u s') :
    L.Held R u where
  stop := (hpassed.kept _ L.mem_own.1).trans h.stop
  step := (hpassed.kept _ L.mem_own.2.1).trans h.step
  marked := h.marked.spared hpassed.spared fun _ hid => Option.mem_toList.mpr hid

-- the registers of the range are older than those of the counter
theorem NumericFor.not_counter (L : NumericFor) :
    L.endReg ∉ [L.newValReg, L.loopVarReg] ∧ L.stepReg ∉ [L.newValReg, L.loopVarReg] := by
  obtain ⟨-, h₂, h₃⟩ := L.fresh
  have h₄ := L.var_lt_newVal
  simp only [List.mem_cons, List.not_mem_nil, or_false]
  unfold NumericFor.loopVarReg at h₄ ⊢
  omega

-- the counter goes on from whatever the loop variable holds
theorem runs_latch {s' : View W} (hplace : L.gen after <:+ code) (hagree : Agree L.own s' t.toView)
    (hheld : L.Held R t) (hvar : t.frame.registers L.loopVarReg = some (R.value k))
    (hrange : -2 ^ 63 ≤ counterAt R.start R.step (k + 1) ∧
        counterAt R.start R.step (k + 1) < 2 ^ 63) :
    ∃ t', (loopMachine E H B (L.context E owners)).Runs code (L.latch after) t []
      (L.head after) t' ∧
      L.AtHead R after (k + 1) s' (L.head after) t' := by
  let t₁ := t.assign L.newValReg (R.value (k + 1))
  have hwrites : Writes [L.newValReg, L.loopVarReg] t (t₁.assign L.loopVarReg (R.value (k + 1))) :=
    ((Writes.refl _ t).assign (by simp)).assign (by simp)
  refine ⟨t₁.assign L.loopVarReg (R.value (k + 1)), ?_, rfl, ?_, ?_, LoopState.assign_same, hrange⟩
  · exact .next (exec_label _ _)
      (.next (exec_count R _ hvar hheld.step) (.next (exec_move _ LoopState.assign_same)
      (.goto (exec_jump _ _) rfl (NumericFor.head_suffix hplace) (.refl _ _))))
  · refine (hagree.mono (List.subset_cons_self _ _)).writes hwrites ?_
    rw [List.cons_subset]
    exact ⟨List.mem_cons_of_mem _ L.mem_own.2.2, by simp⟩
  · exact hheld.writes hwrites L.not_counter.1 L.not_counter.2

theorem NumericFor.lowering (hlabels : (code.filterMap (slotLabel E.program.strings)).Nodup)
    (hplace : L.gen after <:+ code) (hspares : B.Spares (L.context E owners))
    (hfloat : L.floatLoop = false)
    (hconst : ∀ positive ∈ L.constant, positive = decide (0 ≤ R.step)) :
    Lowering E H B (L.context E owners) code after (L.loopVarReg :: L.own) (L.latch after)
      (L.exit after)
      (rangeEnter L.loopVarReg R.start R.stop R.step) (B.Keeping L.loopVarReg) (L.AtHead R after)
        (L.InBody R) where
  labels := hlabels
  inside := (List.suffix_cons _ _).trans (branch_suffix hplace)
  continues := ⟨_, _, rfl, rfl⟩
  breaks := ⟨_, _, rfl, rfl⟩
  outside := exit_suffix hplace
  own_gone := List.subset_cons_self _ _
  body_runs h := h.1
  spares := hspares
  head_place h := h.place ▸ head_suffix hplace
  enters := by
    intro k s s' rest t h henter
    rw [R.enter_eq] at henter
    split at henter
    · rename_i hbefore
      cases henter
      obtain ⟨t', hruns, hwrites, hcond⟩ := runs_head hplace hfloat hconst h
      have hvar : t'.frame.registers L.loopVarReg = some (R.value k) :=
        (hwrites.registers _ L.var_not_test).trans h.counter
      have hagree : Agree (L.loopVarReg :: L.own) s t'.toView :=
        h.agree.writes hwrites fun r hr => List.mem_cons_of_mem _ (L.own_of_test hr)
      rw [decide_eq_true hbefore] at hcond
      refine ⟨t', hruns.trans (.next (exec_branchZero_falls _ _ hcond rfl) (.refl _ _)),
        hagree.catch_up hvar, ?_⟩
      exact ⟨h.held.writes hwrites L.test_not_end.1 L.test_not_end.2, if_pos rfl, hbefore⟩
    · cases henter
  ends := by
    intro k s rest t h henter
    rw [R.enter_eq] at henter
    split at henter
    · cases henter
    · rename_i hbefore
      obtain ⟨t', hruns, hwrites, hcond⟩ := runs_head hplace hfloat hconst h
      rw [decide_eq_false hbefore] at hcond
      have hmarked := (h.held.writes hwrites L.test_not_end.1 L.test_not_end.2).marked
      refine ⟨t'.release (L.context E owners) L.scope,
        hruns.trans (.goto (exec_branchZero_goes _ _ hcond rfl) rfl
        (exit_suffix hplace) (.next (exec_label _ _) (run_release hmarked (.refl _ _)))), ?_⟩
      rw [LoopState.release_view]
      exact h.agree.writes hwrites fun r hr => List.mem_cons_of_mem _ (L.own_of_test hr)
  again := by
    intro k s t os s' u hin hbody hpassed
    have hvar : u.frame.registers L.loopVarReg = some (R.value k) := by
      rw [← hpassed.agree.registers _ L.var_not_own, hbody.2 rfl, hin.counter]
    obtain ⟨t', hruns, hhead⟩ := runs_latch hplace hpassed.agree (hin.held.passed hpassed) hvar
      (R.bounded k hin.before)
    exact ⟨L.head after, t', hruns, hhead⟩
  exits := by
    intro k s t s' u hin hpassed
    refine ⟨u.release (L.context E owners) L.scope, ?_, ?_⟩
    · exact .next (exec_label _ _) (run_release (hin.held.passed hpassed).marked (.refl _ _))
    · rw [LoopState.release_view]
      exact hpassed.agree.mono (List.subset_cons_self _ _)

theorem IntegerRange.value_zero (R : IntegerRange) : R.value 0 = .int R.start := by
  unfold IntegerRange.value counterAt
  simp

theorem runs_start {t₀ : LoopState W} (h : L.Loaded R t₀) :
    ∃ t, (loopMachine E H B (L.context E owners)).Runs code (L.gen after) t₀ [] (L.head after) t ∧
      L.AtHead R after 0 t₀.toView (L.head after) t := by
  let t₁ := t₀.assign L.loopVarReg (.int R.start)
  have hwrites : Writes [L.newValReg, L.loopVarReg] t₀ t₁ := (Writes.refl _ t₀).assign (by simp)
  refine ⟨t₁.mark L.scope, .next (exec_move _ h.start) (run_openScope (.refl _ _)), rfl, ?_,
    ⟨?_, ?_, t₁.marked_mark _⟩, ?_, ?_⟩
  · rw [LoopState.mark_view]
    exact (Agree.refl _).writes ((Writes.refl _ t₀).assign (List.mem_singleton_self _)) (by simp)
  · rw [LoopState.mark_view, hwrites.registers _ L.not_counter.1, h.stop]
  · rw [LoopState.mark_view, hwrites.registers _ L.not_counter.2, h.step]
  · rw [LoopState.mark_view, R.value_zero]
    exact LoopState.assign_same
  · have hle := R.start.le_toInt
    have hlt := R.start.toInt_lt
    unfold counterAt
    omega

theorem NumericFor.follows {t₀ : LoopState W}
    (hlabels : (code.filterMap (slotLabel E.program.strings)).Nodup) (hplace : L.gen after <:+ code)
    (hspares : B.Spares (L.context E owners)) (h : L.Loaded R t₀) :
    Follows E H B (L.context E owners) code after (L.loopVarReg :: L.own) (L.gen after)
      (L.latch after)
      (rangeEnter L.loopVarReg R.start R.stop R.step) (B.Keeping L.loopVarReg) t₀.toView t₀ := by
  obtain ⟨t, hruns, hhead⟩ := runs_start h
  exact (NumericFor.lowering hlabels hplace hspares h.integers h.constant).follows hplace hruns hhead

end Lowering

end Codegen
