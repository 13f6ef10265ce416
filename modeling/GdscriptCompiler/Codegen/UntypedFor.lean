import GdscriptCompiler.Codegen.NumericFor

/-!
# UntypedFor — `gen_for` on an iterable of unknown type

An integer takes the same way through the type tests on every pass.
-/

namespace Codegen

open Ir Lib

/-! ## 1. The code -/

-- `Variant::Type` as an immediate
def tagFloat : Int64 := 3
def tagInt : Int64 := 2
def tagString : Int64 := 4
def tagDictionary : Int64 := 27
def tagArray : Int64 := 28

def dictOpGetKeys : Int64 := 4

-- the labels of `emit_four_way`
structure FourWay where
  join : Nat
  notInt : Nat
  notArray : Nat
  generic : Nat

structure UntypedFor where
  arrayReg : Int
  -- `next_register` after the iterable, and after the body
  nextRegister : Int
  afterBody : Int
  scope : Option Int64
  notFloatLabel : Nat
  notDictLabel : Nat
  loopLabel : Nat
  continueLabel : Nat
  endLabel : Nat
  size : FourWay
  elem : FourWay
  floatCounterLabel : Nat
  counterDoneLabel : Nat
  -- `GlobalFn::CEILF`, and the method names of the generic arm
  ceilf : Int64
  sizeName : Nat
  getName : Nat
  fresh : arrayReg < nextRegister
  later : nextRegister + 14 ≤ afterBody

namespace UntypedFor

variable (L : UntypedFor)

def isFloatReg : Int := L.nextRegister
def asFloatReg : Int := L.nextRegister + 1
def ceiledReg : Int := L.nextRegister + 2
def boundReg : Int := L.nextRegister + 3
def isIntReg : Int := L.nextRegister + 4
def isDictReg : Int := L.nextRegister + 5
def keysReg : Int := L.nextRegister + 6
def isArrayReg : Int := L.nextRegister + 7
def isStringReg : Int := L.nextRegister + 8
def indexReg : Int := L.nextRegister + 9
def oneReg : Int := L.nextRegister + 10
def sizeReg : Int := L.nextRegister + 11
def condReg : Int := L.nextRegister + 12
def elemReg : Int := L.nextRegister + 13
def newIdxReg : Int := L.afterBody

def own : List Int :=
  [L.arrayReg, L.isFloatReg, L.asFloatReg, L.ceiledReg, L.boundReg, L.isIntReg, L.isDictReg, L.keysReg,
    L.isArrayReg, L.isStringReg, L.indexReg, L.oneReg, L.sizeReg, L.condReg, L.newIdxReg]

-- the arms after that of an integer, which are jumped over
def otherArms (labels : FourWay) (arrayArm stringArm genericArm rest : List Slot) : List Slot :=
  ins .jump [.label labels.join] ::
  ins .label [.label labels.notInt] ::
  ins .branchZero [.reg L.isArrayReg, .label labels.notArray] Variant.bool ::
    (arrayArm ++
      (ins .jump [.label labels.join] ::
        ins .label [.label labels.notArray] ::
        ins .branchZero [.reg L.isStringReg, .label labels.generic] Variant.bool ::
        (stringArm ++
          (ins .jump [.label labels.join] ::
            ins .label [.label labels.generic] ::
            (genericArm ++ (ins .label [.label labels.join] :: rest))))))

def emitFourWay (labels : FourWay) (intArm arrayArm stringArm genericArm rest : List Slot) :
    List Slot :=
  ins .branchZero [.reg L.isIntReg, .label labels.notInt] Variant.bool ::
    (intArm ++ L.otherArms labels arrayArm stringArm genericArm rest)

def exit (after : List Slot) : List Slot :=
  ins .label [.label L.endLabel] :: (emitScopeRelease L.scope ++ after)

def latch (after : List Slot) : List Slot :=
  ins .label [.label L.continueLabel] ::
  ins .add [.reg L.newIdxReg, .reg L.indexReg, .reg L.oneReg] Variant.int ::
  ins .move [.reg L.indexReg, .reg L.newIdxReg] ::
  ins .jump [.label L.loopLabel] :: L.exit after

-- the element: an integer counter is the index, a float one its conversion
def element (after : List Slot) : List Slot :=
  L.emitFourWay L.elem
    [ins .branchNotZero [.reg L.isFloatReg, .label L.floatCounterLabel] Variant.bool,
      ins .move [.reg L.elemReg, .reg L.indexReg],
      ins .jump [.label L.counterDoneLabel],
      ins .label [.label L.floatCounterLabel],
      ins .convert [.reg L.elemReg, .reg L.indexReg, .imm tagInt] Variant.float,
      ins .label [.label L.counterDoneLabel]]
    [ins .callSyscall [.reg L.elemReg, .imm ecallArrayAt, .reg L.arrayReg, .reg L.indexReg]]
    [ins .callSyscall [.reg L.elemReg, .imm ecallStringAt, .reg L.arrayReg, .reg L.indexReg]]
    [ins .vcall [.reg L.elemReg, .reg L.arrayReg, .str L.getName, .imm 1, .reg L.indexReg]]
    (.body :: L.latch after)

def test (after : List Slot) : List Slot :=
  ins .cmpLt [.reg L.condReg, .reg L.indexReg, .reg L.sizeReg] Variant.int ::
  ins .branchZero [.reg L.condReg, .label L.endLabel] Variant.bool :: L.element after

def head (after : List Slot) : List Slot :=
  ins .label [.label L.loopLabel] ::
    (emitScopeRelease L.scope ++
      L.emitFourWay L.size
        [ins .move [.reg L.sizeReg, .reg L.arrayReg]]
        [ins .callSyscall [.reg L.sizeReg, .imm ecallArraySize, .reg L.arrayReg] Variant.int]
        [ins .callSyscall [.reg L.sizeReg, .imm ecallStringSize, .reg L.arrayReg] Variant.int]
        [ins .vcall [.reg L.sizeReg, .reg L.arrayReg, .str L.sizeName, .imm 0]]
        (L.test after))

/-- `gen_dictionary_keys_for_iteration`: a Dictionary is replaced by its keys. -/
def keys (rest : List Slot) : List Slot :=
  ins .typeTest [.reg L.isDictReg, .reg L.arrayReg, .imm tagDictionary] ::
  ins .branchZero [.reg L.isDictReg, .label L.notDictLabel] Variant.bool ::
  ins .callSyscall [.reg L.keysReg, .imm ecallDictionaryOps, .imm dictOpGetKeys, .reg L.arrayReg]
    Variant.array ::
  ins .move [.reg L.arrayReg, .reg L.keysReg] ::
  ins .label [.label L.notDictLabel] :: rest

-- what is computed once, up to the loop
def setUp (after : List Slot) : List Slot :=
  ins .typeTest [.reg L.isArrayReg, .reg L.arrayReg, .imm tagArray] ::
  ins .typeTest [.reg L.isStringReg, .reg L.arrayReg, .imm tagString] ::
  ins .loadImm [.reg L.indexReg, .imm 0] Variant.int ::
  ins .loadImm [.reg L.oneReg, .imm 1] Variant.int :: (openScope L.scope ++ L.head after)

-- a float bound becomes the integer above it
def gen (after : List Slot) : List Slot :=
  ins .typeTest [.reg L.isFloatReg, .reg L.arrayReg, .imm tagFloat] ::
  ins .branchZero [.reg L.isFloatReg, .label L.notFloatLabel] Variant.bool ::
  ins .move [.reg L.asFloatReg, .reg L.arrayReg] ::
  ins .globalCall [.reg L.ceiledReg, .imm L.ceilf, .imm 1, .imm 1, .reg L.asFloatReg] Variant.float ::
  ins .convert [.reg L.boundReg, .reg L.ceiledReg, .imm tagFloat] Variant.int ::
  ins .move [.reg L.arrayReg, .reg L.boundReg] ::
  ins .label [.label L.notFloatLabel] ::
  ins .typeTest [.reg L.isIntReg, .reg L.arrayReg, .imm tagInt] :: L.keys (L.setUp after)

def context (E : Env) (batchScopes : List (Int64 × Int64)) : LoopContext where
  continueLabel := E.program.strings.nameOf L.continueLabel
  breakLabel := E.program.strings.nameOf L.endLabel
  scopes := L.scope.toList
  buffers := []
  codepoints := []
  batchScopes

end UntypedFor

/-! ## 2. The way of an integer -/

section Lowering

variable {W : Type} {E : Env} {H : Host W} {L : UntypedFor} {B : LoopBody W L.own} {n : Int64}
  {code after rest : List Slot} {s : View W} {t t' : LoopState W} {k : Nat}
  {owners : List (Int64 × Int64)}

theorem suffix_of_append {α : Type} {xs ys zs : List α} (h : xs ++ ys <:+ zs) : ys <:+ zs :=
  (List.suffix_append xs ys).trans h

theorem suffix_of_cons {α : Type} {x : α} {ys zs : List α} (h : x :: ys <:+ zs) : ys <:+ zs :=
  (List.suffix_cons x ys).trans h

variable {labels : FourWay} {arrayArm stringArm genericArm : List Slot}

theorem UntypedFor.join_suffix
    (h : L.otherArms labels arrayArm stringArm genericArm rest <:+ code) :
    ins .label [.label labels.join] :: rest <:+ code := by
  have h₁ := suffix_of_append (suffix_of_cons (suffix_of_cons (suffix_of_cons h)))
  have h₂ := suffix_of_append (suffix_of_cons (suffix_of_cons (suffix_of_cons h₁)))
  exact suffix_of_append (suffix_of_cons (suffix_of_cons h₂))

theorem runs_fourWay {intArm : List Slot} (hint : t.frame.registers L.isIntReg = some (.bool true))
    (hplace : L.emitFourWay labels intArm arrayArm stringArm genericArm rest <:+ code)
    (harm : (loopMachine E H B (L.context E owners)).Runs code
      (intArm ++ L.otherArms labels arrayArm stringArm genericArm rest) t []
      (L.otherArms labels arrayArm stringArm genericArm rest) t') :
    (loopMachine E H B (L.context E owners)).Runs code
      (L.emitFourWay labels intArm arrayArm stringArm genericArm rest) t [] rest t' := by
  have hjoin := UntypedFor.join_suffix (suffix_of_append (suffix_of_cons hplace))
  refine .next (exec_branchZero_falls _ _ hint rfl) (harm.trans ?_)
  exact .goto (exec_jump _ _) rfl hjoin (.next (exec_label _ _) (.refl _ _))

structure UntypedFor.Held (L : UntypedFor) (n : Int64) (t : LoopState W) : Prop where
  bound : t.frame.registers L.arrayReg = some (.int n)
  isFloat : t.frame.registers L.isFloatReg = some (.bool false)
  isInt : t.frame.registers L.isIntReg = some (.bool true)
  one : t.frame.registers L.oneReg = some (.int 1)
  marked : t.memory.Marked L.scope

-- the registers an iteration writes
def UntypedFor.passRegs (L : UntypedFor) : List Int :=
  [L.sizeReg, L.condReg, L.elemReg, L.newIdxReg, L.indexReg]

theorem UntypedFor.Held.writes (h : L.Held n t) (hw : Writes L.passRegs t t') : L.Held n t' := by
  have hfresh := L.fresh
  have hlater := L.later
  have hkept : ∀ r ∈ [L.arrayReg, L.isFloatReg, L.isIntReg, L.oneReg], r ∉ L.passRegs := by
    simp only [passRegs, sizeReg, condReg, elemReg, newIdxReg, indexReg, isFloatReg, isIntReg, oneReg,
      List.mem_cons, List.not_mem_nil, or_false]
    omega
  simp only [List.forall_mem_cons] at hkept
  exact ⟨(hw.registers _ hkept.1).trans h.bound, (hw.registers _ hkept.2.1).trans h.isFloat,
    (hw.registers _ hkept.2.2.1).trans h.isInt, (hw.registers _ hkept.2.2.2.1).trans h.one,
    h.marked.writes hw⟩

theorem UntypedFor.Held.passed {s' : View W} (h : L.Held n t)
    (hpassed : Passed L.own (L.context E owners) t t' s') :
    L.Held n t' where
  bound := (hpassed.kept _ (by simp [own])).trans h.bound
  isFloat := (hpassed.kept _ (by simp [own])).trans h.isFloat
  isInt := (hpassed.kept _ (by simp [own])).trans h.isInt
  one := (hpassed.kept _ (by simp [own])).trans h.one
  marked := h.marked.spared hpassed.spared fun _ hid => Option.mem_toList.mpr hid

/-! ## 3. Its iterations -/

theorem counterAt_upTo (k : Nat) : counterAt 0 1 k = k := by
  change (0 : Int) + k * 1 = k
  omega

theorem one_step : (1 : Int64) ≠ 0 := by decide

theorem noOverflow_upTo (n : Int64) : NoOverflow 0 n 1 := by
  intro k hbefore
  have hn := n.toInt_lt
  have hone : (1 : Int64).toInt = 1 := rfl
  rw [counterAt_upTo, Before, hone] at hbefore
  rw [counterAt_upTo]
  push_cast
  omega

def IntegerRange.upTo (n : Int64) : IntegerRange where
  start := 0
  stop := n
  step := 1
  nonzero := one_step
  bounded := noOverflow_upTo n

structure UntypedFor.AtHead (L : UntypedFor) (n : Int64) (after : List Slot) (k : Nat) (s : View W)
    (rest : List Slot) (t : LoopState W) : Prop where
  place : rest = L.head after
  agree : Agree L.own s t.toView
  held : L.Held n t
  index : t.frame.registers L.indexReg = some ((IntegerRange.upTo n).value k)
  inRange : -2 ^ 63 ≤ counterAt 0 1 k ∧ counterAt 0 1 k < 2 ^ 63

structure UntypedFor.InBody (L : UntypedFor) (n : Int64) (k : Nat) (s : View W) (t : LoopState W) :
    Prop where
  held : L.Held n t
  index : t.frame.registers L.indexReg = some ((IntegerRange.upTo n).value k)
  before : Before 1 (counterAt 0 1 k) n.toInt

section

variable (h : L.gen after <:+ code)
include h

theorem UntypedFor.head_suffix : L.head after <:+ code :=
  suffix_of_append ((List.drop_suffix 17 (L.gen after)).trans h)

theorem UntypedFor.test_suffix : L.test after <:+ code :=
  suffix_of_cons (join_suffix
    (suffix_of_append (suffix_of_cons (suffix_of_append (suffix_of_cons (head_suffix h))))))

theorem UntypedFor.element_suffix : L.element after <:+ code :=
  suffix_of_cons (suffix_of_cons (test_suffix h))

-- the end of `emit_four_way` for the element, and the body
theorem UntypedFor.joined_suffix :
    ins .label [.label L.elem.join] :: .body :: L.latch after <:+ code :=
  join_suffix (suffix_of_append (suffix_of_cons (element_suffix h)))

theorem UntypedFor.exit_suffix : L.exit after <:+ code :=
  (List.drop_suffix 6 (_ :: .body :: L.latch after)).trans (joined_suffix h)

end

theorem UntypedFor.index_ne (L : UntypedFor) :
    L.indexReg ≠ L.sizeReg ∧ L.indexReg ≠ L.condReg ∧ L.indexReg ≠ L.elemReg := by
  unfold indexReg sizeReg condReg elemReg
  omega

theorem runs_untyped_head (hplace : L.gen after <:+ code) (h : L.AtHead n after k s rest t) :
    ∃ t', (loopMachine E H B (L.context E owners)).Runs code rest t [] ((L.test after).tail) t' ∧
      Writes [L.sizeReg, L.condReg] t t' ∧
      t'.frame.registers L.condReg =
        some (intOfBool (decide (Before 1 (counterAt 0 1 k) n.toInt))) := by
  let t₀ := t.release (L.context E owners) L.scope
  let t₁ := t₀.assign L.sizeReg (.int n)
  have hview : t₀.toView = t.toView := t.release_view _ _
  have hindex : t₁.frame.registers L.indexReg = some ((IntegerRange.upTo n).value k) := by
    rw [LoopState.assign_other L.index_ne.1, hview, h.index]
  have hcond : compareInts (Int64.ofInt (counterAt 0 1 k)) n .cmpLt = decide
    (Before 1 (counterAt 0 1 k) n.toInt) := by
    have hbefore : decide (Before (1 : Int64).toInt (Int64.ofInt (counterAt 0 1 k)).toInt n.toInt) =
        decide (Int64.ofInt (counterAt 0 1 k) < n) := before_of_nonneg (by decide) (by decide)
    rw [Int64.toInt_ofInt_of_le h.inRange.1 h.inRange.2] at hbefore
    exact hbefore.symm
  have hsize := suffix_of_append (suffix_of_cons (UntypedFor.head_suffix hplace))
  refine ⟨t₁.assign L.condReg (intOfBool (decide (Before 1 (counterAt 0 1 k) n.toInt))), ?_,
    ((Writes.release t _ _).assign (by simp)).assign (by simp), LoopState.assign_same⟩
  rw [h.place, ← hcond]
  refine .next (exec_label _ _) (run_release h.held.marked ((runs_fourWay (hview ▸ h.held.isInt) hsize
    (.next (exec_move _ (hview ▸ h.held.bound)) (.refl _ _))).trans ?_))
  exact .next (exec_compare _ (by decide) hindex LoopState.assign_same) (.refl _ _)

-- the element of an integer walk is its index
theorem runs_untyped_element {v : Value} (hplace : L.gen after <:+ code) (h : L.Held n t)
    (hindex : t.frame.registers L.indexReg = some v) :
    (loopMachine E H B (L.context E owners)).Runs code (L.element after) t []
      (.body :: L.latch after)
      (t.assign L.elemReg v) := by
  have helement := UntypedFor.element_suffix hplace
  have hdone := (List.drop_suffix 6 (L.element after)).trans helement
  refine runs_fourWay h.isInt helement ?_
  refine .next (exec_branchNotZero_falls _ _ h.isFloat rfl) (.next (exec_move _ hindex) ?_)
  exact .goto (exec_jump _ _) rfl hdone (.next (exec_label _ _) (.refl _ _))

theorem rangeEnter_upTo (var : Int) (n : Int64) (k : Nat) (s : View W) :
    rangeEnter var 0 n 1 k s = if Before 1 (counterAt 0 1 k) n.toInt then
      some (s.assign var ((IntegerRange.upTo n).value k)) else none := rfl

theorem UntypedFor.lowering (hlabels : (code.filterMap (slotLabel E.program.strings)).Nodup)
    (hplace : L.gen after <:+ code) (hspares : B.Spares (L.context E owners)) :
    Lowering E H B (L.context E owners) code after (L.elemReg :: L.own) (L.latch after)
      (L.exit after)
      (rangeEnter L.elemReg 0 n 1) B.Leaves (L.AtHead n after) (L.InBody n) where
  labels := hlabels
  inside := suffix_of_cons (joined_suffix hplace)
  continues := ⟨_, _, rfl, rfl⟩
  breaks := ⟨_, _, rfl, rfl⟩
  outside := exit_suffix hplace
  own_gone := List.subset_cons_self _ _
  body_runs h := h
  spares := hspares
  head_place h := h.place ▸ head_suffix hplace
  enters := by
    intro k s s' rest t h henter
    rw [rangeEnter_upTo] at henter
    split at henter
    · rename_i hbefore
      cases henter
      obtain ⟨t', hruns, hwrites, hcond⟩ := runs_untyped_head hplace h
      have hheld : L.Held n t' := h.held.writes (hwrites.mono (by simp [passRegs]))
      have hindex : t'.frame.registers L.indexReg = some ((IntegerRange.upTo n).value k) :=
        (hwrites.registers _ (by simp [L.index_ne.1, L.index_ne.2.1])).trans h.index
      rw [decide_eq_true hbefore] at hcond
      refine ⟨t'.assign L.elemReg ((IntegerRange.upTo n).value k), hruns.trans
        (.next (exec_branchZero_falls _ _ hcond rfl) (runs_untyped_element hplace hheld hindex)),
        ?_, ?_, ?_, hbefore⟩
      · exact (h.agree.writes hwrites (by simp [own])).assign
      · exact hheld.writes ((Writes.refl _ t').assign (by simp [passRegs]))
      · rw [LoopState.assign_other L.index_ne.2.2, hindex]
    · cases henter
  ends := by
    intro k s rest t h henter
    rw [rangeEnter_upTo] at henter
    split at henter
    · cases henter
    · rename_i hbefore
      obtain ⟨t', hruns, hwrites, hcond⟩ := runs_untyped_head hplace h
      have hheld : L.Held n t' := h.held.writes (hwrites.mono (by simp [passRegs]))
      rw [decide_eq_false hbefore] at hcond
      refine ⟨t'.release (L.context E owners) L.scope,
        hruns.trans (.goto (exec_branchZero_goes _ _ hcond rfl) rfl
        (exit_suffix hplace) (.next (exec_label _ _) (run_release hheld.marked (.refl _ _)))), ?_⟩
      rw [LoopState.release_view]
      exact (h.agree.writes hwrites (by simp [own])).mono (List.subset_cons_self _ _)
  again := by
    intro k s t os s' t₁ hin hbody hpassed
    let t₂ := t₁.assign L.newIdxReg ((IntegerRange.upTo n).value (k + 1))
    have hheld : L.Held n t₁ := hin.held.passed hpassed
    have hindex : t₁.frame.registers L.indexReg = some ((IntegerRange.upTo n).value k) :=
      (hpassed.kept _ (by simp [own])).trans hin.index
    have hwrites : Writes [L.newIdxReg, L.indexReg] t₁
        (t₂.assign L.indexReg ((IntegerRange.upTo n).value (k + 1))) :=
      ((Writes.refl _ t₁).assign (by simp)).assign (by simp)
    refine ⟨L.head after, t₂.assign L.indexReg ((IntegerRange.upTo n).value (k + 1)), ?_, rfl, ?_, ?_,
      LoopState.assign_same, (IntegerRange.upTo n).bounded k hin.before⟩
    · exact .next (exec_label _ _) (.next (exec_count (IntegerRange.upTo n) _ hindex hheld.one)
        (.next (exec_move _ LoopState.assign_same)
        (.goto (exec_jump _ _) rfl (head_suffix hplace) (.refl _ _))))
    · exact Agree.writes (t := t₁) hpassed.agree hwrites (by simp [own])
    · exact hheld.writes (hwrites.mono (by simp [passRegs]))
  exits := by
    intro k s t s' u hin hpassed
    refine ⟨u.release (L.context E owners) L.scope, ?_, ?_⟩
    · exact .next (exec_label _ _) (run_release (hin.held.passed hpassed).marked (.refl _ _))
    · rw [LoopState.release_view]
      exact hpassed.agree.mono (List.subset_cons_self _ _)

theorem UntypedFor.follows {t₀ : LoopState W}
    (hlabels : (code.filterMap (slotLabel E.program.strings)).Nodup) (hplace : L.gen after <:+ code)
    (hspares : B.Spares (L.context E owners))
    (hbound : t₀.frame.registers L.arrayReg = some (.int n)) :
    Follows E H B (L.context E owners) code after (L.elemReg :: L.own) (L.gen after) (L.latch after)
      (rangeEnter L.elemReg 0 n 1) B.Leaves t₀.toView t₀ := by
  have hfresh := L.fresh
  have hnotFloat := (List.drop_suffix 6 (L.gen after)).trans hplace
  have hnotDict := (List.drop_suffix 12 (L.gen after)).trans hplace
  -- the state after each of the tests
  let t₁ := t₀.assign L.isFloatReg (.bool false)
  let t₂ := t₁.assign L.isIntReg (.bool true)
  let t₃ := t₂.assign L.isDictReg (.bool false)
  let t₄ := t₃.assign L.isArrayReg (.bool false)
  let t₅ := t₄.assign L.isStringReg (.bool false)
  let t₆ := (t₅.assign L.indexReg (.int 0)).assign L.oneReg (.int 1)
  have hne : ∀ r ∈ [L.isFloatReg, L.isIntReg, L.isDictReg, L.isArrayReg, L.isStringReg, L.indexReg,
    L.oneReg],
      L.arrayReg ≠ r := by
    simp only [isFloatReg, isIntReg, isDictReg, isArrayReg, isStringReg, indexReg, oneReg, List.mem_cons,
      List.not_mem_nil, or_false]
    omega
  simp only [List.forall_mem_cons] at hne
  obtain ⟨hne₁, hne₂, hne₃, hne₄, hne₅, hne₆, hne₇, -⟩ := hne
  have hbound₁ : t₁.frame.registers L.arrayReg = some (.int n) :=
    (LoopState.assign_other hne₁).trans hbound
  have hbound₂ : t₂.frame.registers L.arrayReg = some (.int n) :=
    (LoopState.assign_other hne₂).trans hbound₁
  have hbound₃ : t₃.frame.registers L.arrayReg = some (.int n) :=
    (LoopState.assign_other hne₃).trans hbound₂
  have hbound₄ : t₄.frame.registers L.arrayReg = some (.int n) :=
    (LoopState.assign_other hne₄).trans hbound₃
  have hruns : (loopMachine E H B (L.context E owners)).Runs code (L.gen after) t₀ [] (L.head after)
    (t₆.mark L.scope) := by
    refine .next (exec_typeTest _ _ hbound)
      (.goto (exec_branchZero_goes _ _ LoopState.assign_same rfl) rfl
      hnotFloat (.next (exec_label _ _) (.next (exec_typeTest _ _ hbound₁) ?_)))
    refine .next (exec_typeTest _ _ hbound₂)
      (.goto (exec_branchZero_goes _ _ LoopState.assign_same rfl) rfl
      hnotDict (.next (exec_label _ _) ?_))
    exact .next (exec_typeTest _ _ hbound₃) (.next (exec_typeTest _ _ hbound₄) (.next (exec_load _ _ _)
      (.next (exec_load _ _ _) (run_openScope (.refl _ _)))))
  have hwrites : Writes [L.isFloatReg, L.isIntReg, L.isDictReg, L.isArrayReg, L.isStringReg,
      L.indexReg, L.oneReg] t₀ t₆ :=
    (((((((Writes.refl _ t₀).assign (by simp)).assign (by simp)).assign (by simp)).assign
      (by simp)).assign (by simp)).assign (by simp)).assign (by simp)
  refine (UntypedFor.lowering hlabels hplace hspares).follows hplace hruns
    ⟨rfl, ?_, ⟨?_, ?_, ?_, ?_, t₆.marked_mark _⟩, ?_, ?_⟩
  · rw [LoopState.mark_view]
    exact (Agree.refl _).writes hwrites (by simp [own])
  · rw [LoopState.mark_view, hwrites.registers _ (by simp [*]), hbound]
  · rw [LoopState.mark_view]
    simp [t₆, t₅, t₄, t₃, t₂, t₁, isFloatReg, isIntReg, isDictReg, isArrayReg, isStringReg,
      indexReg, oneReg]
  · rw [LoopState.mark_view]
    simp [t₆, t₅, t₄, t₃, t₂, isIntReg, isDictReg, isArrayReg, isStringReg, indexReg, oneReg]
  · rw [LoopState.mark_view]
    exact LoopState.assign_same
  · rw [LoopState.mark_view, IntegerRange.value_zero]
    simp [t₆, indexReg, oneReg, IntegerRange.upTo]
  · rw [counterAt_upTo]
    decide

end Lowering

/-! ## 4. Both lowerings -/

/-- Iteration `k` starts with `start + k * step` and there is one as long as that is before the end:
counting in a register of its own for every body, counting in the loop variable for the iterations
that leave it alone. -/
theorem for_loops_follow_range {W : Type} (E : Env) (H : Host W) (code after : List Slot)
    (owners : List (Int64 × Int64))
    (hlabels : (code.filterMap (slotLabel E.program.strings)).Nodup) :
    (∀ (L : NumericFor) (B : LoopBody W L.own) (R : IntegerRange) (t₀ : LoopState W),
        L.gen after <:+ code →
      B.Spares (L.context E owners) → L.Loaded R t₀ →
      Follows E H B (L.context E owners) code after (L.loopVarReg :: L.own) (L.gen after)
        (L.latch after)
        (rangeEnter L.loopVarReg R.start R.stop R.step) (B.Keeping L.loopVarReg) t₀.toView t₀) ∧
    ∀ (L : UntypedFor) (B : LoopBody W L.own) (n : Int64) (t₀ : LoopState W), L.gen after <:+ code →
      B.Spares (L.context E owners) → t₀.frame.registers L.arrayReg = some (.int n) →
      Follows E H B (L.context E owners) code after (L.elemReg :: L.own) (L.gen after)
        (L.latch after)
        (rangeEnter L.elemReg 0 n 1) B.Leaves t₀.toView t₀ :=
  ⟨fun _ _ _ _ hplace hspares h => NumericFor.follows hlabels hplace hspares h,
    fun _ _ _ _ hplace hspares hbound => UntypedFor.follows hlabels hplace hspares hbound⟩

/-! ### A body that assigns the loop variable -/

-- only the names of the labels matter
def labelEnv (strings : StringTable) : Env where
  program := { functions := [], strings, stringConstants := [], globals := [] }
  table := noGlobals
  call _ _ globals := (.error .malformed, globals)
  name := ""

/-- `for i in range(2)`. -/
def rangeTwo : NumericFor where
  startReg := 0
  endReg := 1
  stepReg := 2
  nextRegister := 3
  afterBody := 7
  scope := some 0
  floatLoop := false
  emitted := [{ opcode := .loadImm, operands := [.reg 0, .imm 0] },
    { opcode := .loadImm, operands := [.reg 1, .imm 2] },
    { opcode := .loadImm, operands := [.reg 2, .imm 1] }]
  loopLabel := 0
  continueLabel := 1
  endLabel := 2
  posStepLabel := 3
  checkCondLabel := 4
  fresh := by decide
  later := by decide

/-- Notes `i` in a member, then adds to it. -/
def noteAndAdd (var : Int) (own : List Int) (hvar : var ∉ own) (amount : Int64) :
    LoopBody Unit own where
  run s := match s.frame.registers var with
    | some (.int v) => some ([.store 0 (.int v)], s.assign var (.int (v + amount)), .falls)
    | _ => none
  -- makes a scoped value and leaves it behind
  memory _ m := { m with clock := m.clock + 1, scopedValues := fun i =>
    (m.scopedValues i).or (if i = -1 then some (m.clock, .int amount) else none) }
  keeps := by
    intro s os s' x hrun r hr
    split at hrun
    · cases hrun
      have hne : r ≠ var := fun heq => hvar (heq ▸ hr)
      exact if_neg hne
    · cases hrun
  blind := by
    intro s t os s' x hagree hrun
    rw [hagree.registers var hvar] at hrun
    split at hrun
    · rename_i v hv
      cases hrun
      refine ⟨t.assign var (.int (v + amount)), rfl, hagree.world, hagree.globals, fun r hr => ?_⟩
      change (if r = var then _ else _) = (if r = var then _ else _)
      split
      · rfl
      · exact hagree.registers r hr
    · cases hrun

theorem noteAndAdd_spares (var : Int) (own : List Int) (hvar : var ∉ own) (amount : Int64)
    (loop : LoopContext) :
    (noteAndAdd var own hvar amount).Spares loop := by
  refine fun s memory => ⟨fun _ _ => rfl, fun _ _ => rfl, fun _ _ => rfl, fun i p h => ?_⟩
  change (memory.scopedValues i).or _ = _
  rw [h]
  rfl

-- the registers of `range(2)` before the loop
def rangeTwoLoaded : LoopState Unit where
  frame :=
    { registers := fun r => if r = 0 then some (.int 0) else if r = 1 then some (.int 2) else
        if r = 2 then some (.int 1) else none
      globals := [.nil] }
  world := ()
  memory :=
    { clock := 0, marks := fun _ => none, buffers := fun _ => [], codepoints := fun _ => []
      scopedValues := fun _ => none }

def loopNames : StringTable :=
  ⟨["for_loop_0", "for_continue_1", "for_end_2", "for_pos_step_3", "for_check_cond_4"], by decide⟩

def skipping : LoopBody Unit rangeTwo.own := noteAndAdd 3 rangeTwo.own (by decide) 1

theorem rangeTwo_loaded : rangeTwo.Loaded (IntegerRange.upTo 2) rangeTwoLoaded where
  start := rfl
  stop := rfl
  step := rfl
  integers := rfl
  constant := by decide

theorem rangeTwo_labels :
    ((rangeTwo.gen []).filterMap (slotLabel (labelEnv loopNames).program.strings)).Nodup := by decide

theorem skipping_run (s : View Unit) (v : Int64) :
    skipping.run (s.assign 3 (.int v)) =
      some ([.store 0 (.int v)], (s.assign 3 (.int v)).assign 3 (.int (v + 1)), .falls) := rfl

-- the first pass leaves the variable at 1, so the counter goes on with 2
theorem runs_skipping :
    ∃ t,
      (loopMachine (labelEnv loopNames) (plainHost []) skipping
        (rangeTwo.context (labelEnv loopNames) [])).Runs
      (rangeTwo.gen []) (rangeTwo.gen []) rangeTwoLoaded [.store 0 (.int 0)] [] t := by
  have hplace := List.suffix_refl (rangeTwo.gen [])
  have hspares : skipping.Spares (rangeTwo.context (labelEnv loopNames) []) :=
    noteAndAdd_spares _ _ _ _ _
  have hlower := NumericFor.lowering (H := plainHost []) rangeTwo_labels hplace hspares rfl
    rangeTwo_loaded.constant
  obtain ⟨t, hstart, hhead⟩ := runs_start rangeTwo_loaded
  have henter : rangeEnter 3 0 2 1 0 rangeTwoLoaded.toView =
    some (rangeTwoLoaded.toView.assign 3 (.int 0)) := rfl
  obtain ⟨t₁, henters, hagree, hin⟩ := hlower.enters hhead henter
  obtain ⟨u, hexec, hpassed⟩ := exec_body hspares hagree (skipping_run rangeTwoLoaded.toView 0)
  have hvar : u.frame.registers rangeTwo.loopVarReg = some ((IntegerRange.upTo 2).value 1) :=
    (hpassed.agree.registers 3 (by decide)).symm
  obtain ⟨t₂, hlatch, hhead₂⟩ := runs_latch hplace hpassed.agree (hin.held.passed hpassed) hvar
    (by decide)
  obtain ⟨t₃, hends, -⟩ := hlower.ends hhead₂ rfl
  have hpass := Machine.Runs.next hexec (hlatch.trans hends)
  exact ⟨t₃, hstart.trans (henters.trans hpass)⟩

/-- A body that adds one to the variable of `range(2)` runs once. -/
theorem assigned_variable_skips :
    ¬Follows (labelEnv loopNames) (plainHost []) skipping (rangeTwo.context (labelEnv loopNames) [])
      (rangeTwo.gen []) []
      (3 :: rangeTwo.own) (rangeTwo.gen []) (rangeTwo.latch []) (rangeEnter 3 0 2 1) skipping.Leaves
      rangeTwoLoaded.toView rangeTwoLoaded := by
  intro h
  let s₀ := rangeTwoLoaded.toView
  let s₁ := (s₀.assign 3 (.int 0)).assign 3 (.int 1)
  let s₂ := (s₁.assign 3 (.int 1)).assign 3 (.int 2)
  have hfirst : skipping.Leaves (s₀.assign 3 (.int 0)) [.store 0 (.int 0)] s₁ .again :=
    ⟨.falls, skipping_run s₀ 0, rfl⟩
  have hsecond : skipping.Leaves (s₁.assign 3 (.int 1)) [.store 0 (.int 1)] s₂ .again :=
    ⟨.falls, skipping_run s₁ 1, rfl⟩
  have hcomes : Comes (rangeEnter 3 0 2 1) skipping.Leaves s₀ 2 ([] ++ [.store 0 (.int 0)] ++
    [.store 0 (.int 1)]) s₂ :=
    .again (.again .start rfl hfirst) rfl hsecond
  obtain ⟨n, c, hsteps, hleft⟩ := h.completes (.runsOut hcomes rfl)
  obtain ⟨t, hruns⟩ := runs_skipping
  obtain ⟨m, hsteps'⟩ := hruns.steps rangeTwo_labels (List.suffix_refl _)
  cases hleft with
  | out t' =>
    have hsame := hsteps.eq_of_completed (.inr (Nat.le_refl _)) hsteps' (.inr (Nat.le_refl _))
    cases hsame.1

/-- `for i in n` with nothing known about `n`. -/
def untypedLoop : UntypedFor where
  arrayReg := 0
  nextRegister := 1
  afterBody := 15
  scope := some 0
  notFloatLabel := 0
  notDictLabel := 1
  loopLabel := 2
  continueLabel := 3
  endLabel := 4
  size := ⟨5, 6, 7, 8⟩
  elem := ⟨9, 10, 11, 12⟩
  floatCounterLabel := 13
  counterDoneLabel := 14
  ceilf := 34
  sizeName := 15
  getName := 16
  fresh := by decide
  later := by decide

def untypedNames : StringTable :=
  ⟨["for_not_a_float_3", "for_not_a_dict_4", "for_loop_0", "for_continue_1", "for_end_2",
  "for_size_done_5",
    "for_size_not_int_6", "for_size_not_array_7", "for_size_generic_8", "for_elem_done_9",
      "for_elem_not_int_10",
    "for_elem_not_array_11", "for_elem_generic_12", "for_float_counter_13", "for_counter_done_14",
      "size", "get"], by decide⟩

-- the same body in both loops
theorem for_loops_follow_range_two :
    Follows (labelEnv loopNames) (plainHost []) skipping (rangeTwo.context (labelEnv loopNames) [])
      (rangeTwo.gen []) []
      (3 :: rangeTwo.own) (rangeTwo.gen []) (rangeTwo.latch []) (rangeEnter 3 0 2 1)
        (skipping.Keeping 3)
      rangeTwoLoaded.toView rangeTwoLoaded ∧
    Follows (labelEnv untypedNames) (plainHost []) (noteAndAdd 14 untypedLoop.own (by decide) 1)
      (untypedLoop.context (labelEnv untypedNames) []) (untypedLoop.gen []) []
        (14 :: untypedLoop.own) (untypedLoop.gen [])
      (untypedLoop.latch []) (rangeEnter 14 0 2 1) (noteAndAdd 14 untypedLoop.own (by decide) 1).Leaves
      (rangeTwoLoaded.assign 0 (.int 2)).toView (rangeTwoLoaded.assign 0 (.int 2)) :=
  ⟨(for_loops_follow_range (labelEnv loopNames) (plainHost []) (rangeTwo.gen []) [] []
      rangeTwo_labels).1 rangeTwo skipping (IntegerRange.upTo 2) rangeTwoLoaded
      (List.suffix_refl _) (noteAndAdd_spares _ _ _ _ _) rangeTwo_loaded,
    (for_loops_follow_range (labelEnv untypedNames) (plainHost []) (untypedLoop.gen []) [] []
      (by decide)).2 untypedLoop (noteAndAdd 14 untypedLoop.own (by decide) 1) 2
      (rangeTwoLoaded.assign 0 (.int 2)) (List.suffix_refl _) (noteAndAdd_spares _ _ _ _ _) rfl⟩

end Codegen
