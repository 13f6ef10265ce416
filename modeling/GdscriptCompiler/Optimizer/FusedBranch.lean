import GdscriptCompiler.Ir.Interpreter
import GdscriptCompiler.Riscv.FloatCompare
import Mathlib.Data.Int.Order.Basic

/-!
# FusedBranch — a comparison and the branch on it as one instruction

BRANCH_ZERO is fused by inverting the comparison, which is sound exactly on the pairs of operands
that are ordered.
-/

namespace Optimizer

open Lib Ir Riscv

variable {α : Type}

/-- The opcode of the fused branch; `none` is the exception of the two switches. -/
def fusedOpcode (cmp branch : Opcode) : Option Opcode :=
  match branch with
  | .branchZero =>
    match cmp with
    | .cmpEq => some .branchNeq
    | .cmpNeq => some .branchEq
    | .cmpLt => some .branchGte
    | .cmpLte => some .branchGt
    | .cmpGt => some .branchLte
    | .cmpGte => some .branchLt
    | _ => none
  | .branchNotZero =>
    match cmp with
    | .cmpEq => some .branchEq
    | .cmpNeq => some .branchNeq
    | .cmpLt => some .branchLt
    | .cmpLte => some .branchLte
    | .cmpGt => some .branchGt
    | .cmpGte => some .branchGte
    | _ => none
  | _ => none

/-! ## The interpreter's reading -/

/-- The comparison `fused_branch_taken` makes. -/
def comparisonOf : Opcode → Option Opcode
  | .branchEq => some .cmpEq
  | .branchNeq => some .cmpNeq
  | .branchLt => some .cmpLt
  | .branchLte => some .cmpLte
  | .branchGt => some .cmpGt
  | .branchGte => some .cmpGte
  | _ => none

def compared (C : Comparison α) (cmp : Opcode) (l r : α) : Value :=
  intOfBool (compareBy C.eq C.lt C.le l r cmp)

/-- Whether CMP_* followed by a branch on its result jumps. -/
def pairTaken (C : Comparison α) (cmp branch : Opcode) (l r : α) : Bool :=
  if branch = .branchZero then !(compared C cmp l r).getBool else (compared C cmp l r).getBool

def fusedTaken (C : Comparison α) (fused : Opcode) (l r : α) : Bool :=
  match comparisonOf fused with
  | some cmp => (compared C cmp l r).getBool
  | none => false

/-- The comparisons the interpreter makes on two floats. -/
def floatComparison : Comparison Float where
  eq l r := l == r
  lt l r := l < r
  le l r := l ≤ r

theorem compareOp_float (l r : Float) (cmp : Opcode) :
    compareOp (.float l) (.float r) cmp = .ok (compared floatComparison cmp l r) := rfl

variable {fused cmp : Opcode}

theorem fusedBranchTaken_float (h : comparisonOf fused = some cmp) (l r : Float) :
    fusedBranchTaken (.float l) (.float r) fused = .ok (fusedTaken floatComparison fused l r) := by
  rw [fusedTaken, h]
  unfold comparisonOf at h
  split at h <;> cases h <;> rfl

/-! ## The back end's reading -/

/-- Whether a sequence ends in a taken branch, started with the operands in fa0 and fa1. -/
def branchTaken (C : Comparison α) (m : FloatMachine α) (code : Option (List FloatInstr)) : Bool :=
  match code with
  | some code => (m.run C code).taken
  | none => false

def riscvPairTaken (C : Comparison α) (cmp branch : Opcode) (m : FloatMachine α) : Bool :=
  branchTaken C m (do return (← emitTypedFloatComparison cmp) ++ (← emitBoolBranch branch))

def riscvFusedTaken (C : Comparison α) (fused : Opcode) (m : FloatMachine α) : Bool :=
  branchTaken C m (emitTypedFloatFusedBranch fused)

theorem emitDoubleCompare_comparisonOf (h : comparisonOf fused = some cmp) (rd lhs rhs : Nat) :
    emitDoubleCompare rd fused lhs rhs = emitDoubleCompare rd cmp lhs rhs := by
  unfold comparisonOf at h
  split at h <;> cases h <;> rfl

theorem run_doubleCompare (C : Comparison α) (m : FloatMachine α)
    (hcmp : hasEffect cmp .comparison = true) :
    ∃ code, emitDoubleCompare regT2 cmp regFa0 regFa1 = some code ∧
      (m.run C code).x regT2 = flag (compareBy C.eq C.lt C.le (m.f regFa0) (m.f regFa1) cmp) := by
  cases cmp <;> try cases hcmp
  all_goals
    refine ⟨_, rfl, ?_⟩
    simp [FloatMachine.run, FloatMachine.exec, compareBy]

variable {branch : Opcode}

theorem riscvPairTaken_eq (C : Comparison α) (m : FloatMachine α)
    (hcmp : hasEffect cmp .comparison = true)
    (hbranch : branch = .branchZero ∨ branch = .branchNotZero) :
    riscvPairTaken C cmp branch m = pairTaken C cmp branch (m.f regFa0) (m.f regFa1) := by
  obtain ⟨code, hcode, hx⟩ := run_doubleCompare C m hcmp
  unfold riscvPairTaken emitTypedFloatComparison
  rw [hcode]
  rcases hbranch with rfl | rfl <;> simp [branchTaken, emitBoolBranch, FloatMachine.run,
    FloatMachine.exec] at hx ⊢ <;>
    simp [hx, pairTaken, compared]

theorem riscvFusedTaken_eq (C : Comparison α) (m : FloatMachine α)
    (h : comparisonOf fused = some cmp) (hcmp : hasEffect cmp .comparison = true) :
    riscvFusedTaken C fused m = fusedTaken C fused (m.f regFa0) (m.f regFa1) := by
  obtain ⟨code, hcode, hx⟩ := run_doubleCompare C m hcmp
  unfold riscvFusedTaken emitTypedFloatFusedBranch
  rw [emitDoubleCompare_comparisonOf h, hcode, fusedTaken, h]
  simp [branchTaken, FloatMachine.run, FloatMachine.exec] at hx ⊢
  simp [hx, compared]

/-! ## The law -/

theorem fusedOpcode_cases (h : fusedOpcode cmp branch = some fused) :
    hasEffect cmp .comparison = true ∧ (branch = .branchZero ∨ branch = .branchNotZero) ∧
      ∃ inner, comparisonOf fused = some inner ∧ hasEffect inner .comparison = true := by
  unfold fusedOpcode at h
  split at h <;> [skip; skip; cases h] <;> split at h <;> cases h
  all_goals exact ⟨rfl, by decide, _, rfl, rfl⟩

/-- The interpreter takes the fused branch when the pair branches, exactly where inverting is sound.
-/
theorem fusedTaken_eq_iff {C : Comparison α} (hC : C.Lawful)
    (h : fusedOpcode cmp branch = some fused) (l r : α) :
    fusedTaken C fused l r = pairTaken C cmp branch l r ↔
      branch = .branchNotZero ∨ cmp = .cmpEq ∨ cmp = .cmpNeq ∨ C.Ordered l r := by
  unfold fusedOpcode at h
  split at h <;> [skip; skip; cases h] <;> split at h <;> cases h <;>
    simp [fusedTaken, pairTaken, comparisonOf, compared, compareBy]
  · exact Comparison.le_eq_not_lt_iff hC l r
  · exact Comparison.lt_eq_not_le_iff hC l r
  · rw [Comparison.le_eq_not_lt_iff hC, Comparison.ordered_symm hC]
  · rw [Comparison.lt_eq_not_le_iff hC, Comparison.ordered_symm hC]

/-- Both readings of the fused branch agree with the pair it replaces: on every pair of operands
unless BRANCH_ZERO follows an ordering comparison, and there exactly on the ordered pairs. -/
theorem fused_branch_law {C : Comparison α} (hC : C.Lawful) {cmp branch fused : Opcode}
    (h : fusedOpcode cmp branch = some fused) (m : FloatMachine α) :
    (fusedTaken C fused (m.f regFa0) (m.f regFa1) =
          pairTaken C cmp branch (m.f regFa0) (m.f regFa1) ∧
        riscvFusedTaken C fused m = riscvPairTaken C cmp branch m) ↔
      branch = .branchNotZero ∨ cmp = .cmpEq ∨ cmp = .cmpNeq ∨
        C.Ordered (m.f regFa0) (m.f regFa1) := by
  obtain ⟨hcmp, hbranch, inner, hinner, hkind⟩ := fusedOpcode_cases h
  rw [riscvPairTaken_eq C m hcmp hbranch, riscvFusedTaken_eq C m hinner hkind, and_self,
    fusedTaken_eq_iff hC h]

-- integers and one NaN
def nanIntegers : Comparison (Option Int) := (Comparison.ofLinearOrder Int).withUnordered

def holding (l r : Option Int) : FloatMachine (Option Int) where
  x := fun _ => 0
  f := fun reg => if reg = regFa0 then l else r
  slot := 0
  taken := false

theorem fused_branch_law_ordered :
    fusedTaken nanIntegers .branchGte (some 1) (some 2) =
        pairTaken nanIntegers .cmpLt .branchZero (some 1) (some 2) ∧
      riscvFusedTaken nanIntegers .branchGte (holding (some 1) (some 2)) =
        riscvPairTaken nanIntegers .cmpLt .branchZero (holding (some 1) (some 2)) :=
  (fused_branch_law (Comparison.withUnordered_lawful (Comparison.ofLinearOrder_lawful Int)) rfl
    (holding (some 1) (some 2))).mpr (.inr (.inr (.inr (by decide))))

/-- CMP_LT on a NaN followed by BRANCH_ZERO branches; the BRANCH_GTE it is fused to does not. -/
theorem nan_not_fused :
    fusedOpcode .cmpLt .branchZero = some .branchGte ∧
      pairTaken nanIntegers .cmpLt .branchZero none (some 1) = true ∧
      fusedTaken nanIntegers .branchGte none (some 1) = false ∧
      riscvPairTaken nanIntegers .cmpLt .branchZero (holding none (some 1)) = true ∧
      riscvFusedTaken nanIntegers .branchGte (holding none (some 1)) = false := by
  decide

end Optimizer
