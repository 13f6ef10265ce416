import GdscriptCompiler.Ir.Blocks
import GdscriptCompiler.Ir.Interpreter
import Mathlib.Data.List.Forall2

/-! # Accepted — what each check of `ir_verify` establishes -/

namespace Ir

open Lib

variable {message : String} {i : Nat}

theorem failAt_ne_ok : (failAt message i : Check) ≠ .ok () := by
  intro h
  cases h

theorem failIf_eq_ok {c : Prop} [Decidable c] : failIf c message i = .ok () ↔ ¬ c := by
  unfold failIf
  by_cases h : c
  · rw [if_pos h]
    exact ⟨fun hok => absurd hok failAt_ne_ok, fun hc => absurd h hc⟩
  · rw [if_neg h]
    exact ⟨fun _ => h, fun _ => rfl⟩

theorem failFunctionIf_eq_ok {c : Prop} [Decidable c] :
    failFunctionIf c message = .ok () ↔ ¬ c := by
  unfold failFunctionIf
  by_cases h : c
  · rw [if_pos h]
    exact ⟨fun hok => (nomatch hok), fun hc => absurd h hc⟩
  · rw [if_neg h]
    exact ⟨fun _ => h, fun _ => rfl⟩

theorem forInstructions_eq_ok {f : IRFunction} {check : IRInstruction → Nat → Check} :
    f.forInstructions check = .ok () ↔ ∀ (i : Nat) instr, f.instructions[i]? = some instr →
      check instr i = .ok () := by
  unfold IRFunction.forInstructions
  rw [forM_eq_ok]
  constructor
  · intro h i instr hinstr
    exact h (instr, i) (List.mem_zipIdx_iff_getElem?.mpr hinstr)
  · rintro h ⟨instr, i⟩ hmem
    exact h i instr (List.mem_zipIdx_iff_getElem?.mp hmem)

/-! ## 1. Operands -/

structure Fits (instr : IRInstruction) : Prop where
  enough : fixedCount instr.signature ≤ instr.operands.length
  few : isVariadic instr.signature = false → instr.operands.length ≤ instr.signature.length
  kinds : ∀ (j : Nat) operand, instr.operands[j]? = some operand →
    operandMatches operand (kindAt instr.signature j) = true
  counted : ∀ i, checkArgumentCount instr i = .ok ()

variable {instr : IRInstruction}

theorem checkArgumentCount_anywhere (h : checkArgumentCount instr i = .ok ()) (i' : Nat) :
    checkArgumentCount instr i' = .ok () := by
  unfold checkArgumentCount at h ⊢
  dsimp only at h ⊢
  rw [forM_eq_ok] at h ⊢
  intro j hj
  have hj := h j hj
  by_cases hkind : instr.signature.getD j .none ≠ .cnt ∧ instr.signature.getD j .none ≠ .cnt2
  · rw [if_pos hkind]
    rfl
  · rw [if_neg hkind] at hj ⊢
    cases hoperand : instr.operands[j]? with
    | none => rfl
    | some operand =>
      rw [hoperand] at hj
      cases operand with
      | imm declared =>
        dsimp only at hj ⊢
        by_cases hneg : declared < 0
        · rw [if_pos hneg] at hj
          exact absurd hj failAt_ne_ok
        · rw [if_neg hneg] at hj ⊢
          rw [failIf_eq_ok] at hj ⊢
          exact hj
      | _ => rfl

theorem fits_of_checkOperandsOf (h : checkOperandsOf instr i = .ok ()) : Fits instr := by
  unfold checkOperandsOf at h
  dsimp only at h
  rw [seq_eq_ok, seq_eq_ok, seq_eq_ok, seq_eq_ok, failIf_eq_ok, failIf_eq_ok] at h
  obtain ⟨henough, hfew, hkinds, hcount, -⟩ := h
  refine ⟨by omega, fun hnot => ?_, ?_, checkArgumentCount_anywhere hcount⟩
  · rw [hnot] at hfew
    exact Nat.not_lt.mp fun hlt => hfew ⟨rfl, hlt⟩
  intro j operand hj
  rw [forM_eq_ok] at hkinds
  have hmem := hkinds (operand, j) (List.mem_zipIdx_iff_getElem?.mpr hj)
  have hnot := failIf_eq_ok.mp hmem
  simpa using hnot

variable {kind : OperandKind}

section Shapes

variable {operand : IRValue}

theorem exists_reg (hkind : kind = .dst ∨ kind = .inout ∨ kind = .src ∨ kind = .srcList)
    (h : operandMatches operand kind = true) :
    ∃ r, operand = .reg r := by
  rcases hkind with rfl | rfl | rfl | rfl <;> cases operand <;> first | exact ⟨_, rfl⟩ | cases h

theorem exists_src (h : operandMatches operand .src = true) : ∃ r, operand = .reg r :=
  exists_reg (.inr (.inr (.inl rfl))) h

theorem exists_imm (hkind : kind = .imm ∨ kind = .cnt ∨ kind = .cnt2)
    (h : operandMatches operand kind = true) :
    ∃ v, operand = .imm v := by
  rcases hkind with rfl | rfl | rfl <;> cases operand <;> first | exact ⟨_, rfl⟩ | cases h

theorem exists_fimm (h : operandMatches operand .fimm = true) : ∃ d, operand = .fimm d := by
  cases operand <;> first | exact ⟨_, rfl⟩ | cases h

theorem exists_str (h : operandMatches operand .str = true) : ∃ id, operand = .str id := by
  cases operand <;> first | exact ⟨_, rfl⟩ | cases h

theorem exists_label (hkind : kind = .lbl ∨ kind = .lblList)
    (h : operandMatches operand kind = true) :
    ∃ id, operand = .label id := by
  rcases hkind with rfl | rfl <;> cases operand <;> first | exact ⟨_, rfl⟩ | cases h

end Shapes

/-- The fixed operands of a row start with these kinds. -/
def hasRow (op : Opcode) (kinds : List OperandKind) : Bool :=
  kinds.isPrefixOf ((opcodeInfo op).signature.take (fixedCount (opcodeInfo op).signature))

variable {kinds : List OperandKind} {op : Opcode}

theorem hasRow_kind (h : hasRow op kinds = true) {j : Nat} (hj : kinds[j]? = some kind) :
    j < fixedCount (opcodeInfo op).signature ∧ (opcodeInfo op).signature[j]? = some kind := by
  obtain ⟨tail, htail⟩ := List.isPrefixOf_iff_prefix.mp h
  have hfound : ((opcodeInfo op).signature.take (fixedCount (opcodeInfo op).signature))[j]? =
    some kind := by
    rw [← htail, List.getElem?_append_left (List.getElem?_eq_some_iff.mp hj).1]
    exact hj
  rw [List.getElem?_take] at hfound
  split at hfound
  · exact ⟨by assumption, hfound⟩
  · cases hfound

theorem kindAt_of_hasRow (h : hasRow op kinds = true) {j : Nat} (hj : kinds[j]? = some kind) :
    kindAt (opcodeInfo op).signature j = kind := by
  obtain ⟨hlt, hkind⟩ := hasRow_kind h hj
  unfold kindAt
  rw [if_pos hlt, List.getD_eq_getElem?_getD, hkind]
  rfl

-- A row that starts with DST defines its first operand.
theorem destinationOperandIndex_of_hasRow (h : hasRow op (.dst :: kinds) = true) :
    IRInstruction.destinationOperandIndex op = (0 : Nat) := by
  obtain ⟨tail, htail⟩ := List.isPrefixOf_iff_prefix.mp h
  unfold IRInstruction.destinationOperandIndex
  dsimp only
  rw [← htail]
  rfl

namespace Fits

variable {instr : IRInstruction}

theorem row (h : Fits instr) (kinds : List OperandKind) (hrow : hasRow instr.opcode kinds = true) :
    ∃ first rest, instr.operands = first ++ rest ∧
      List.Forall₂ (fun operand kind => operandMatches operand kind = true) first kinds := by
  have hlen : kinds.length ≤ instr.operands.length := by
    apply Nat.le_trans _ h.enough
    obtain ⟨tail, htail⟩ := List.isPrefixOf_iff_prefix.mp hrow
    have := congrArg List.length htail
    rw [List.length_append, List.length_take] at this
    change _ ≤ fixedCount (opcodeInfo instr.opcode).signature
    omega
  refine ⟨instr.operands.take kinds.length, instr.operands.drop kinds.length,
    (List.take_append_drop _ _).symm, ?_⟩
  rw [List.forall₂_iff_get]
  refine ⟨by rw [List.length_take]; omega, fun j hj hj' => ?_⟩
  have hkind := kindAt_of_hasRow hrow (List.getElem?_eq_getElem hj')
  rw [List.get_eq_getElem, List.get_eq_getElem, List.getElem_take, ← hkind]
  exact h.kinds j _ (List.getElem?_eq_getElem _)

theorem count (h : Fits instr) {j : Nat} {declared : Int64}
    (hfixed : j < fixedCount instr.signature) (hkind : instr.signature.getD j .none = .cnt)
    (hoperand : instr.operands[j]? = some (.imm declared)) :
    0 ≤ declared.toInt ∧
      instr.operands.length = (fixedCount instr.signature + declared.toInt.toNat) % 2 ^ 64 := by
  have hcounted := h.counted 0
  unfold checkArgumentCount at hcounted
  dsimp only at hcounted
  rw [forM_eq_ok] at hcounted
  have hj := hcounted j (List.mem_range.mpr hfixed)
  rw [hkind, hoperand, if_neg (by decide)] at hj
  dsimp only at hj
  by_cases hneg : declared < 0
  · rw [if_pos hneg] at hj
    exact absurd hj failAt_ne_ok
  · rw [if_neg hneg, if_neg (by decide), failIf_eq_ok] at hj
    constructor
    · have hle : (0 : Int64) ≤ declared := Int64.not_lt.mp hneg
      exact Int64.le_iff_toInt_le.mp hle
    · rw [Nat.mul_one] at hj
      exact Decidable.not_not.mp hj

end Fits

end Ir
