import GdscriptCompiler.Planning.Constants
import GdscriptCompiler.Riscv.LoadImmediate

/-!
# TypedInts — typed integer instructions, run

The words of the typed integer emitters under the semantics of `Hart`.
-/

namespace Plan

open Ir Riscv Riscv.Hart Lib

/-! ## 1. The emitters -/

-- funct3 and funct7
def intOpFunct : Opcode → Option (BitVec 3 × BitVec 7)
  | .add => some (0, 0)
  | .sub => some (0, 0x20)
  | .mul => some (0, 1)
  | .div => some (4, 1)
  | .mod => some (6, 1)
  | .bitAnd => some (7, 0)
  | .bitOr => some (6, 0)
  | .bitXor => some (4, 0)
  | .shl => some (1, 0)
  | .shr => some (5, 0x20)
  | _ => none

section Emitters

variable (out result value lhs rhs : BitVec 5) (imm : Int64) (op : Opcode) (constantOnLeft : Bool)
  (offset : Word)

def emitTypedIntBinaryOp : List (Except String Word) :=
  match intOpFunct op with
  | some (funct3, funct7) => [.ok (emitRType 0x33 out lhs rhs funct3 funct7)]
  | none => [.error "Unsupported typed int binary op"]

-- `static_cast<int32_t>`
def toInt32 : Word := imm.toBitVec.setWidth 32

def emitTypedIntBinaryOpImm : List (Except String Word) :=
  match op with
  | .add => [emitIType 0x13 out value 0 (toInt32 imm)]
  | .sub => [emitIType 0x13 out value 0 (toInt32 (-imm))]
  -- the shift counts the halvings down to one
  | .mul => [emitIType 0x13 out value 1 (BitVec.ofNat 32 (Nat.log2 imm.toBitVec.toNat))]
  | .bitAnd => [emitIType 0x13 out value 7 (toInt32 imm)]
  | .bitOr => [emitIType 0x13 out value 6 (toInt32 imm)]
  | .bitXor => [emitIType 0x13 out value 4 (toInt32 imm)]
  | .shl => [emitIType 0x13 out value 1 ((imm.toBitVec.setWidth 8).setWidth 32)]
  | .shr => [emitIType 0x13 out value 5 (0x400 ||| ((imm.toBitVec.setWidth 8).setWidth 32 &&& 0x3F))]
  | _ => [.error "Unsupported typed int binary op with an immediate operand"]

def seqz : Except String Word := emitIType 0x13 result result 3 1

def snez : Except String Word := .ok (emitRType 0x33 result regZero result 3 0)

def invert : Except String Word := emitIType 0x13 result result 4 1

def emitTypedIntComparison : List (Except String Word) :=
  match op with
  | .cmpEq => [.ok (emitRType 0x33 t2 lhs rhs 4 0), seqz t2]
  | .cmpNeq => [.ok (emitRType 0x33 t2 lhs rhs 4 0), snez t2]
  | .cmpLt => [.ok (emitRType 0x33 t2 lhs rhs 2 0)]
  | .cmpLte => [.ok (emitRType 0x33 t2 rhs lhs 2 0), invert t2]
  | .cmpGt => [.ok (emitRType 0x33 t2 rhs lhs 2 0)]
  | .cmpGte => [.ok (emitRType 0x33 t2 lhs rhs 2 0), invert t2]
  | _ => [.error "Unsupported typed int comparison"]

def emitIntCompareImm : List (Except String Word) :=
  match if constantOnLeft then mirrored op else op with
  | .cmpEq | .branchEq => [emitIType 0x13 result value 0 (toInt32 (-imm)), seqz result]
  | .cmpNeq | .branchNeq => [emitIType 0x13 result value 0 (toInt32 (-imm)), snez result]
  | .cmpLt | .branchLt => [emitIType 0x13 result value 2 (toInt32 imm)]
  | .cmpGte | .branchGte => [emitIType 0x13 result value 2 (toInt32 imm), invert result]
  | .cmpLte | .branchLte => [emitIType 0x13 result value 2 (toInt32 (imm + 1))]
  | .cmpGt | .branchGt => [emitIType 0x13 result value 2 (toInt32 (imm + 1)), invert result]
  | _ => [.error "Unknown integer comparison with immediate"]

-- the branch of `emit_int_fused_branch`, with the offset `resolve_labels` puts in
def fusedBranch (what : String) : Except String Word :=
  match op with
  | .branchEq => emitBType 0x63 lhs rhs 0 offset
  | .branchNeq => emitBType 0x63 lhs rhs 1 offset
  | .branchLt => emitBType 0x63 lhs rhs 4 offset
  | .branchLte => emitBType 0x63 rhs lhs 5 offset
  | .branchGt => emitBType 0x63 rhs lhs 4 offset
  | .branchGte => emitBType 0x63 lhs rhs 5 offset
  | _ => .error what

def emitIntFusedBranch : List (Except String Word) :=
  [fusedBranch lhs rhs op offset "Unknown fused branch opcode"]

def emitIntFusedBranchImm : List (Except String Word) :=
  let op := if constantOnLeft then mirrored op else op
  let rhs := if imm = 0 then regZero else t1
  (if imm = 0 then [] else (emitLi t1 imm.toBitVec).1) ++
    [fusedBranch value rhs op offset "Unknown fused integer branch with immediate"]

end Emitters

/-! ## 2. What they leave -/

/-- The code runs, and all it changes is `out`. -/
def Leaves (h : Hart) (code : List (Except String Word)) (out : BitVec 5) (v : Word64) : Prop :=
  ∃ h', run h code = some h' ∧ Sets h h' out v

section Leaves

variable {h : Hart} {out rs1 rs2 : BitVec 5} {funct3 : BitVec 3} {funct7 : BitVec 7} {imm : Word}
  {v w : Word64} {c : Except String Word} {code : List (Except String Word)}

theorem Leaves.rType (hop : Hart.op funct7 funct3 (h.get rs1) (h.get rs2) = some v) :
    Leaves h [.ok (emitRType 0x33 out rs1 rs2 funct3 funct7)] out v := by
  refine ⟨_, (run_encode h (e := .r 0x33 out funct3 rs1 rs2 funct7) rfl trivial []).trans ?_,
    .write h out v⟩
  rw [exec, hop]
  rfl

theorem Leaves.iType (hfits : fitsInSigned imm.toInt iTypeImmBits = true)
    (hop : Hart.opImm funct3 (h.get rs1) (imm.signExtend 64) = some v) :
    Leaves h [emitIType 0x13 out rs1 funct3 imm] out v := by
  refine ⟨_, (run_encode h (e := .i 0x13 out funct3 rs1 imm) (.inl rfl) (fits_iType hfits) []).trans
    ?_, .write h out v⟩
  change ((Hart.opImm funct3 (h.get rs1) (imm.signExtend 64)).map (h.write out)).bind _ = _
  rw [hop]
  rfl

theorem Leaves.cons (hout : out ≠ 0) (hfirst : Leaves h [c] out v)
    (hrest : ∀ h' : Hart, h'.get out = v → Leaves h' code out w) :
    Leaves h (c :: code) out w := by
  obtain ⟨h₁, hrun, hsets⟩ := hfirst
  obtain ⟨h₂, hrun', hsets'⟩ := hrest h₁ (by rw [hsets.get, if_pos ⟨rfl, hout⟩])
  refine ⟨h₂, (run_append h [c] code).trans ?_, hsets.trans hsets'⟩
  rw [hrun]
  exact hrun'

theorem seqz_leaves (hget : h.get out = v) : Leaves h [seqz out] out (flag (v = 0)) := by
  refine Leaves.iType (by decide) ?_
  have hult : v.ult 1 = decide (v = 0) := by
    rw [Bool.eq_iff_iff, decide_eq_true_iff, BitVec.ult_iff_lt]
    bv_omega
  rw [hget]
  exact congrArg (fun b => some (flag b)) hult

theorem snez_leaves (hget : h.get out = v) : Leaves h [snez out] out (flag (v ≠ 0)) := by
  refine Leaves.rType ?_
  have hult : (0 : Word64).ult v = decide (v ≠ 0) := by
    rw [Bool.eq_iff_iff, decide_eq_true_iff, BitVec.ult_iff_lt]
    bv_omega
  rw [hget]
  exact congrArg (fun b => some (flag b)) hult

theorem invert_leaves (hget : h.get out = v) : Leaves h [invert out] out (v ^^^ 1) := by
  refine Leaves.iType (by decide) ?_
  rw [hget]
  rfl

end Leaves

/-! ## 3. Two registers -/

section Registers

variable {h : Hart} {out lhs rhs : BitVec 5} {op : Opcode} {l r : Int64} {v : Word64}

theorem emitTypedIntBinaryOp_leaves (out lhs rhs : BitVec 5) (hop : (intOpFunct op).isSome = true)
    (hv : intRegisters op (h.get lhs) (h.get rhs) = some v) :
    Leaves h (emitTypedIntBinaryOp out lhs rhs op) out v := by
  cases op <;> first | exact Leaves.rType hv | cases hop

-- `r & 63` counts as the hardware does
theorem shiftCount_eq (r : Int64) :
    ((r &&& 63).toBitVec.smod 64).toNat = r.toBitVec.toNat % 64 := by
  have hmask : (r &&& 63).toBitVec.toNat = r.toBitVec.toNat % 64 :=
    Nat.and_two_pow_sub_one_eq_mod r.toBitVec.toNat 6
  have hmsb : (r &&& 63).toBitVec.msb = false := by
    rw [BitVec.msb_eq_false_iff_two_mul_lt, hmask]
    omega
  rw [BitVec.smod_eq, hmsb]
  change ((r &&& 63).toBitVec % 64).toNat = _
  rw [BitVec.toNat_umod, hmask]
  exact Nat.mod_mod ..

-- the case `binary_op` makes of the overflow is no case of its own
theorem binaryOp_div (fmod : Float → Float → Float) (l r : Int64) :
    binaryOp fmod (.int l) (.int r) .div = .ok (.int (if r = 0 then 0 else l / r)) ∧
      binaryOp fmod (.int l) (.int r) .mod = .ok (.int (if r = 0 then 0 else l % r)) := by
  by_cases hzero : r = 0
  · subst hzero
    exact ⟨rfl, rfl⟩
  · by_cases hover : r = -1 ∧ l = int64Min
    · obtain ⟨rfl, rfl⟩ := hover
      exact ⟨rfl, rfl⟩
    · constructor
      · change (if r = 0 then _ else if r = -1 ∧ l = int64Min then _ else _) = _
        rw [if_neg hzero, if_neg hover, if_neg hzero]
        rfl
      · change (if r = 0 then _ else if r = -1 ∧ l = int64Min then _ else _) = _
        rw [if_neg hzero, if_neg hover, if_neg hzero]
        rfl

/-- The interpreter computes the same but for a zero divisor, where it has zero for both results. -/
theorem binaryOp_eq_iff (fmod : Float → Float → Float) (hop : (intOpFunct op).isSome = true)
    (hv : intRegisters op l.toBitVec r.toBitVec = some v) :
    binaryOp fmod (.int l) (.int r) op = .ok (.int (.ofBitVec v)) ↔
      ¬ (r = 0 ∧ (op = .div ∨ op = .mod ∧ l ≠ 0)) := by
  have hbits : ∀ {op : Opcode} {x : Int64}, binaryOp fmod (.int l) (.int r) op = .ok (.int x) →
      (binaryOp fmod (.int l) (.int r) op = .ok (.int (.ofBitVec v)) ↔ x.toBitVec = v) := by
    intro op x hx
    rw [hx, Except.ok.injEq, Value.int.injEq, ← Int64.toBitVec_inj]
    exact Iff.rfl
  have hzero : r.toBitVec = 0 ↔ r = 0 := Int64.toBitVec_inj (b := 0)
  have hvalue : ∀ x, some x = some v → x = v := fun _ => Option.some.inj
  cases op <;> cases hop
  case shl =>
    rw [hbits (x := l <<< (r &&& 63)) rfl, Int64.toBitVec_shiftLeft, BitVec.shiftLeft_eq', shiftCount_eq]
    simpa using hvalue _ hv
  case shr =>
    rw [hbits (x := l >>> (r &&& 63)) rfl, Int64.toBitVec_shiftRight, BitVec.sshiftRight_eq',
      shiftCount_eq]
    simpa using hvalue _ hv
  case div =>
    rw [hbits (binaryOp_div fmod l r).1, ← hvalue _ hv]
    by_cases h : r = 0
    · subst h
      simp
    · rw [if_neg h, if_neg (mt hzero.mp h)]
      exact iff_of_true (Int64.toBitVec_div ..) fun hboth => h hboth.1
  case mod =>
    rw [hbits (binaryOp_div fmod l r).2, ← hvalue _ hv]
    by_cases h : r = 0
    · subst h
      have hl : (0 : Int64).toBitVec = l.toBitVec ↔ l = 0 := Int64.toBitVec_inj.trans eq_comm
      simpa using hl
    · rw [if_neg h, if_neg (mt hzero.mp h)]
      exact iff_of_true (Int64.toBitVec_mod ..) fun hboth => h hboth.1
  all_goals
    rw [hbits rfl]
    exact iff_of_true (hvalue _ hv) (by simp)

/-- The instruction agrees with the interpreter on just those operands where it does not divide by
zero. -/
theorem typedIntBinaryOp_agrees_iff (fmod : Float → Float → Float)
    (hop : (intOpFunct op).isSome = true) (h : Hart) {out : BitVec 5} (hout : out ≠ 0)
    (lhs rhs : BitVec 5) :
    ∃ h', run h (emitTypedIntBinaryOp out lhs rhs op) = some h' ∧
      (binaryOp fmod (.int (.ofBitVec (h.get lhs))) (.int (.ofBitVec (h.get rhs))) op =
          .ok (.int (.ofBitVec (h'.get out))) ↔
            ¬ (h.get rhs = 0 ∧ (op = .div ∨ op = .mod ∧ h.get lhs ≠ 0))) := by
  obtain ⟨v, hv⟩ : ∃ v, intRegisters op (h.get lhs) (h.get rhs) = some v := by
    cases op <;> first | exact ⟨_, rfl⟩ | cases hop
  obtain ⟨h', hrun, hsets⟩ := emitTypedIntBinaryOp_leaves out lhs rhs hop hv
  refine ⟨h', hrun, ?_⟩
  have hget : h'.get out = v := by rw [hsets.get, if_pos ⟨rfl, hout⟩]
  have hzero : ∀ x : Word64, Int64.ofBitVec x = 0 ↔ x = 0 := fun x => Int64.toBitVec_inj.symm
  have hagree := binaryOp_eq_iff (l := .ofBitVec (h.get lhs)) (r := .ofBitVec (h.get rhs)) fmod hop hv
  rw [hget, hagree, hzero, ne_eq, hzero]

theorem typedIntBinaryOp_agrees_iff_overflow :
    let h : Hart :=
  { pc := 0, x := fun r => if r = 5 then BitVec.intMin 64 else -1, f := fun _ => 0, mem := fun _ => 0 }
    (intOpFunct .div).isSome = true ∧ t2 ≠ 0 ∧ ∃ h', run h (emitTypedIntBinaryOp t2 5 6 .div) = some h' ∧
      (binaryOp (fun x _ => x) (.int (.ofBitVec (h.get 5))) (.int (.ofBitVec (h.get 6))) .div =
          .ok (.int (.ofBitVec (h'.get t2))) ↔
        ¬ (h.get 6 = 0 ∧ (Opcode.div = .div ∨ Opcode.div = .mod ∧ h.get 5 ≠ 0))) :=
  ⟨rfl, by decide, typedIntBinaryOp_agrees_iff _ rfl _ (by decide) 5 6⟩

/-- One divided by zero: the instruction has −1, the interpreter 0. -/
theorem one_divided_by_zero :
    let h : Hart :=
  { pc := 0, x := fun r => if r = 5 then 1 else 0, f := fun _ => 0, mem := fun _ => 0 }
    (∃ h', run h (emitTypedIntBinaryOp t2 5 6 .div) = some h' ∧ h'.get t2 = -1) ∧
      ∀ fmod, binaryOp fmod (.int 1) (.int 0) .div = .ok (.int 0) := by
  intro h
  refine ⟨?_, fun _ => rfl⟩
  obtain ⟨h', hrun, hsets⟩ := emitTypedIntBinaryOp_leaves (h := h) (v := -1) t2 5 6
    (by rfl : (intOpFunct .div).isSome = true) rfl
  exact ⟨h', hrun, by rw [hsets.get, if_pos ⟨rfl, by decide⟩]⟩

theorem emitTypedIntComparison_leaves (lhs rhs : BitVec 5) (hop : hasEffect op .comparison = true)
    (hv : intRegisters op (h.get lhs) (h.get rhs) = some v) :
    Leaves h (emitTypedIntComparison lhs rhs op) t2 v := by
  have ht2 : t2 ≠ 0 := by decide
  cases op <;> first | exact absurd hop (by decide) | cases hv
  case cmpEq => exact .cons ht2 (.rType rfl) fun _ => seqz_leaves
  case cmpNeq => exact .cons ht2 (.rType rfl) fun _ => snez_leaves
  case cmpLt => exact .rType rfl
  case cmpLte => exact .cons ht2 (.rType rfl) fun _ => invert_leaves
  case cmpGt => exact .rType rfl
  case cmpGte => exact .cons ht2 (.rType rfl) fun _ => invert_leaves

def Takes (h : Hart) (code : List (Except String Word)) (offset : Word) (taken : Bool) : Prop :=
  ∃ h₁, run h code.dropLast = some h₁ ∧
    run h code = some { h₁ with pc := h₁.pc + if taken then offset.signExtend 64 else 4 }

theorem fusedBranch_run {offset : Word} {taken : Bool} {what : String}
    (hoffset : (Encoding.b 0x63 0 0 0 offset).Representable)
    (hv : intRegisters op (h.get lhs) (h.get rhs) = some (flag taken))
    (hop : hasEffect op .fusedBranch = true) :
    run h [fusedBranch lhs rhs op offset what] =
      some { h with pc := h.pc + if taken then offset.signExtend 64 else 4 } := by
  have hflag : ∀ {b : Bool}, some (flag b) = some (flag taken) → b = taken := fun {b} h => by
    cases b <;> cases taken <;> first | rfl | exact absurd h (by decide)
  have hbranch : ∀ {rs1 rs2 : BitVec 5} {funct3 : BitVec 3}, branchCond funct3 (h.get rs1)
    (h.get rs2) = some taken →
      run h [emitBType 0x63 rs1 rs2 funct3 offset] =
        some { h with pc := h.pc + if taken then offset.signExtend 64 else 4 } := by
    intro rs1 rs2 funct3 hcond
    refine (run_encode h (e := .b 0x63 funct3 rs1 rs2 offset) rfl hoffset []).trans ?_
    rw [exec, hcond]
    rfl
  cases op <;> first | exact absurd hop (by decide) | skip
  all_goals
    refine hbranch ?_
    rw [← hflag hv]
    first | rfl | simp [branchCond, beq_eq_decide]

theorem intRegisters_compare (hop : hasEffect op .comparison = true) (l r : Int64) :
    intRegisters op l.toBitVec r.toBitVec = some (flag (compareInts l r op)) := by
  have heq : (l == r) = decide (l.toBitVec = r.toBitVec) := by
    rw [beq_eq_decide]
    exact decide_eq_decide.mpr Int64.toBitVec_inj.symm
  have hlt : ∀ l r : Int64, decide (l < r) = l.toBitVec.slt r.toBitVec := fun l r => by
    rw [Bool.eq_iff_iff, decide_eq_true_iff]
    exact Iff.rfl
  have hle : ∀ l r : Int64, decide (l ≤ r) = !(r.toBitVec.slt l.toBitVec) := fun l r => by
    rw [← BitVec.sle_eq_not_slt, Bool.eq_iff_iff, decide_eq_true_iff]
    exact Iff.rfl
  cases op <;> first | exact absurd hop (by decide) | skip
  all_goals
    simp only [intRegisters, compareInts, compareBy, xor_eq_zero, flag_not, heq, hlt, hle, ne_eq,
      decide_not]

theorem intRegisters_fused (hop : hasEffect op .fusedBranch = true) (l r : Int64) :
    ∃ taken,
      fusedBranchTaken (.int l) (.int r) op = .ok taken ∧
        intRegisters op l.toBitVec r.toBitVec = some (flag taken) := by
  have hcompare := fun {op : Opcode} (hop : hasEffect op .comparison = true) => intRegisters_compare
    hop l r
  cases op <;> first | exact absurd hop (by decide) | skip
  all_goals
    refine ⟨_, congrArg Except.ok (getBool_intOfBool _), ?_⟩
    change _ = some (flag (compareInts l r _))
    rw [← hcompare rfl]
    simp only [intRegisters, xor_eq_zero, flag_not, ne_eq]

end Registers

/-! ## 4. A register and a constant -/

section Immediates

variable {h : Hart} {out value : BitVec 5} {op : Opcode} {imm : Int64} {left : Bool}
  {funct3 : BitVec 3} {v : Word64}

theorem Leaves.immediate (hfits : fitsInSigned imm.toInt iTypeImmBits = true)
    (hop : Hart.opImm funct3 (h.get value) (immField imm) = some v) :
    Leaves h [emitIType 0x13 out value funct3 (toInt32 imm)] out v := by
  obtain ⟨hlow, hhigh⟩ := fits_iff.mp hfits
  have hword : (toInt32 imm).signExtend 64 = imm.toBitVec := setWidth_of_fits (by
    rw [fitsInSigned, Bool.and_eq_true, decide_eq_true_iff, decide_eq_true_iff]
    change _ ≤ imm.toInt ∧ imm.toInt < _
    omega)
  have hint : (toInt32 imm).toInt = imm.toInt := by
    rw [← BitVec.toInt_signExtend_of_le (v := 64) (by decide), hword]
    rfl
  refine .iType (hint ▸ hfits) ?_
  rwa [hword, ← immField_eq hfits]

-- the shifts keep their function above a count of six bits
theorem shift_leaves {k : Nat} (hk : k < 64) (out value : BitVec 5) (h : Hart) :
    Leaves h [emitIType 0x13 out value 1 (BitVec.ofNat 32 k)] out (h.get value <<< k) ∧
      Leaves h [emitIType 0x13 out value 5 (0x400 ||| (BitVec.ofNat 32 k &&& 0x3F))] out
        ((h.get value).sshiftRight k) := by
  have hall : ∀ k : Fin 64, fitsInSigned (BitVec.ofNat 32 k).toInt iTypeImmBits = true ∧
      ((BitVec.ofNat 32 k).signExtend 64).toNat = k ∧
      fitsInSigned (0x400 ||| (BitVec.ofNat 32 k &&& 0x3F)).toInt iTypeImmBits = true ∧
      ((0x400 ||| (BitVec.ofNat 32 k &&& 0x3F)).signExtend 64).toNat = 1024 + k := by
    decide +kernel
  obtain ⟨hfits, hcount, hfits', hcount'⟩ := hall ⟨k, hk⟩
  constructor
  · refine .iType hfits ?_
    change (if _ / 64 % 64 = 0 then some (h.get value <<< _) else none) = _
    rw [hcount, if_pos (by change k / 64 % 64 = 0; omega), Nat.mod_eq_of_lt hk]
  · refine .iType hfits' ?_
    change (if _ / 64 % 64 = 16 then some ((h.get value).sshiftRight _) else none) = _
    rw [hcount', if_pos (by change (1024 + k) / 64 % 64 = 16; omega), show (1024 + k) % 64 = k by omega]

theorem emitTypedIntBinaryOpImm_leaves (out value : BitVec 5)
    (htakes : intOpTakesImmediate op imm = true)
    (hv : intOpImmediate op (h.get value) imm = some v) :
    Leaves h (emitTypedIntBinaryOpImm out value imm op) out v := by
  have hcount : ∀ h : imm.toBitVec.toNat < 64, (imm.toBitVec.setWidth 8).setWidth 32 = BitVec.ofNat
    32 imm.toBitVec.toNat :=
    fun h => BitVec.eq_of_toNat_eq (by
      rw [BitVec.toNat_setWidth, BitVec.toNat_setWidth, BitVec.toNat_ofNat]
      omega)
  cases op <;> first | cases htakes | cases hv
  case add => exact .immediate htakes rfl
  case sub => exact .immediate htakes rfl
  case mul =>
    have hlt : Nat.log2 imm.toBitVec.toNat < 64 := by
      by_cases hzero : imm.toBitVec.toNat = 0
      · rw [hzero]
        decide
      · exact (Nat.log2_lt hzero).mpr imm.toBitVec.isLt
    exact (shift_leaves hlt out value h).1
  case bitAnd => exact .immediate htakes rfl
  case bitOr => exact .immediate htakes rfl
  case bitXor => exact .immediate htakes rfl
  case shl =>
    have hlt := toNat_lt_of_shift (of_decide_eq_true htakes)
    unfold emitTypedIntBinaryOpImm
    rw [hcount hlt]
    exact (shift_leaves hlt out value h).1
  case shr =>
    have hlt := toNat_lt_of_shift (of_decide_eq_true htakes)
    unfold emitTypedIntBinaryOpImm
    rw [hcount hlt]
    exact (shift_leaves hlt out value h).2

theorem emitIntCompareImm_leaves (value : BitVec 5) (hout : out ≠ 0)
    (hop : hasEffect op .comparison = true) (htakes : intCompareTakesImmediate op imm left = true)
    (hv : intCompareImmediate op (h.get value) imm left = some v) :
    Leaves h (emitIntCompareImm out value imm op left) out v := by
  have hop' : hasEffect (if left then mirrored op else op) .comparison = true := by
    cases left <;> cases op <;> first | rfl | cases hop
  unfold intCompareTakesImmediate at htakes
  unfold intCompareImmediate at hv
  unfold emitIntCompareImm
  generalize (if left then mirrored op else op) = op' at *
  cases op' <;> first | exact absurd hop' (by decide) | cases hv
  case cmpEq => exact .cons hout (.immediate (fits_neg (of_decide_eq_true htakes)) rfl) fun _ =>
    seqz_leaves
  case cmpNeq => exact .cons hout (.immediate (fits_neg (of_decide_eq_true htakes)) rfl) fun _ =>
    snez_leaves
  case cmpLt => exact .immediate htakes rfl
  case cmpLte => exact .immediate (Bool.and_eq_true_iff.mp htakes).2 rfl
  case cmpGt => exact .cons hout (.immediate (Bool.and_eq_true_iff.mp htakes).2 rfl) fun _ =>
    invert_leaves
  case cmpGte => exact .cons hout (.immediate htakes rfl) fun _ => invert_leaves

theorem emitIntFusedBranchImm_takes {offset : Word} {taken : Bool} (hvalue : value ≠ t1)
    (hoffset : (Encoding.b 0x63 0 0 0 offset).Representable)
    (hop : hasEffect op .fusedBranch = true) (htakes : intCompareTakesImmediate op imm left = true)
    (hv : intCompareImmediate op (h.get value) imm left = some (flag taken)) :
    Takes h (emitIntFusedBranchImm value imm op left offset) offset taken := by
  have hop' : hasEffect (if left then mirrored op else op) .fusedBranch = true := by
    cases left <;> cases op <;> first | rfl | cases hop
  unfold intCompareTakesImmediate at htakes
  unfold intCompareImmediate at hv
  unfold emitIntFusedBranchImm
  generalize (if left then mirrored op else op) = op' at *
  have hword : fitsInSigned imm.toBitVec.toInt 32 = true := by
    have hnear : -2049 ≤ imm.toInt ∧ imm.toInt ≤ 2048 := by
      have hequal : -2047 ≤ imm ∧ imm ≤ 2048 → -2049 ≤ imm.toInt ∧ imm.toInt ≤ 2048 := fun h =>
        ⟨(by decide : (-2049 : Int) ≤ -2047).trans (Int64.le_iff_toInt_le.mp h.1),
        Int64.le_iff_toInt_le.mp h.2⟩
      have hfits : ∀ {n : Int}, fitsInSigned n iTypeImmBits = true → -2048 ≤ n ∧ n < 2048 := fits_iff.mp
      cases op' <;> first | exact absurd hop' (by decide) | skip
      case branchEq => exact hequal (of_decide_eq_true htakes)
      case branchNeq => exact hequal (of_decide_eq_true htakes)
      case branchLt =>
        have := hfits htakes
        omega
      case branchGte =>
        have := hfits htakes
        omega
      all_goals
        rw [Bool.and_eq_true, decide_eq_true_eq] at htakes
        have hsucc : (imm + 1).toInt = imm.toInt + 1 := toInt_succ htakes.1
        have := hfits htakes.2
        omega
    rw [fitsInSigned, Bool.and_eq_true, decide_eq_true_iff, decide_eq_true_iff]
    change _ ≤ imm.toInt ∧ imm.toInt < _
    omega
  have hregisters : intRegisters op' (h.get value) imm.toBitVec = some (flag taken) := by
    rw [← hv]
    cases op' <;> first | rfl | exact absurd hop' (by decide)
  by_cases hzero : imm = 0
  · subst hzero
    exact ⟨h, rfl, fusedBranch_run hoffset hregisters hop'⟩
  · rw [if_neg hzero, if_neg hzero]
    obtain ⟨-, h₁, hrun, hsets⟩ := emitLi_sets h t1 hword
    refine ⟨h₁, by rw [List.dropLast_concat, hrun], ?_⟩
    rw [run_append, hrun]
    refine fusedBranch_run hoffset ?_ hop'
    rw [hsets.get, if_neg fun hand => hvalue hand.1, hsets.get, if_pos ⟨rfl, by decide⟩]
    exact hregisters

end Immediates

/-- The constant and the other operand, in their order. -/
def operandsOf (left : Bool) (imm x : Int64) : Int64 × Int64 := if left then (imm, x) else (x, imm)

/-- The immediate form, the form over registers and the interpreter agree on a value of the other
operand. -/
structure FormsAgree (fmod : Float → Float → Float) (op : Opcode) (imm : Int64) (left : Bool)
    (x l r : Int64) : Prop where
  arithmetic : comparesInts op = false →
    ∃ v, binaryOp fmod (.int l) (.int r) op = .ok (.int (.ofBitVec v)) ∧
    ∀ (h : Hart) (out : BitVec 5), (∀ value, h.get value = x.toBitVec →
        Leaves h (emitTypedIntBinaryOpImm out value imm op) out v) ∧
      ∀ lhs rhs, h.get lhs = l.toBitVec → h.get rhs = r.toBitVec →
        Leaves h (emitTypedIntBinaryOp out lhs rhs op) out v
  comparison : hasEffect op .comparison = true →
    ∃ v, compareOp (.int l) (.int r) op = .ok (.int (.ofBitVec v)) ∧
    ∀ h : Hart, (∀ value, h.get value = x.toBitVec →
      Leaves h (emitIntCompareImm t2 value imm op left) t2 v) ∧
      ∀ lhs rhs, h.get lhs = l.toBitVec → h.get rhs = r.toBitVec →
        Leaves h (emitTypedIntComparison lhs rhs op) t2 v
  branch : hasEffect op .fusedBranch = true → ∃ taken, fusedBranchTaken (.int l) (.int r)
    op = .ok taken ∧
    ∀ (h : Hart) (offset : Word), (Encoding.b 0x63 0 0 0 offset).Representable →
      (∀ value, value ≠ t1 → h.get value = x.toBitVec →
        Takes h (emitIntFusedBranchImm value imm op left offset) offset taken) ∧
      ∀ lhs rhs, h.get lhs = l.toBitVec → h.get rhs = r.toBitVec →
        Takes h (emitIntFusedBranch lhs rhs op offset) offset taken

theorem FormsAgree.of_takes (fmod : Float → Float → Float) {op : Opcode} {imm : Int64} {left : Bool}
    (htakes : takesImmediate op imm left = true) (x : Int64) :
    FormsAgree fmod op imm left x (operandsOf left imm x).1 (operandsOf left imm x).2 := by
  have hresult : immediateResult op x.toBitVec imm left =
      intRegisters op (operandsOf left imm x).1.toBitVec (operandsOf left imm x).2.toBitVec := by
    rw [immediateResult_eq htakes]
    cases left <;> rfl
  generalize (operandsOf left imm x).1 = l at *
  generalize (operandsOf left imm x).2 = r at *
  unfold takesImmediate at htakes
  unfold immediateResult at hresult
  refine ⟨fun hop => ?_, fun hop => ?_, fun hop => ?_⟩
  · rw [hop] at htakes hresult
    have htakes := (Bool.and_eq_true_iff.mp htakes).2
    have hkind : (intOpFunct op).isSome = true ∧ op ≠ .div ∧ op ≠ .mod := by
      cases op <;> first | decide | cases htakes
    obtain ⟨v, hv⟩ : ∃ v, intRegisters op l.toBitVec r.toBitVec = some v := by
      cases op <;> first | exact ⟨_, rfl⟩ | cases htakes
    refine ⟨v, (binaryOp_eq_iff fmod hkind.1 hv).mpr fun h => ?_,
      fun h out => ⟨fun value hx => ?_, fun lhs rhs hl hr => ?_⟩⟩
    · exact h.2.elim hkind.2.1 fun hmod => hkind.2.2 hmod.1
    · exact emitTypedIntBinaryOpImm_leaves out value htakes (by rw [hx, ← hv]; exact hresult)
    · exact emitTypedIntBinaryOp_leaves out lhs rhs hkind.1 (by rw [hl, hr, hv])
  · have hcompares : comparesInts op = true := by rw [comparesInts, hop]; rfl
    rw [hcompares] at htakes hresult
    have hv := intRegisters_compare hop l r
    refine ⟨flag (compareInts l r op), ?_, fun h => ⟨fun value hx => ?_, fun lhs rhs hl hr => ?_⟩⟩
    · change Except.ok (intOfBool (compareInts l r op)) = _
      cases compareInts l r op <;> rfl
    · exact emitIntCompareImm_leaves value (by decide) hop htakes (by rw [hx, ← hv]; exact hresult)
    · exact emitTypedIntComparison_leaves lhs rhs hop (by rw [hl, hr, hv])
  · have hcompares : comparesInts op = true := by rw [comparesInts, hop, Bool.or_true]
    rw [hcompares] at htakes hresult
    obtain ⟨taken, htaken, hv⟩ := intRegisters_fused hop l r
    refine ⟨taken, htaken, fun h offset hoffset => ⟨fun value hvalue hx => ?_, fun lhs rhs hl hr => ?_⟩⟩
    · exact emitIntFusedBranchImm_takes hvalue hoffset hop htakes (by rw [hx, ← hv]; exact hresult)
    · exact ⟨h, rfl, fusedBranch_run hoffset (by rw [hl, hr, hv]) hop⟩

/-- An operand that folds is the constant of the form that is emitted, and the form agrees with the
registers' and the interpreter for every value of the other operand. -/
theorem immediate_forms_agree (fmod : Float → Float → Float) {constants : Int → Option Int64}
    {instr : IRInstruction} {index : Nat} (hfolds : foldsToImmediate constants instr index = true) :
    ∃ r value imm left, operandRegister instr index = some r ∧ constants r = some imm ∧
      value ≠ index ∧
      genIntForm constants instr = some (.immediate value imm left) ∧
      ∀ x, FormsAgree fmod instr.opcode imm left x (operandsOf left imm x).1
        (operandsOf left imm x).2 := by
  obtain ⟨h⟩ := folds_of_foldsToImmediate hfolds
  obtain ⟨r, hr⟩ : ∃ r, operandRegister instr index = some r := by
    rcases h.side with hside | hside
    · exact ⟨_, hside.symm ▸ h.hleft⟩
    · exact ⟨_, hside.symm ▸ h.hright⟩
  obtain ⟨value, imm, left, hform, hconstant, hne, htakes⟩ := form_of_folds hfolds hr
  exact ⟨r, value, imm, left, hr, hconstant, hne, hform, .of_takes fmod htakes⟩

/-- A subtraction of 2048, whose negated immediate is the least there is. -/
theorem immediate_forms_agree_least :
    let instr : IRInstruction :=
  { opcode := .sub, operands := [.reg 2, .reg 0, .reg 1], typeHint := Variant.int }
    let constants : Int → Option Int64 := fun r => if r = 1 then some 2048 else none
    foldsToImmediate constants instr 2 = true ∧
      ∃ r value imm left, operandRegister instr 2 = some r ∧ constants r = some imm ∧ value ≠ 2 ∧
        genIntForm constants instr = some (.immediate value imm left) ∧
        ∀ x, FormsAgree (fun x _ => x) .sub imm left x (operandsOf left imm x).1
          (operandsOf left imm x).2 :=
  ⟨by decide +kernel, immediate_forms_agree _ (by decide +kernel)⟩

end Plan
