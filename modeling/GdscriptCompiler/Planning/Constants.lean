import GdscriptCompiler.Planning.Execution
import GdscriptCompiler.Planning.Immediates

/-!
# Constants — `plan_constants` and the instructions that take a constant as an immediate

The three emitters of typed integer instructions decide by the predicate the plan uses.
-/

namespace Plan

open Ir

/-! ## 1. The plan -/

def operandRegister (instr : IRInstruction) (index : Nat) : Option Int :=
  match instr.operands[index]? with
  | some (.reg r) => some r
  | _ => none

/-- Does the opcode take the constant, on the left or on the right, as an immediate? -/
def takesImmediate (op : Opcode) (value : Int64) (constantOnLeft : Bool) : Bool :=
  if comparesInts op then intCompareTakesImmediate op value constantOnLeft
  else (!constantOnLeft || intOpIsCommutative op) && intOpTakesImmediate op value

/-- The opcodes `folds_to_immediate` knows. -/
def foldable : Opcode → Bool
  | .cmpEq | .cmpNeq | .cmpLt | .cmpLte | .cmpGt | .cmpGte => true
  | .branchEq | .branchNeq | .branchLt | .branchLte | .branchGt | .branchGte => true
  | .add | .sub | .mul | .bitAnd | .bitOr | .bitXor | .shl | .shr => true
  | _ => false

-- a fused branch has no destination before its operands
def lhsIndex (op : Opcode) : Nat := if hasEffect op .fusedBranch then 0 else 1

def rhsIndex (op : Opcode) : Nat := if hasEffect op .fusedBranch then 1 else 2

/-- `folds_to_immediate`; `constants` is `constant_int`. -/
def foldsToImmediate (constants : Int → Option Int64) (instr : IRInstruction) (index : Nat) :
    Bool :=
  let lhs := lhsIndex instr.opcode
  let rhs := rhsIndex instr.opcode
  if instr.typeHint ≠ Variant.int ∨ instr.operands.length < 3 ∨ (index ≠ lhs ∧ index ≠ rhs) then false
  else
    match operandRegister instr lhs, operandRegister instr rhs with
    | some left, some right =>
      if !comparesInts instr.opcode && (operandRegister instr 0).isNone then false
      else if !foldable instr.opcode then false
      else
        match constants (if index = lhs then left else right) with
        | none => false
        | some value =>
          if left = right then false
          else if !takesImmediate instr.opcode value (index = lhs) then false
          else if index = lhs then
            -- the right operand wins when both fold
            match constants right with
            | some rhsValue => !takesImmediate instr.opcode rhsValue false
            | none => true
          else true
    | _, _ => false

def loadedImmediate (instr : IRInstruction) : Option (Int × Int64) :=
  match instr.opcode, instr.operands with
  | .loadImm, .reg dst :: .imm value :: _ => some (dst, value)
  | _, _ => none

def constInts (f : IRFunction) (r : Int) : Option Int64 :=
  f.instructions.reverse.findSome? fun instr =>
    match loadedImmediate instr with
    | some (dst, value) => if dst = r ∧ definitions f dst = 1 then some value else none
    | none => none

/-- `materialized`: some read of the constant does not fold. -/
def materialized (f : IRFunction) (r : Int) : Bool :=
  f.instructions.any fun instr =>
    ((List.range instr.operands.length).any fun index =>
      operandRegister instr index = some r && instr.readsOperand index &&
        !foldsToImmediate (constInts f) instr index) ||
    -- a bare RETURN reads r0
    (instr.operands.isEmpty && r ∈ instr.collectReadRegisters)

/-- `unmaterialized_imm`: the LOAD_IMMs that are not emitted. -/
def unmaterializedImm (f : IRFunction) (i : Nat) : Bool :=
  match f.instructions[i]?.bind loadedImmediate with
  | some (dst, _) => definitions f dst = 1 && !materialized f dst
  | none => false

/-! ## 2. The emitters -/

/-- The opcodes `is_typed_int_binary` knows. -/
def intBinary : Opcode → Bool
  | .add | .sub | .mul | .div | .mod | .bitAnd | .bitOr | .bitXor | .shl | .shr => true
  | _ => false

def isTypedIntBinary (instr : IRInstruction) : Bool :=
  instr.typeHint = Variant.int && ((List.range 3).all fun i => (operandRegister instr i).isSome) &&
    intBinary instr.opcode

/-- What is emitted for a typed integer instruction, by operand position. -/
inductive IntForm where
  | registers (lhs rhs : Nat)
  | immediate (value : Nat) (imm : Int64) (constantOnLeft : Bool)

def IntForm.loads : IntForm → List Nat
  | registers lhs rhs => [lhs, rhs]
  | immediate value _ _ => [value]

-- `folds_to_immediate(instr, index) && constant_int(vreg, imm)`
def foldedConstant (constants : Int → Option Int64) (instr : IRInstruction) (index : Nat) :
    Option Int64 :=
  if foldsToImmediate constants instr index then (operandRegister instr index).bind constants else none

def intForm (constants : Int → Option Int64) (instr : IRInstruction) (lhs rhs : Nat) : IntForm :=
  match foldedConstant constants instr rhs with
  | some imm => .immediate lhs imm false
  | none =>
    match foldedConstant constants instr lhs with
    | some imm => .immediate rhs imm true
    | none => .registers lhs rhs

def bothRegisters (instr : IRInstruction) (lhs rhs : Nat) : Bool :=
  (operandRegister instr lhs).isSome && (operandRegister instr rhs).isSome

/-- The INT path of `gen_binary_op`. -/
def genBinaryOp (constants : Int → Option Int64) (instr : IRInstruction) : Option IntForm :=
  if instr.opcode ≠ .pow ∧ instr.opcode ≠ .inOp ∧ instr.typeHint = Variant.int ∧
    bothRegisters instr 1 2 then
    some (intForm constants instr 1 2)
  else none

/-- The INT path of `gen_comparison`. -/
def genComparison (constants : Int → Option Int64) (instr : IRInstruction) : Option IntForm :=
  if instr.typeHint = Variant.int ∧
    bothRegisters instr 1 2 then some (intForm constants instr 1 2) else none

/-- The INT path of `gen_fused_branch`, which refuses anything but registers. -/
def genFusedBranch (constants : Int → Option Int64) (instr : IRInstruction) : Option IntForm :=
  if instr.typeHint = Variant.int ∧
    bothRegisters instr 0 1 then some (intForm constants instr 0 1) else none

/-- The form `gen_instruction` emits, where it takes an INT path. -/
def genIntForm (constants : Int → Option Int64) (instr : IRInstruction) : Option IntForm :=
  match instr.opcode with
  | .add | .sub | .mul | .div | .mod | .bitAnd | .bitOr | .bitXor | .shl | .shr | .pow | .inOp =>
    genBinaryOp constants instr
  | .cmpEq | .cmpNeq | .cmpLt | .cmpLte | .cmpGt | .cmpGte => genComparison constants instr
  | .branchEq | .branchNeq | .branchLt | .branchLte | .branchGt | .branchGte =>
    genFusedBranch constants instr
  | _ => none

/-- The registers the emitted code takes from their slots; outside the INT paths these are all it
reads. -/
def loadedRegisters (constants : Int → Option Int64) (instr : IRInstruction) : List Int :=
  match genIntForm constants instr with
  | some form => form.loads.filterMap (operandRegister instr)
  | none => instr.collectReadRegisters

/-- What an immediate form leaves, for the value of its register. -/
def immediateResult (op : Opcode) (value : Word64) (imm : Int64) (constantOnLeft : Bool) :
    Option Word64 :=
  if comparesInts op then intCompareImmediate op value imm constantOnLeft else intOpImmediate op
    value imm

/-! ## 3. The emitters follow the plan -/

theorem intRegisters_comm {op : Opcode} (h : intOpIsCommutative op = true) (a b : Word64) :
    intRegisters op a b = intRegisters op b a := by
  cases op <;> first | exact absurd h (by decide) | skip
  · exact congrArg some (BitVec.add_comm a b)
  · exact congrArg some (BitVec.mul_comm a b)
  · exact congrArg some (BitVec.and_comm a b)
  · exact congrArg some (BitVec.or_comm a b)
  · exact congrArg some (BitVec.xor_comm a b)

theorem immediateResult_eq {op : Opcode} {imm : Int64} {constantOnLeft : Bool}
    (h : takesImmediate op imm constantOnLeft = true) (value : Word64) :
    immediateResult op value imm constantOnLeft =
      if constantOnLeft then intRegisters op imm.toBitVec value
      else intRegisters op value imm.toBitVec := by
  unfold takesImmediate at h
  unfold immediateResult
  by_cases hcompares : comparesInts op = true
  · rw [if_pos hcompares] at h ⊢
    exact intCompareImmediate_eq h value
  · rw [if_neg hcompares] at h ⊢
    rw [Bool.and_eq_true, Bool.or_eq_true, Bool.not_eq_true'] at h
    rw [intOpImmediate_eq h.2]
    cases constantOnLeft with
    | false => rfl
    | true => exact intRegisters_comm (h.1.resolve_left (by decide)) _ _

variable {index : Nat} {r : Int}

section Forms

variable {constants : Int → Option Int64} {instr : IRInstruction}

/-- What `folds_to_immediate` has checked. -/
structure Folds (constants : Int → Option Int64) (instr : IRInstruction) (index : Nat) where
  left : Int
  right : Int
  value : Int64
  typed : instr.typeHint = Variant.int
  opcode : foldable instr.opcode = true
  hleft : operandRegister instr (lhsIndex instr.opcode) = some left
  hright : operandRegister instr (rhsIndex instr.opcode) = some right
  side : index = lhsIndex instr.opcode ∨ index = rhsIndex instr.opcode
  constant : constants (if index = lhsIndex instr.opcode then left else right) = some value
  takes : takesImmediate instr.opcode value (index = lhsIndex instr.opcode) = true
  -- on the left only if the right operand does not take its own
  last : index = lhsIndex instr.opcode → ∀ rhsValue, constants right = some rhsValue →
    takesImmediate instr.opcode rhsValue false = false

theorem folds_of_foldsToImmediate (h : foldsToImmediate constants instr index = true) :
    Nonempty (Folds constants instr index) := by
  unfold foldsToImmediate at h
  dsimp only at h
  split at h
  · cases h
  rename_i hshape
  split at h
  · rename_i left right hleft hright
    split at h
    · cases h
    split at h
    · cases h
    rename_i hfoldable
    split at h
    · cases h
    rename_i value hvalue
    split at h
    · cases h
    split at h
    · cases h
    rename_i htakes
    rw [not_or, not_or, not_and_or, not_not, not_not, not_not] at hshape
    refine ⟨⟨left, right, value, hshape.1, by simpa using hfoldable, hleft, hright, hshape.2.2, hvalue,
      by simpa using htakes, fun hindex rhsValue hrhs => ?_⟩⟩
    rw [if_pos hindex, hrhs] at h
    simpa using h
  · cases h

theorem genIntForm_eq (htyped : instr.typeHint = Variant.int)
    (hfoldable : foldable instr.opcode = true)
    (hleft : (operandRegister instr (lhsIndex instr.opcode)).isSome = true)
    (hright : (operandRegister instr (rhsIndex instr.opcode)).isSome = true) :
    genIntForm constants instr =
      some (intForm constants instr (lhsIndex instr.opcode) (rhsIndex instr.opcode)) := by
  unfold genIntForm genBinaryOp genComparison genFusedBranch bothRegisters
  revert hleft hright hfoldable
  cases instr.opcode <;> first | exact fun h => absurd h (by decide) | skip
  all_goals
    intro _ hleft hright
    have hboth := (Bool.and_eq_true _ _).mpr ⟨hleft, hright⟩
    dsimp only
    rw [if_pos (by simpa [htyped, lhsIndex, rhsIndex, hasEffect, opcodeInfo] using hboth)]
    rfl

theorem index_ne (op : Opcode) : lhsIndex op ≠ rhsIndex op := by
  unfold lhsIndex rhsIndex
  split <;> decide

theorem foldedConstant_eq (hfolds : foldsToImmediate constants instr index = true)
    (hr : operandRegister instr index = some r) :
    foldedConstant constants instr index = constants r := by
  rw [foldedConstant, if_pos hfolds, hr]
  rfl

theorem foldedConstant_none (hfolds : foldsToImmediate constants instr index = false) :
    foldedConstant constants instr index = none := by
  rw [foldedConstant, hfolds]
  rfl

theorem form_of_folds (hfolds : foldsToImmediate constants instr index = true)
    (hr : operandRegister instr index = some r) :
    ∃ value imm constantOnLeft,
      genIntForm constants instr = some (.immediate value imm constantOnLeft) ∧
        constants r = some imm ∧
      value ≠ index ∧ takesImmediate instr.opcode imm constantOnLeft = true := by
  obtain ⟨h⟩ := folds_of_foldsToImmediate hfolds
  rw [genIntForm_eq h.typed h.opcode (by rw [h.hleft]; rfl) (by rw [h.hright]; rfl), intForm]
  have hconstant := h.constant
  have htakes := h.takes
  have hne := index_ne instr.opcode
  rcases h.side with hside | hside
  · -- the right operand does not fold: it would have to take its constant
    have hright : foldsToImmediate constants instr (rhsIndex instr.opcode) = false := by
      rw [Bool.eq_false_iff]
      intro hboth
      obtain ⟨h'⟩ := folds_of_foldsToImmediate hboth
      have hsame : h'.right = h.right := Option.some.inj (h'.hright.symm.trans h.hright)
      have hconstant' := h'.constant
      have htakes' := h'.takes
      rw [if_neg hne.symm, hsame] at hconstant'
      rw [decide_eq_false hne.symm, h.last hside _ hconstant'] at htakes'
      cases htakes'
    obtain rfl : h.left = r := Option.some.inj (h.hleft.symm.trans (hside ▸ hr))
    rw [if_pos hside] at hconstant
    rw [decide_eq_true hside] at htakes
    subst hside
    rw [foldedConstant_none hright, foldedConstant_eq hfolds hr, hconstant]
    exact ⟨_, _, _, rfl, rfl, hne.symm, htakes⟩
  · obtain rfl : h.right = r := Option.some.inj (h.hright.symm.trans (hside ▸ hr))
    subst hside
    rw [if_neg hne.symm] at hconstant
    rw [decide_eq_false hne.symm] at htakes
    rw [foldedConstant_eq hfolds hr, hconstant]
    exact ⟨_, _, _, rfl, rfl, hne, htakes⟩

theorem operandRegister_eq_some :
    operandRegister instr index = some r ↔ instr.operands[index]? = some (.reg r) := by
  unfold operandRegister
  cases instr.operands[index]? with
  | none => simp
  | some operand => cases operand <;> simp

theorem loads_intForm {lhs rhs : Nat} (h : index ∈ (intForm constants instr lhs rhs).loads) :
    index = lhs ∨ index = rhs := by
  unfold intForm at h
  split at h
  · exact .inl (List.mem_singleton.mp h)
  · split at h
    · exact .inr (List.mem_singleton.mp h)
    · simpa [IntForm.loads] using h

variable {form : IntForm}

section

variable (h : genIntForm constants instr = some form)
include h

-- of the opcodes with an INT path, the operands it takes
theorem genIntForm_some :
    form = intForm constants instr (lhsIndex instr.opcode) (rhsIndex instr.opcode) ∧
      kindAt instr.signature (lhsIndex instr.opcode) = .src ∧
        kindAt instr.signature (rhsIndex instr.opcode) = .src := by
  unfold genIntForm genBinaryOp genComparison genFusedBranch at h
  unfold IRInstruction.signature
  revert h
  cases instr.opcode <;> intro h <;> dsimp only at h
  all_goals first
    | cases h
    | split at h
      · cases h
        exact ⟨rfl, rfl, rfl⟩
      · cases h

theorem genIntForm_index (hindex : index ∈ form.loads) : kindAt instr.signature index = .src := by
  obtain ⟨rfl, hlhs, hrhs⟩ := genIntForm_some h
  rcases loads_intForm hindex with rfl | rfl
  · exact hlhs
  · exact hrhs

theorem reads_of_loads (hindex : index ∈ form.loads) (hr : operandRegister instr index = some r) :
    instr.readsOperand index = true := by
  unfold IRInstruction.readsOperand
  rw [operandRegister_eq_some.mp hr]
  exact decide_eq_true (by rw [genIntForm_index h hindex]; decide)

end

end Forms

/-! ## 4. Constants along a run -/

section Runs

variable {f : IRFunction} {V : VerifiedFunction} {v : Int64}

theorem constInts_spec (h : constInts f r = some v) :
    definitions f r = 1 ∧
      ∃ (i : Nat) (instr : IRInstruction), f.instructions[i]? = some instr ∧
        loadedImmediate instr = some (r, v) := by
  unfold constInts at h
  obtain ⟨instr, hmem, hsome⟩ := List.exists_of_findSome?_eq_some h
  obtain ⟨i, hi⟩ := List.mem_iff_getElem?.mp (List.mem_reverse.mp hmem)
  split at hsome
  · rename_i dst value hload
    split at hsome
    · rename_i hdst
      obtain ⟨rfl, hone⟩ := hdst
      cases hsome
      exact ⟨hone, i, instr, hi, hload⟩
    · cases hsome
  · cases hsome

variable {instr : IRInstruction}

theorem loadedImmediate_spec (h : loadedImmediate instr = some (r, v)) :
    instr.opcode = .loadImm ∧ instr.destinationRegister = r ∧
      ∃ rest, instr.operands = .reg r :: .imm v :: rest := by
  unfold loadedImmediate at h
  split at h
  · rename_i dst value rest hop hops
    cases h
    refine ⟨hop, ?_, rest, hops⟩
    exact destination_of_index (j := 0) (by rw [hop]; rfl) (by rw [hops]; rfl)
  · cases h

theorem constInts_isSome {i : Nat} (hi : f.instructions[i]? = some instr)
    (hload : loadedImmediate instr = some (r, v)) (hone : definitions f r = 1) :
    constInts f r = some v := by
  cases h : constInts f r with
  | none =>
    unfold constInts at h
    have hnone := List.findSome?_eq_none_iff.mp h instr (List.mem_reverse.mpr (List.mem_of_getElem? hi))
    rw [hload] at hnone
    simp [hone] at hnone
  | some v' =>
    obtain ⟨-, i', instr', hi', hload'⟩ := constInts_spec h
    obtain rfl := definition_unique hone hi (loadedImmediate_spec hload).2.1 hi'
      (loadedImmediate_spec hload').2.1
    rw [hi] at hi'
    cases hi'
    rw [hload] at hload'
    cases hload'
    rfl

variable {Value World : Type} {H : Host Value World} {start c : Config Value World}
  {past : List Nat}

theorem Runs.constant (h : Runs V H start past c) (hr : constInts V.function r = some v)
    (hw : V.WrittenIn past r) :
    c.registers r = H.int v := by
  have hall := h.holds (S := fun s => s = r) (P := fun _ value => value = H.int v) ?_ rfl hw
  · exact hall
  · intro past c instr _ hinstr _ hdst
    obtain ⟨hone, i, load, hi, hload⟩ := constInts_spec hr
    have hspec := loadedImmediate_spec hload
    obtain rfl : c.pc = i := definition_unique hone hi hspec.2.1 hinstr hdst
    rw [VerifiedFunction.at?, hi] at hinstr
    cases hinstr
    obtain ⟨rest, hops⟩ := hspec.2.2
    unfold Host.written
    rw [hspec.1, hops]

theorem not_bare (h : operandRegister instr index = some r) : instr.isBareReturn = false := by
  rw [Bool.eq_false_iff]
  intro hbare
  have hempty : instr.operands = [] := by
    simpa using ((Bool.and_eq_true _ _).mp hbare).2
  rw [operandRegister_eq_some, hempty] at h
  cases h

theorem mem_reads (h : operandRegister instr index = some r)
    (hreads : instr.readsOperand index = true) :
    r ∈ instr.collectReadRegisters := by
  have hoperand := operandRegister_eq_some.mp h
  unfold IRInstruction.readsOperand at hreads
  rw [hoperand] at hreads
  exact mem_collectReadRegisters.mpr (.inl ⟨index, hoperand, of_decide_eq_true hreads⟩)

theorem Runs.operand (h : Runs V H start past c) (hinstr : V.at? c.pc = some instr)
    (hr : operandRegister instr index = some r) (hreads : instr.readsOperand index = true)
    (hv : constInts V.function r = some v) :
    c.registers r = H.int v := by
  obtain ⟨hone, i, load, hi, hload⟩ := constInts_spec hv
  have hlt : c.pc < V.function.instructions.length := (List.getElem?_eq_some_iff.mp hinstr).1
  have hdefined := (h.reached hlt).read_written hinstr (not_bare hr) (mem_reads hr hreads)
  have hparam := not_parameter hone hi (loadedImmediate_spec hload).2.1
  exact h.constant hv (hdefined.resolve_right hparam)

theorem folds_of_unmaterialized {f : IRFunction} (h : materialized f r = false)
    (hmem : instr ∈ f.instructions) (hr : operandRegister instr index = some r)
    (hreads : instr.readsOperand index = true) :
    foldsToImmediate (constInts f) instr index = true := by
  by_contra hfolds
  rw [Bool.eq_false_iff] at h
  refine h (List.any_eq_true.mpr ⟨instr, hmem, (Bool.or_eq_true _ _).mpr (.inl ?_)⟩)
  have hlt := (List.getElem?_eq_some_iff.mp (operandRegister_eq_some.mp hr)).1
  refine List.any_eq_true.mpr ⟨index, List.mem_range.mpr hlt, ?_⟩
  rw [Bool.eq_false_iff.mpr hfolds, hreads, decide_eq_true hr]
  rfl

theorem not_loaded_of_unmaterialized {f : IRFunction} (h : materialized f r = false)
    (hmem : instr ∈ f.instructions) :
    r ∉ loadedRegisters (constInts f) instr := by
  unfold loadedRegisters
  cases hform : genIntForm (constInts f) instr with
  | none =>
    intro hr
    rcases mem_collectReadRegisters.mp hr with ⟨index, hoperand, hkind⟩ | hbare
    · -- an operand that folds has an immediate form
      have hreg := operandRegister_eq_some.mpr hoperand
      have hreads : instr.readsOperand index = true := by
        unfold IRInstruction.readsOperand
        rw [hoperand]
        exact decide_eq_true hkind
      obtain ⟨value, imm, left, hsome, -⟩ :=
        form_of_folds (folds_of_unmaterialized h hmem hreg hreads) hreg
      rw [hform] at hsome
      cases hsome
    · rw [Bool.eq_false_iff] at h
      refine h (List.any_eq_true.mpr ⟨instr, hmem, (Bool.or_eq_true _ _).mpr (.inr ?_)⟩)
      rw [hbare.2.1, decide_eq_true hr]
      rfl
  | some form =>
    intro hr
    obtain ⟨index, hindex, hreg⟩ := List.mem_filterMap.mp hr
    have hfolds := folds_of_unmaterialized h hmem hreg (reads_of_loads hform hindex hreg)
    obtain ⟨value, imm, left, hsome, -, hne, -⟩ := form_of_folds hfolds hreg
    rw [hform] at hsome
    cases hsome
    exact hne (List.mem_singleton.mp hindex).symm

/-- The two halves of the plan: every operand read of a constant sees it, and the emitted code never
looks for one whose LOAD_IMM is not emitted. -/
structure ConstantsSound (V : VerifiedFunction) (H : Host Value World) : Prop where
  operand : ∀ (p : Point V H) (instr : IRInstruction) (index : Nat) (r : Int) (v : Int64),
    V.at? p.config.pc = some instr → operandRegister instr index = some r →
      instr.readsOperand index = true →
    constInts V.function r = some v → p.config.registers r = H.int v
  -- the implicit operand of a bare RETURN is not checked by the verifier
  returned : ∀ (p : Point V H) (v : Int64), constInts V.function 0 = some v → V.WrittenIn p.past 0 →
    p.config.registers 0 = H.int v
  folded : ∀ (i : Nat), unmaterializedImm V.function i = true → ∃ r v,
    (V.at? i).bind loadedImmediate = some (r, v) ∧ constInts V.function r = some v ∧
    ∀ (k : Nat) (instr : IRInstruction), V.at? k = some instr →
      r ∉ loadedRegisters (constInts V.function) instr ∧
      ∀ (index : Nat), operandRegister instr index = some r → instr.readsOperand index = true →
        ∃ value left, genIntForm (constInts V.function) instr = some (.immediate value v left) ∧
          value ≠ index ∧
          ∀ a, immediateResult instr.opcode a v left =
            if left then intRegisters instr.opcode v.toBitVec a
            else intRegisters instr.opcode a v.toBitVec

theorem planConstants_sound (V : VerifiedFunction) (H : Host Value World) : ConstantsSound V H where
  operand p instr index r v hinstr hr hreads hv := p.runs.operand hinstr hr hreads hv
  returned p v hv hw := p.runs.constant hv hw
  folded i hi := by
    unfold unmaterializedImm at hi
    split at hi
    · rename_i r v hload
      rw [Bool.and_eq_true, decide_eq_true_eq, Bool.not_eq_true'] at hi
      obtain ⟨instr, hinstr, hloaded⟩ := Option.bind_eq_some_iff.mp hload
      have hconst := constInts_isSome hinstr hloaded hi.1
      refine ⟨r, v, hload, hconst, fun k instr' hinstr' => ?_⟩
      have hmem := List.mem_of_getElem? hinstr'
      refine ⟨not_loaded_of_unmaterialized hi.2 hmem, fun index hr hreads => ?_⟩
      have hfolds := folds_of_unmaterialized hi.2 hmem hr hreads
      obtain ⟨value, imm, left, hform, hsome, hne, htakes⟩ := form_of_folds hfolds hr
      obtain rfl : v = imm := Option.some.inj (hconst.symm.trans hsome)
      exact ⟨value, left, hform, hne, immediateResult_eq htakes⟩
    · cases hi

end Runs

/-! ## 5. A bare RETURN -/

/-- A branch around `LOAD_IMM r0, 5` to a bare RETURN. -/
def skippedFunction : IRFunction where
  name := "f"
  parameters := []
  instructions := [
    { opcode := .loadBool, operands := [.reg 1, .imm 0] },
    { opcode := .branchZero, operands := [.reg 1, .label 0] },
    { opcode := .loadImm, operands := [.reg 0, .imm 5] },
    { opcode := .label, operands := [.label 0] },
    { opcode := .returnOp, operands := [] }]
  maxRegisters := 2

theorem accepted_skipped : irVerify (some ⟨["done"], by decide⟩) skippedFunction = .ok () := rfl

def skipped : VerifiedFunction where
  function := skippedFunction
  strings := ⟨["done"], by decide⟩
  named := by decide
  accepted := accepted_skipped

/-- A host that takes every branch; a slot nothing was written to is none. -/
def takingHost : Host (Option Int64) Unit where
  int := some
  result _ _ _ := some 0
  after _ _ _ := ()
  next _ _ _ := 0

theorem skipped_run :
    ∃ past c, Runs skipped takingHost (entry (fun _ => none) ()) past c ∧
      (skipped.at? c.pc).map IRInstruction.collectReadRegisters = some [0] ∧
        c.registers 0 = none := by
  have hrun : (takingHost.run skippedFunction (entry (fun _ => none) ()) 3).map
      (fun p => (p.2.pc, p.2.registers 0)) = some (4, none) := by decide +kernel
  obtain ⟨⟨past, c⟩, hsome, heq⟩ := Option.map_eq_some_iff.mp hrun
  obtain ⟨hpc, hzero⟩ := Prod.mk.inj heq
  refine ⟨past, c, runs_of_run (V := skipped) rfl hsome, ?_, hzero⟩
  dsimp only at hpc
  rw [hpc]
  decide +kernel

/-- r0 is the constant 5, and yet the RETURN reads a slot that was never written. -/
theorem skipped_constant :
    constInts skippedFunction 0 = some 5 ∧
      ∃ p : Point skipped takingHost, (skipped.at? p.config.pc).map
        IRInstruction.collectReadRegisters = some [0] ∧
      p.config.registers 0 = none := by
  obtain ⟨past, c, hruns, hread⟩ := skipped_run
  exact ⟨by decide +kernel, ⟨_, past, c, hruns⟩, hread⟩

/-- The mask of the loop is not loaded, and at its first AND the register holds it. -/
theorem planConstants_sound_loop :
    unmaterializedImm maskLoopFunction 0 = true ∧ ConstantsSound maskLoop takingHost ∧
      ∃ p : Point maskLoop takingHost, p.config.pc = 2 ∧ p.config.registers 2 = some 7 := by
  have hrun : (takingHost.run maskLoopFunction (entry (fun _ => none) ()) 2).map (fun p => p.2.pc) =
      some 2 := by decide +kernel
  obtain ⟨⟨past, c⟩, hsome, hpc⟩ := Option.map_eq_some_iff.mp hrun
  dsimp only at hpc
  let p : Point maskLoop takingHost := ⟨_, past, c, runs_of_run (V := maskLoop) rfl hsome⟩
  have hsound := planConstants_sound maskLoop takingHost
  have hinstr : maskLoop.at? p.config.pc = maskLoopFunction.instructions[2]? :=
    congrArg maskLoop.at? hpc
  exact ⟨by decide +kernel, hsound, p, hpc, hsound.operand p _ 2 2 7 hinstr rfl rfl (by decide +kernel)⟩

end Plan
