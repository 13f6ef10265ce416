import GdscriptCompiler.Ir.Accepted

/-! # InterpreterSteps — what one instruction may touch -/

namespace Ir

open Lib

/-! ## 1. Sequencing -/

variable {α : Type}

theorem exec_bind_ok {β : Type} {m : Exec α} {k : α → Exec β} {ctx ctx' : Context} {a : α}
    (h : m ctx = (.ok a, ctx')) :
    (m >>= k) ctx = k a ctx' := by
  change StateT.bind m (ExceptT.bindCont k) ctx = _
  unfold StateT.bind
  rw [h]
  rfl

theorem exec_bind_error {β : Type} {m : Exec α} {k : α → Exec β} {ctx ctx' : Context} {e : Fault}
    (h : m ctx = (.error e, ctx')) :
    (m >>= k) ctx = (.error e, ctx') := by
  change StateT.bind m (ExceptT.bindCont k) ctx = _
  unfold StateT.bind
  rw [h]
  rfl

theorem getGlobals_apply (ctx : Context) : getGlobals ctx = (.ok ctx.globals, ctx) := rfl

theorem setGlobals_apply (globals : List Value) (ctx : Context) :
    setGlobals globals ctx = (.ok (), { ctx with globals }) := rfl

theorem ofExcept_apply (x : Except Fault α) (ctx : Context) : ofExcept x ctx = (x, ctx) :=
  rfl

/-! ## 2. What an instruction may do -/

def EventOf (strings : StringTable) (instr : IRInstruction) (ctx : Context) : Event → Prop
  | .read r => r ∈ instr.collectReadRegisters ∧ (instr.isBareReturn = true → ctx.registers r ≠ none)
  | .write r => .reg r ∈ instr.operands ∧ r = instr.destinationRegister
  | .jump label => label ∈ instr.labelTargets (some strings)
  | .mark _ => True
  | .release scope => instr.opcode = .scopeRelease ∧ scope = instr.scopeId
  | .stray => False

/-- What holds when `instr` ends without a fault. -/
structure Completed (strings : StringTable) (f : IRFunction) (instr : IRInstruction)
    (new : List Event) (ctx ctx' : Context) : Prop where
  wrote : 0 ≤ instr.destinationRegister → .write instr.destinationRegister ∈ new
  marked : instr.opcode = .scopeMark → .mark instr.scopeId ∈ new
  pc : ctx'.pc = ctx.pc ∧ instr.opcode ≠ .jump ∨
    ∃ label ∈ instr.labelTargets (some strings), f.runLabels strings label = some ctx'.pc
  returned : ctx'.returned = true ↔ ctx.returned = true ∨ instr.opcode = .returnOp

structure Stepped (strings : StringTable) (f : IRFunction) (instr : IRInstruction) (ctx : Context)
    (out : Except Fault Unit × Context) (new : List Event) : Prop where
  log : out.2.log = new ++ ctx.log
  registers : ∀ r, out.2.registers r ≠ none →
    ctx.registers r ≠ none ∨ .read r ∈ new ∨ .write r ∈ new
  events : ∀ event ∈ new, EventOf strings instr ctx event
  completed : out.1 = .ok () → Completed strings f instr new ctx out.2

section Steps

variable {strings : StringTable} {f : IRFunction} {instr : IRInstruction} {ctx : Context}

/-- An opcode whose completion is just its write. -/
def plain (op : Opcode) : Bool := op ≠ .scopeMark && op ≠ .jump && op ≠ .returnOp

/-- An opcode that can leave for a label: it defines nothing and is no label itself. -/
def branches (op : Opcode) : Bool :=
  plain op && !hasEffect op .label && IRInstruction.destinationOperandIndex op = -1

theorem branches_iff {op : Opcode} (h : branches op = true) :
    plain op = true ∧ hasEffect op .label = false ∧
      IRInstruction.destinationOperandIndex op = -1 := by
  unfold branches at h
  simpa [Bool.and_eq_true, and_assoc] using h

/-! ## 3. Reads and destinations of a row -/

variable {rest : List IRValue}

theorem not_bareReturn {a : IRValue} (hops : instr.operands = a :: rest) :
    instr.isBareReturn = false := by
  unfold IRInstruction.isBareReturn
  rw [hops, List.isEmpty_cons, Bool.and_false]

theorem listed_of_operand {j : Nat} {r : Int} (hnot : instr.isBareReturn = false)
    (hj : instr.operands[j]? = some (.reg r)) (hkind : kindAt instr.signature j ≠ .dst) :
    r ∈ instr.collectReadRegisters := by
  unfold IRInstruction.collectReadRegisters
  rw [if_neg (by rw [hnot]; exact Bool.false_ne_true), List.mem_filterMap]
  refine ⟨(.reg r, j), List.mem_zipIdx_iff_getElem?.mpr hj, ?_⟩
  have hreads : instr.readsOperand j = true := by
    unfold IRInstruction.readsOperand
    rw [hj]
    exact decide_eq_true hkind
  dsimp only
  rw [hreads]
  rfl

theorem destination_of_index {j : Nat} {r : Int}
    (hindex : IRInstruction.destinationOperandIndex instr.opcode = j)
    (hj : instr.operands[j]? = some (.reg r)) :
    instr.destinationRegister = r := by
  unfold IRInstruction.destinationRegister
  rw [hindex]
  dsimp only
  rw [if_neg (by omega), Int.toNat_natCast, hj]

theorem no_destination (hindex : IRInstruction.destinationOperandIndex instr.opcode = -1) :
    instr.destinationRegister = -1 := by
  unfold IRInstruction.destinationRegister
  rw [hindex]
  rfl

theorem mem_labelTargets {id : Nat} (hnot : hasEffect instr.opcode .label = false)
    (hid : IRValue.label id ∈ instr.operands) :
    strings.nameOf id ∈ instr.labelTargets (some strings) := by
  unfold IRInstruction.labelTargets
  rw [if_neg (by rw [hnot]; exact Bool.false_ne_true), List.mem_filterMap]
  exact ⟨_, hid, rfl⟩

variable {kinds : List OperandKind}

theorem Fits.exact (h : Fits instr) (hsig : instr.signature = kinds)
    (hfixed : isVariadic kinds = false) :
    ∃ operands, instr.operands = operands ∧
      List.Forall₂ (fun operand kind => operandMatches operand kind = true) operands kinds := by
  have henough := h.enough
  have hfew := h.few (by rw [hsig, hfixed])
  unfold fixedCount at henough
  rw [hsig, hfixed, if_neg Bool.false_ne_true] at henough
  rw [hsig] at hfew
  refine ⟨_, rfl, ?_⟩
  rw [List.forall₂_iff_get]
  refine ⟨by omega, fun j hj hj' => ?_⟩
  have hkind : kindAt instr.signature j = kinds.get ⟨j, hj'⟩ := by
    unfold kindAt fixedCount
    rw [hsig, hfixed, if_neg Bool.false_ne_true, if_pos hj', List.getD_eq_getElem?_getD,
      List.getElem?_eq_getElem hj']
    rfl
  rw [← hkind]
  exact h.kinds j _ (List.getElem?_eq_getElem hj)

variable {fixed : List OperandKind} {kind : OperandKind}

theorem kindAt_tail (hvariadic : isVariadic (fixed ++ [kind]) = true) {k : Nat}
    (hk : fixed.length ≤ k) :
    kindAt (fixed ++ [kind]) k = kind := by
  unfold kindAt fixedCount
  rw [if_pos hvariadic, if_neg (by simpa using hk), if_pos hvariadic]
  exact List.getLastD_concat

theorem Fits.tail (h : Fits instr)
    (hsig : instr.signature = fixed ++ [kind]) (hvariadic : isVariadic (fixed ++ [kind]) = true) :
    ∀ operand ∈ instr.operands.drop fixed.length, operandMatches operand kind = true := by
  intro operand hmem
  obtain ⟨j, hj⟩ := List.mem_iff_getElem?.mp hmem
  rw [List.getElem?_drop] at hj
  have hmatch := h.kinds _ operand hj
  rw [hsig, kindAt_tail hvariadic (Nat.le_add_right _ _)] at hmatch
  exact hmatch

variable {operands : List IRValue}

theorem exists_registers (h : ∀ operand ∈ operands, operandMatches operand .srcList = true) :
    ∃ rs : List Int, operands = rs.map .reg := by
  induction operands with
  | nil => exact ⟨[], rfl⟩
  | cons operand operands ih =>
    obtain ⟨hfirst, hrest⟩ := List.forall_mem_cons.mp h
    obtain ⟨r, rfl⟩ := exists_reg (.inr (.inr (.inr rfl))) hfirst
    obtain ⟨rs, rfl⟩ := ih hrest
    exact ⟨r :: rs, rfl⟩

theorem exists_labels (h : ∀ operand ∈ operands, operandMatches operand .lblList = true) :
    ∃ ids : List Nat, operands = ids.map .label := by
  induction operands with
  | nil => exact ⟨[], rfl⟩
  | cons operand operands ih =>
    obtain ⟨hfirst, hrest⟩ := List.forall_mem_cons.mp h
    obtain ⟨id, rfl⟩ := exists_label (.inr rfl) hfirst
    obtain ⟨ids, rfl⟩ := ih hrest
    exact ⟨id :: ids, rfl⟩

theorem destination_first {dst : Int} (hsig : instr.signature = .dst :: kinds)
    (hfixed : 0 < fixedCount instr.signature) (hops : instr.operands = .reg dst :: rest) :
    instr.destinationRegister = dst := by
  have hindex : IRInstruction.destinationOperandIndex instr.opcode = 0 := by
    have hsig' : (opcodeInfo instr.opcode).signature = .dst :: kinds := hsig
    obtain ⟨n, hn⟩ := Nat.exists_eq_succ_of_ne_zero (Nat.pos_iff_ne_zero.mp hfixed)
    rw [hsig] at hn
    unfold IRInstruction.destinationOperandIndex
    dsimp only
    rw [hsig', hn, List.take_succ_cons, List.findIdx?_cons]
    rfl
  unfold IRInstruction.destinationRegister
  rw [hindex, hops]
  rfl

-- `collectReadRegisters` of an instruction with operands, as a function of row and operands alone
def registersReadFrom (signature : List OperandKind) (j : Nat) (operands : List IRValue) :
    List Int :=
  (operands.zipIdx j).filterMap fun (operand, i) =>
    match operand with
    | .reg r => if kindAt signature i ≠ .dst then some r else none
    | _ => none

theorem registersReadFrom_cons (signature : List OperandKind) (j : Nat) (operand : IRValue)
    (rest : List IRValue) :
    registersReadFrom signature j (operand :: rest) = (match operand with
        | .reg r => if kindAt signature j ≠ .dst then [r] else []
        | _ => []) ++ registersReadFrom signature (j + 1) rest := by
  unfold registersReadFrom
  rw [List.zipIdx_cons, List.filterMap_cons]
  cases operand with
  | reg r => by_cases h : kindAt signature j = .dst <;> simp [h]
  | _ => rfl

theorem collectReadRegisters_from (hbare : instr.isBareReturn = false) :
    instr.collectReadRegisters = registersReadFrom instr.signature 0 instr.operands := by
  unfold IRInstruction.collectReadRegisters registersReadFrom
  rw [hbare]
  refine List.filterMap_congr fun (operand, i) hmem => ?_
  cases operand with
  | reg r =>
    have hat := List.mem_zipIdx_iff_getElem?.mp hmem
    simp only [IRInstruction.readsOperand, hat]
    simp
  | _ => rfl

theorem collectReadRegisters_eq {signature : List OperandKind} {first : IRValue}
    (hsig : instr.signature = signature) (hops : instr.operands = first :: rest) :
    instr.collectReadRegisters = registersReadFrom signature 0 (first :: rest) := by
  have hbare : instr.isBareReturn = false := by
    simp [IRInstruction.isBareReturn, hops]
  rw [collectReadRegisters_from hbare, hsig, hops]

section Rows

variable (hfits : Fits instr)
include hfits

theorem Fits.dst_src (hsig : instr.signature = [.dst, .src]) :
    ∃ dst src, instr.operands = [.reg dst, .reg src] := by
  obtain ⟨operands, hops, _ | ⟨hdst, _ | ⟨hsrc, _ | _⟩⟩⟩ := hfits.exact hsig rfl
  obtain ⟨dst, rfl⟩ := exists_reg (.inl rfl) hdst
  obtain ⟨src, rfl⟩ := exists_src hsrc
  exact ⟨dst, src, hops⟩

theorem Fits.dst_src_src (hsig : instr.signature = [.dst, .src, .src]) :
    ∃ dst src1 src2, instr.operands = [.reg dst, .reg src1, .reg src2] := by
  obtain ⟨operands, hops, _ | ⟨hdst, _ | ⟨hsrc, _ | ⟨hsrc', _ | _⟩⟩⟩⟩ := hfits.exact hsig rfl
  obtain ⟨dst, rfl⟩ := exists_reg (.inl rfl) hdst
  obtain ⟨src1, rfl⟩ := exists_src hsrc
  obtain ⟨src2, rfl⟩ := exists_src hsrc'
  exact ⟨dst, src1, src2, hops⟩

theorem Fits.dst_src_imm (hsig : instr.signature = [.dst, .src, .imm]) :
    ∃ dst src v, instr.operands = [.reg dst, .reg src, .imm v] := by
  obtain ⟨operands, hops, _ | ⟨hdst, _ | ⟨hsrc, _ | ⟨himm, _ | _⟩⟩⟩⟩ := hfits.exact hsig rfl
  obtain ⟨dst, rfl⟩ := exists_reg (.inl rfl) hdst
  obtain ⟨src, rfl⟩ := exists_src hsrc
  obtain ⟨v, rfl⟩ := exists_imm (.inl rfl) himm
  exact ⟨dst, src, v, hops⟩

theorem Fits.dst_imm (hsig : instr.signature = [.dst, .imm]) :
    ∃ dst v, instr.operands = [.reg dst, .imm v] := by
  obtain ⟨operands, hops, _ | ⟨hdst, _ | ⟨himm, _ | _⟩⟩⟩ := hfits.exact hsig rfl
  obtain ⟨dst, rfl⟩ := exists_reg (.inl rfl) hdst
  obtain ⟨v, rfl⟩ := exists_imm (.inl rfl) himm
  exact ⟨dst, v, hops⟩

theorem Fits.src_src_lbl (hsig : instr.signature = [.src, .src, .lbl]) :
    ∃ lhs rhs id, instr.operands = [.reg lhs, .reg rhs, .label id] := by
  obtain ⟨operands, hops, _ | ⟨hlhs, _ | ⟨hrhs, _ | ⟨hlbl, _ | _⟩⟩⟩⟩ := hfits.exact hsig rfl
  obtain ⟨lhs, rfl⟩ := exists_src hlhs
  obtain ⟨rhs, rfl⟩ := exists_src hrhs
  obtain ⟨id, rfl⟩ := exists_label (.inl rfl) hlbl
  exact ⟨lhs, rhs, id, hops⟩

theorem Fits.src_lbl (hsig : instr.signature = [.src, .lbl]) :
    ∃ r id, instr.operands = [.reg r, .label id] := by
  obtain ⟨operands, hops, _ | ⟨hsrc, _ | ⟨hlbl, _ | _⟩⟩⟩ := hfits.exact hsig rfl
  obtain ⟨r, rfl⟩ := exists_src hsrc
  obtain ⟨id, rfl⟩ := exists_label (.inl rfl) hlbl
  exact ⟨r, id, hops⟩

theorem Fits.imm_src (hsig : instr.signature = [.imm, .src]) :
    ∃ v src, instr.operands = [.imm v, .reg src] := by
  obtain ⟨operands, hops, _ | ⟨himm, _ | ⟨hsrc, _ | _⟩⟩⟩ := hfits.exact hsig rfl
  obtain ⟨v, rfl⟩ := exists_imm (.inl rfl) himm
  obtain ⟨src, rfl⟩ := exists_src hsrc
  exact ⟨v, src, hops⟩

theorem Fits.dst_fimm (hsig : instr.signature = [.dst, .fimm]) :
    ∃ dst d, instr.operands = [.reg dst, .fimm d] := by
  obtain ⟨operands, hops, _ | ⟨hdst, _ | ⟨hfimm, _ | _⟩⟩⟩ := hfits.exact hsig rfl
  obtain ⟨dst, rfl⟩ := exists_reg (.inl rfl) hdst
  obtain ⟨d, rfl⟩ := exists_fimm hfimm
  exact ⟨dst, d, hops⟩

theorem Fits.dst (hsig : instr.signature = [.dst]) : ∃ dst, instr.operands = [.reg dst] := by
  obtain ⟨operands, hops, _ | ⟨hdst, _ | _⟩⟩ := hfits.exact hsig rfl
  obtain ⟨dst, rfl⟩ := exists_reg (.inl rfl) hdst
  exact ⟨dst, hops⟩

theorem Fits.lbl (hsig : instr.signature = [.lbl]) : ∃ id, instr.operands = [.label id] := by
  obtain ⟨operands, hops, _ | ⟨hlbl, _ | _⟩⟩ := hfits.exact hsig rfl
  obtain ⟨id, rfl⟩ := exists_label (.inl rfl) hlbl
  exact ⟨id, hops⟩

theorem Fits.imm (hsig : instr.signature = [.imm]) : ∃ v, instr.operands = [.imm v] := by
  obtain ⟨operands, hops, _ | ⟨himm, _ | _⟩⟩ := hfits.exact hsig rfl
  obtain ⟨v, rfl⟩ := exists_imm (.inl rfl) himm
  exact ⟨v, hops⟩

end Rows

-- Between the base and a sum that may wrap, the distance from the base is below the count.
theorem switch_entry_lt {value base count : Int64} (hcount : 0 ≤ count.toInt) (hlo : ¬ value < base)
    (hhi : ¬ value ≥ base + count) :
    (value - base).toInt.toNat < count.toInt.toNat := by
  have hlo : base.toInt ≤ value.toInt := Int64.le_iff_toInt_le.mp (Int64.not_lt.mp hlo)
  have hhi : value.toInt < (base + count).toInt := Int64.lt_iff_toInt_lt.mp (Int64.not_le.mp hhi)
  rw [Int64.toInt_add, Int.bmod_def] at hhi
  rw [Int64.toInt_sub, Int.bmod_def]
  have hb := base.toInt_lt
  have hb' := base.le_toInt
  have hc := count.toInt_lt
  have hv := value.toInt_lt
  have hv' := value.le_toInt
  split at hhi <;> split <;> omega

-- Narrowing a count to an `int` never makes it longer.
theorem narrow_le {count : Int64} (hcount : 0 ≤ count.toInt) :
    count.toInt32.toInt.toNat ≤ count.toInt.toNat := by
  rw [Int64.toInt_toInt32, Int.bmod_def]
  split <;> omega

end Steps

end Ir
