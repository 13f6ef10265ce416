import GdscriptCompiler.Optimizer.ConstantFolding

/-! # ConstantFoldingSound — one instruction of constant folding -/

namespace Optimizer

open Ir Lib

/-! ## 1. Constants a frame holds -/

def Constants.Holds (C : Constants) (fr : Frame) : Prop :=
  ∀ p ∈ C, 0 ≤ p.1 ∧ fr.registers p.1 = some p.2.toValue

variable {instr : IRInstruction} {os : List Observation} {flow : Exit String Value}

namespace Constants

variable {C : Constants} {fr fr' : Frame} {r dst : Int} {c : Constant Float}

theorem mem_of_find? (h : C.find? r = some c) : (r, c) ∈ C := by
  obtain ⟨before, after, heq, -⟩ := List.lookup_eq_some_iff.mp h
  rw [heq]
  simp

theorem find?_ne_none (h : (r, c) ∈ C) : C.find? r ≠ none := by
  intro hnone
  have := List.lookup_eq_none_iff.mp hnone (r, c) h
  simp at this

theorem Holds.find? (h : C.Holds fr) (hr : C.find? r = some c) : fr.registers r = some c.toValue :=
  (h _ (mem_of_find? hr)).2

theorem holds_nil (fr : Frame) : Constants.Holds [] fr := List.forall_mem_nil _

def KeptBut (dst : Int) (fr fr' : Frame) : Prop :=
  ∀ r v, r ≠ dst → fr.registers r = some v → fr'.registers r = some v

section

variable (h : C.Holds fr)
include h

theorem Holds.invalidate (hkept : KeptBut dst fr fr') : (C.invalidate dst).Holds fr' := by
  intro p hp
  obtain ⟨hmem, hne⟩ := List.mem_filter.mp hp
  obtain ⟨hpos, hv⟩ := h p hmem
  exact ⟨hpos, hkept _ _ (of_decide_eq_true hne) hv⟩

theorem Holds.set (hkept : KeptBut dst fr fr') (hpos : 0 ≤ dst)
    (hv : fr'.registers dst = some c.toValue) :
    (C.set dst c).Holds fr' :=
  List.forall_mem_cons.mpr ⟨⟨hpos, hv⟩, h.invalidate hkept⟩

theorem Holds.same (hkept : KeptBut dst fr fr') (hnone : C.find? dst = none) : C.Holds fr' := by
  rintro ⟨r, c⟩ hp
  obtain ⟨hpos, hv⟩ := h _ hp
  refine ⟨hpos, hkept _ _ ?_ hv⟩
  rintro rfl
  exact find?_ne_none hp hnone

theorem Holds.find?_neg (hneg : dst < 0) : C.find? dst = none := by
  cases hfind : C.find? dst with
  | none => rfl
  | some c =>
    have hpos := (h _ (mem_of_find? hfind)).1
    omega

-- an instruction without a destination
theorem Holds.find?_destination
    (hop : instr.opcode ∈ .returnOp :: .storeGlobal :: quietOpcodes ++ branchOpcodes) :
    C.find? instr.destinationRegister = none := by
  refine h.find?_neg ?_
  unfold IRInstruction.destinationRegister
  rw [destinationRegister_neg hop]
  exact Int.negSucc_lt_zero 0

end

theorem keptBut_execute {E : Env} (h : execute E instr fr = some (os, fr', flow)) :
    KeptBut instr.destinationRegister fr fr' :=
  fun _ _ hne hv => execute_keeps h hne hv

theorem keptBut_assign (fr : Frame) (dst : Int) (v : Value) : KeptBut dst fr (fr.assign dst v) :=
  fun _ _ hne hv => (if_neg hne).trans hv

end Constants

open Constants

/-! ## 2. What the folder gets wrong -/

/-- The folder's double of a constant is its double. -/
def Constant.ReadsRight {F : Type} (ops : FloatOps F) (c : Constant F) : Prop :=
  c.isString = false ∧ c.promoted ops = c.getDouble ops

/-- Float arithmetic has a FLOAT operand, and reads both right. -/
def PromotesRight {F : Type} (ops : FloatOps F) (hint : TypeHint) (l r : Constant F) : Prop :=
  if l.isFloat || r.isFloat then l.ReadsRight ops ∧ r.ReadsRight ops else hint ≠ Variant.float

/-- What `fold_instruction` gets wrong does not come up, with these constants at this instruction.
-/
structure FoldsRight (table : GlobalFunctions) (C : Constants) (instr : IRInstruction) : Prop where
  -- a CALL leaves the constant of its destination in place
  call : instr.opcode = .call → C.find? instr.destinationRegister = none
  arithmetic : ∀ dst lhs rhs l r c, instr.operands = [.reg dst, .reg lhs, .reg rhs] →
    hasEffect instr.opcode .arithmetic = true → C.find? lhs = some l → C.find? rhs = some r →
    tryFoldBinaryOp (floatOps table.fmod) instr.opcode instr.typeHint l r = some c →
    PromotesRight (floatOps table.fmod) instr.typeHint l r
  -- comparisons and logical operations fold to a BOOL, and leave the INT 0 or 1
  comparison : ∀ dst lhs rhs l r, instr.operands = [.reg dst, .reg lhs, .reg rhs] →
    hasEffect instr.opcode .comparison = true → C.find? lhs = some l → C.find? rhs = some r →
    tryFoldBinaryOp (floatOps table.fmod) instr.opcode instr.typeHint l r = none
  logical : ∀ dst lhs rhs l r, instr.operands = [.reg dst, .reg lhs, .reg rhs] →
    instr.opcode = .and ∨ instr.opcode = .or → C.find? lhs = some l → C.find? rhs = some r →
    logicalConstant instr.opcode l r = none
  -- the same for an integer function said to return a BOOL
  global : ∀ dst fn rest info, instr.opcode = .globalCall → instr.operands = dst :: .imm fn :: rest →
    table.globalFunction fn = .ok info → info.kind = .intOp → info.result ≠ .bool

/-! ## 3. Folding to a load -/

section

variable (E : Env) (fr : Frame) (dst : Int)

theorem execute_loadImm (v : Int64) :
    execute E (loadImm dst v) fr = some ([], fr.assign dst (.int v), .next) := rfl

theorem execute_loadFloatImm (d : Float) :
    execute E (loadFloatImm dst d) fr = some ([], fr.assign dst (.float d), .next) := rfl

theorem execute_loadBool (b : Bool) :
    execute E (loadBool dst b) fr = some ([], fr.assign dst (.bool b), .next) := by
  cases b <;> rfl

end

def Loads (E : Env) (load : IRInstruction) (dst : Int) (c : Constant Float) : Prop :=
  ∀ fr, execute E load fr = some ([], fr.assign dst c.toValue, .next)

variable {c : Constant Float}

theorem loads_number (E : Env) (dst : Int) (h : c.isInt = true ∨ c.isFloat = true) :
    Loads E (loadNumber dst c) dst c := by
  intro fr
  cases c with
  | int v => exact execute_loadImm E fr dst v
  | float d => exact execute_loadFloatImm E fr dst d
  | bool b => rcases h with h | h <;> cases h
  | string s => rcases h with h | h <;> cases h

theorem loads_truth (E : Env) (dst : Int) (b : Bool) :
    Loads E (loadTruth dst (.bool b)) dst (.bool b) :=
  fun fr => execute_loadBool E fr dst b

/-- What `fold_instruction` left is right for a run that executes the instruction. -/
structure FoldOk (E : Env) (fr : Frame) (folding : Folding) (os : List Observation) (fr' : Frame)
    (flow : Exit String Value) : Prop where
  runs : ∃ n, n ≤ 1 ∧ (machine E).block folding.emitted fr = some (n, os, fr', flow)
  holds : folding.constants.Holds fr'

variable {compute : Constant Float → Constant Float → Option (Constant Float)}

section Step

variable {E : Env} {C : Constants} {instr : IRInstruction} {fr fr' : Frame} {os : List Observation}
  {flow : Exit String Value} {folding : Folding} {dst : Int}
  (hC : C.Holds fr) (hexec : execute E instr fr = some (os, fr', flow))
include hC hexec

omit hC in
theorem foldOk_kept {C' : Constants} (hC' : C'.Holds fr') : FoldOk E fr ⟨C', [instr]⟩ os fr' flow :=
  ⟨⟨1, Nat.le_refl _, Machine.block_single hexec⟩, hC'⟩

theorem foldOk_unknown (hdst : instr.destinationRegister = dst) :
    FoldOk E fr (C.unknown dst instr) os fr' flow :=
  foldOk_kept hexec (hdst ▸ hC.invalidate (keptBut_execute hexec))

theorem foldOk_same (hnone : C.find? instr.destinationRegister = none) :
    FoldOk E fr ⟨C, [instr]⟩ os fr' flow :=
  foldOk_kept hexec (hC.same (keptBut_execute hexec) hnone)

theorem foldOk_set (hdst : instr.destinationRegister = dst) (hpos : 0 ≤ dst)
    (hv : fr'.registers dst = some c.toValue) :
    FoldOk E fr ⟨C.set dst c, [instr]⟩ os fr' flow :=
  foldOk_kept hexec (hC.set (hdst ▸ keptBut_execute hexec) hpos hv)

theorem foldOk_folded (hpos : 0 ≤ dst) {load : IRInstruction} (hload : Loads E load dst c)
    (hsame : execute E instr fr = some ([], fr.assign dst c.toValue, .next)) :
    FoldOk E fr (C.folded dst c load) os fr' flow := by
  rw [hsame] at hexec
  cases hexec
  exact ⟨⟨1, Nat.le_refl _, Machine.block_single (hload fr)⟩,
    hC.set (keptBut_assign fr dst _) hpos (if_pos rfl)⟩

variable {load : Int → Constant Float → IRInstruction}

theorem foldOk_unary {src : Int} {rest : List IRValue}
    {compute : Constant Float → Option (Constant Float)}
    (hops : instr.operands = .reg dst :: .reg src :: rest) (hdst : instr.destinationRegister = dst)
    (hpos : 0 ≤ dst)
    (hcompute : ∀ c c', C.find? src = some c → compute c = some c' → Loads E (load dst c') dst c' ∧
        execute E instr fr = some ([], fr.assign dst c'.toValue, .next))
    (hfold : foldUnary C instr compute load = .ok folding) :
    FoldOk E fr folding os fr' flow := by
  unfold foldUnary at hfold
  rw [hops] at hfold
  dsimp only at hfold
  split at hfold
  · rename_i c' hc'
    obtain ⟨c, hc, hc'⟩ := Option.bind_eq_some_iff.mp hc'
    cases hfold
    obtain ⟨hload, hsame⟩ := hcompute c c' hc hc'
    exact foldOk_folded hC hexec hpos hload hsame
  · cases hfold
    exact foldOk_unknown hC hexec hdst

theorem foldOk_binary {lhs rhs : Int} (hops : instr.operands = [.reg dst, .reg lhs, .reg rhs])
    (hdst : instr.destinationRegister = dst) (hpos : 0 ≤ dst)
    (hcompute : ∀ l r c, C.find? lhs = some l → C.find? rhs = some r → compute l r = some c →
      Loads E (load dst c) dst c ∧ execute E instr fr = some ([], fr.assign dst c.toValue, .next))
    (hfold : foldBinary C instr compute load = .ok folding) :
    FoldOk E fr folding os fr' flow := by
  unfold foldBinary at hfold
  rw [hops] at hfold
  dsimp only at hfold
  split at hfold
  · rename_i l r hl hr
    split at hfold
    · rename_i c hc
      cases hfold
      obtain ⟨hload, hsame⟩ := hcompute l r c hl hr hc
      exact foldOk_folded hC hexec hpos hload hsame
    · cases hfold
      exact foldOk_unknown hC hexec hdst
  · cases hfold
    exact foldOk_unknown hC hexec hdst

end Step

/-! ## 4. Operation by operation -/

section Operations

variable {E : Env} {C : Constants} {instr : IRInstruction} {fr fr' : Frame} {os : List Observation}
  {flow : Exit String Value} {folding : Folding} {op : Opcode} {F : Type}

theorem foldFloat_isFloat {ops : FloatOps F} {l r : F} {c : Constant F}
    (h : foldFloat ops op l r = .folded c) :
    c.isFloat = true := by
  unfold foldFloat at h
  split at h
  · cases h; rfl
  · cases h; rfl
  · cases h; rfl
  · split at h <;> cases h
    rfl
  · split at h <;> cases h
    rfl
  · cases h

theorem foldInt_isInt {l r : Int64} {c : Constant F} (h : foldInt op l r = .folded c) :
    c.isInt = true := by
  unfold foldInt at h
  split at h <;> try (cases h; rfl)
  all_goals first
    | (split at h <;> cases h; rfl)
    | cases h

variable {hint : TypeHint}

theorem tryFold_arithmetic {ops : FloatOps F} {l r c : Constant F}
    (hop : hasEffect op .comparison = false) (h : tryFoldBinaryOp ops op hint l r = some c)
    (hright : PromotesRight ops hint l r) :
    evaluateOn ops op l r = some c ∧ (c.isInt = true ∨ c.isFloat = true) := by
  rcases tryFoldBinaryOp_cases h with ⟨hpromotes, hfold⟩ | ⟨a, b, rfl, rfl, hfold⟩ | hfold
  · unfold PromotesRight at hright
    split at hright
    · rename_i hfloat
      obtain ⟨⟨hls, hl⟩, hrs, hr⟩ := hright
      exact ⟨foldFloat_agrees hfloat hls hrs hl hr hfold, .inr (foldFloat_isFloat hfold)⟩
    · rename_i hfloat
      rw [decide_eq_false hright, Bool.false_or] at hpromotes
      exact absurd hpromotes hfloat
  · exact ⟨foldInt_agrees ops hfold, .inl (foldInt_isInt hfold)⟩
  · unfold foldComparison at hfold
    rw [if_neg (by rw [hop]; exact fun h => Bool.false_ne_true h.1)] at hfold
    cases hfold

def arithmeticOpcodes : List Opcode :=
  [.add, .sub, .mul, .div, .mod, .bitAnd, .bitOr, .bitXor, .shl, .shr]

theorem arithmetic_effects (h : op ∈ arithmeticOpcodes) :
    (opcodeInfo op).signature = [.dst, .src, .src] ∧ hasEffect op .comparison = false ∧
      hasEffect op .arithmetic = true := by
  revert h
  cases op <;> decide

theorem denote_arithmetic (h : op ∈ arithmeticOpcodes) (globals : List Value) (hint : TypeHint)
    (args : List Arg) :
    denote E globals op hint args =
      denoteBinary globals (fun l r => binaryOp E.table.fmod l r op) args := by
  cases op <;> first | rfl | exact absurd h (by decide)

theorem foldInstruction_arithmetic {table : GlobalFunctions}
    (h : instr.opcode ∈ arithmeticOpcodes) :
    foldInstruction table C instr =
      foldBinary C instr (tryFoldBinaryOp (floatOps table.fmod) instr.opcode instr.typeHint)
        loadNumber := by
  unfold foldInstruction
  generalize instr.opcode = op at h
  cases op <;> first | rfl | exact absurd h (by decide)

theorem binaryOp_of_evaluateOn {fmod : Float → Float → Float} {l r : Constant Float}
    (hop : hasEffect op .comparison = false) (h : evaluateOn (floatOps fmod) op l r = some c) :
    binaryOp fmod l.toValue r.toValue op = .ok c.toValue := by
  unfold evaluateOn at h
  rw [if_neg (by rw [hop]; exact Bool.false_ne_true)] at h
  have hsame := binaryOp_toValue fmod l r op
  rw [h] at hsame
  cases hrun : binaryOp fmod l.toValue r.toValue op with
  | error e => rw [hrun] at hsame; cases hsame
  | ok v => rw [hrun] at hsame; exact congrArg Except.ok (Option.some.inj hsame)

variable (hfits : Fits instr) (hregs : ∀ r, .reg r ∈ instr.operands → 0 ≤ r) (hC : C.Holds fr)
  (hexec : execute E instr fr = some (os, fr', flow))
  (hfold : foldInstruction E.table C instr = .ok folding)
include hfits hregs hC hexec hfold

theorem foldOk_arithmetic (hop : instr.opcode ∈ arithmeticOpcodes)
    (hright : FoldsRight E.table C instr) :
    FoldOk E fr folding os fr' flow := by
  obtain ⟨hsig, hcmp, harith⟩ := arithmetic_effects hop
  obtain ⟨dst, lhs, rhs, hops⟩ := hfits.dst_src_src hsig
  rw [foldInstruction_arithmetic hop] at hfold
  refine foldOk_binary hC hexec hops
    (destination_first hsig (by rw [IRInstruction.signature, hsig]; decide) hops)
    (hregs dst (by simp [hops])) (fun l r c hl hr hc => ?_) hfold
  obtain ⟨hvalue, hnumber⟩ := tryFold_arithmetic hcmp hc
    (hright.arithmetic dst lhs rhs l r c hops harith hl hr hc)
  refine ⟨loads_number E dst hnumber, ?_⟩
  rw [execute_binary hfits hsig hops (hC.find? hl) (hC.find? hr), denote_arithmetic hop]
  unfold denoteBinary
  dsimp only
  rw [binaryOp_of_evaluateOn hcmp hvalue]
  rfl

omit hfits in
-- comparisons and logical operations: `FoldsRight` says that they do not fold
theorem foldOk_truth (hsig : instr.signature = [.dst, .src, .src]) {dst lhs rhs : Int}
    (hops : instr.operands = [.reg dst, .reg lhs, .reg rhs])
    (heq : foldInstruction E.table C instr = foldBinary C instr compute loadTruth)
    (hnone : ∀ l r, C.find? lhs = some l → C.find? rhs = some r → compute l r = none) :
    FoldOk E fr folding os fr' flow := by
  rw [heq] at hfold
  refine foldOk_binary hC hexec hops (destination_first hsig (by rw [hsig]; decide) hops)
    (hregs dst (by simp [hops])) (fun l r c hl hr hc => ?_) hfold
  rw [hnone l r hl hr] at hc
  cases hc

def comparisonOpcodes : List Opcode := [.cmpEq, .cmpNeq, .cmpLt, .cmpLte, .cmpGt, .cmpGte]

theorem foldOk_comparison (hop : instr.opcode ∈ comparisonOpcodes)
    (hright : FoldsRight E.table C instr) :
    FoldOk E fr folding os fr' flow := by
  have hinfo : instr.signature = [.dst, .src, .src] ∧ hasEffect instr.opcode .comparison = true := by
    unfold IRInstruction.signature
    revert hop
    generalize instr.opcode = op
    cases op <;> decide
  obtain ⟨dst, lhs, rhs, hops⟩ := hfits.dst_src_src hinfo.1
  refine foldOk_truth hregs hC hexec hfold hinfo.1 hops ?_
    (fun l r hl hr => hright.comparison dst lhs rhs l r hops hinfo.2 hl hr)
  unfold foldInstruction
  generalize instr.opcode = op at hop
  cases op <;> first | rfl | exact absurd hop (by decide)

theorem foldOk_logical (hop : instr.opcode = .and ∨ instr.opcode = .or)
    (hright : FoldsRight E.table C instr) :
    FoldOk E fr folding os fr' flow := by
  have hsig : instr.signature = [.dst, .src, .src] := by
    unfold IRInstruction.signature
    rcases hop with hop | hop <;> rw [hop] <;> rfl
  obtain ⟨dst, lhs, rhs, hops⟩ := hfits.dst_src_src hsig
  refine foldOk_truth hregs hC hexec hfold hsig hops ?_
    (fun l r hl hr => hright.logical dst lhs rhs l r hops hop hl hr)
  unfold foldInstruction
  rcases hop with hop | hop <;> rw [hop]

theorem foldOk_neg (hop : instr.opcode = .neg) : FoldOk E fr folding os fr' flow := by
  have hsig : instr.signature = [.dst, .src] := signature_of hop
  obtain ⟨dst, src, hops⟩ := hfits.dst_src hsig
  have heq : foldInstruction E.table C instr = foldUnary C instr negConstant loadNumber := by
    unfold foldInstruction
    rw [hop]
  rw [heq] at hfold
  refine foldOk_unary hC hexec hops (destination_first hsig (by rw [hsig]; decide) hops)
    (hregs dst (by simp [hops])) (fun c c' hc hc' => ?_) hfold
  rw [execute_unary hfits hsig hops (hC.find? hc), hop]
  cases c with
  | int v => cases hc'; exact ⟨loads_number E dst (.inl rfl), rfl⟩
  | float d => cases hc'; exact ⟨loads_number E dst (.inr rfl), rfl⟩
  | bool b => cases hc'
  | string s => cases hc'

theorem foldOk_not (hop : instr.opcode = .not) : FoldOk E fr folding os fr' flow := by
  have hsig : instr.signature = [.dst, .src] := signature_of hop
  obtain ⟨dst, src, hops⟩ := hfits.dst_src hsig
  have heq : foldInstruction E.table C instr = foldUnary C instr notConstant loadTruth := by
    unfold foldInstruction
    rw [hop]
  rw [heq] at hfold
  refine foldOk_unary hC hexec hops (destination_first hsig (by rw [hsig]; decide) hops)
    (hregs dst (by simp [hops])) (fun c c' hc hc' => ?_) hfold
  rw [execute_unary hfits hsig hops (hC.find? hc), hop]
  cases c with
  | bool b => cases hc'; exact ⟨loads_truth E dst _, rfl⟩
  | int v => cases hc'
  | float d => cases hc'
  | string s => cases hc'

omit hfits hregs hC hexec hfold in
theorem convertConstant_sound {c' : Constant Float} (h : convertConstant hint c = some c') :
    convertTo { opcode := .convert, operands := [], typeHint := hint } c.toValue = .ok c'.toValue ∧
      (c'.isInt = true ∨ c'.isFloat = true) := by
  unfold convertConstant at h
  unfold convertTo
  split at h
  · rename_i hfloat
    rw [if_pos hfloat]
    cases c with
    | int v => cases h; exact ⟨rfl, .inr rfl⟩
    | bool b => cases h; exact ⟨rfl, .inr rfl⟩
    | float d => cases h
    | string s => cases h
  · rename_i hfloat
    rw [if_neg hfloat]
    split at h
    · rename_i hint'
      rw [if_pos hint']
      cases c with
      | bool b => cases h; exact ⟨rfl, .inl rfl⟩
      | float d =>
        dsimp only at h
        split at h
        · cases h; exact ⟨rfl, .inl rfl⟩
        · cases h
      | int v => cases h
      | string s => cases h
    · cases h

theorem foldOk_convert (hop : instr.opcode = .convert) : FoldOk E fr folding os fr' flow := by
  have hsig : instr.signature = [.dst, .src, .imm] := signature_of hop
  obtain ⟨dst, src, v, hops⟩ := hfits.dst_src_imm hsig
  have hdst := destination_first hsig (by rw [hsig]; decide) hops
  have heq : foldInstruction E.table C instr =
    foldUnary C instr (convertConstant instr.typeHint) loadNumber := by
    unfold foldInstruction
    rw [hop]
  rw [heq] at hfold
  refine foldOk_unary hC hexec hops hdst (hregs dst (by simp [hops])) (fun c c' hc hc' => ?_) hfold
  obtain ⟨hvalue, hnumber⟩ := convertConstant_sound hc'
  refine ⟨loads_number E dst hnumber, ?_⟩
  have hargs : instr.args fr.value = [.hole, .val c.toValue, .imm v] := by
    rw [IRInstruction.args, hsig, hops, ← value_of_some (hC.find? hc)]
    rfl
  have hreads : instr.collectReadRegisters = [src] := collectReadRegisters_eq hsig hops
  rw [execute_held hfits (not_return_of_signature hsig), hargs, hdst, hop]
  · unfold denote
    dsimp only
    rw [hvalue]
    rfl
  · rw [hreads, List.forall_mem_singleton, hC.find? hc]
    rfl

omit hregs in
theorem foldOk_branch (hop : instr.opcode = .branchZero ∨ instr.opcode = .branchNotZero) :
    FoldOk E fr folding os fr' flow := by
  have hsig : instr.signature = [.src, .lbl] := by
    unfold IRInstruction.signature
    rcases hop with hop | hop <;> rw [hop] <;> rfl
  have hnone : C.find? instr.destinationRegister = none :=
    hC.find?_destination (by rcases hop with hop | hop <;> rw [hop] <;> decide)
  obtain ⟨cond, id, hops⟩ := hfits.src_lbl hsig
  have heq : foldInstruction E.table C instr = .ok (foldBranch C instr) := by
    unfold foldInstruction
    rcases hop with hop | hop <;> rw [hop]
  rw [heq] at hfold
  cases hfold
  unfold foldBranch
  rw [hops]
  dsimp only
  split
  · rename_i truth htruth
    obtain ⟨c, hc, htruth⟩ := Option.bind_eq_some_iff.mp htruth
    have hbool : c.toValue.getBool = truth := by
      cases c with
      | int v => exact Option.some.inj htruth
      | float d => exact Option.some.inj htruth
      | bool b => exact Option.some.inj htruth
      | string s => cases htruth
    rw [execute_branch hfits hop hops (hC.find? hc), hbool] at hexec
    have htaken : (decide (truth = decide (instr.opcode = .branchNotZero))) =
        if instr.opcode = .branchZero then !truth else truth := by
      rcases hop with hop | hop <;> rw [hop] <;> cases truth <;> rfl
    rw [htaken] at hexec
    generalize (if instr.opcode = .branchZero then !truth else truth) = taken at hexec
    cases taken with
    | true =>
      cases hexec
      have hjump : execute E { opcode := .jump, operands := [.label id] } fr =
          some ([], fr, .goto (E.program.strings.nameOf id)) := execute_jump rfl rfl
      exact ⟨⟨1, Nat.le_refl _, Machine.block_single hjump⟩, hC⟩
    | false =>
      cases hexec
      exact ⟨⟨0, Nat.zero_le _, rfl⟩, hC⟩
  · exact foldOk_same hC hexec hnone

end Operations

/-! ## 5. Calls of global functions -/

section GlobalCalls

variable {table : GlobalFunctions} {C : Constants} {fr : Frame} {fn : Int64} {info : GlobalFunction}
  {args : List Value} {rs : List Int}

theorem knownArguments_sound {α : Type} {read : Constant Float → Option α} {get : Value → α}
    (hread : ∀ c a, read c = some a → get c.toValue = a ∧ c.isString = false) (hC : C.Holds fr)
    {known : List α} (h : knownArguments C read (rs.map .reg) = some known) :
    (∀ r ∈ rs, (fr.registers r).isSome = true) ∧ (rs.map fr.value).map get = known ∧
      ∀ v ∈ rs.map fr.value, v.isString = false := by
  induction rs generalizing known with
  | nil =>
    cases h
    exact ⟨List.forall_mem_nil _, rfl, List.forall_mem_nil _⟩
  | cons r rs ih =>
    unfold knownArguments at h
    rw [List.map_cons, List.mapM_cons] at h
    obtain ⟨a, ha, h⟩ := Option.bind_eq_some_iff.mp h
    obtain ⟨rest, hrest, heq⟩ := Option.bind_eq_some_iff.mp h
    cases heq
    obtain ⟨c, hc, ha⟩ := Option.bind_eq_some_iff.mp ha
    obtain ⟨hget, hstring⟩ := hread c a ha
    obtain ⟨hheld, hvalues, hstrings⟩ := ih hrest
    have hv := hC.find? hc
    have hvalue := value_of_some hv
    refine ⟨List.forall_mem_cons.mpr ⟨by rw [hv]; rfl, hheld⟩, ?_,
      List.forall_mem_cons.mpr ⟨?_, hstrings⟩⟩
    · rw [List.map_cons, List.map_cons, hvalues, hvalue, hget]
    · rw [hvalue, toValue_isString, hstring]

theorem intArgument_sound (c : Constant Float) (a : Int64) (h : intArgument c = some a) :
    c.toValue.getInt = a ∧ c.isString = false := by
  cases c with
  | int v => exact ⟨Option.some.inj h, rfl⟩
  | bool b => exact ⟨Option.some.inj h, rfl⟩
  | float d => cases h
  | string s => cases h

theorem floatArgument_sound (c : Constant Float) (a : Float) (h : floatArgument c = some a) :
    c.toValue.getDouble = a ∧ c.isString = false := by
  cases c with
  | int v => exact ⟨Option.some.inj h, rfl⟩
  | bool b => exact ⟨Option.some.inj h, rfl⟩
  | float d => exact ⟨Option.some.inj h, rfl⟩
  | string s => cases h

theorem not_all_strings (h : ∀ v ∈ args, v.isString = false) :
    ¬ (fn = table.str ∧ args ≠ [] ∧ args.all Value.isString = true) := by
  rintro ⟨-, hne, hall⟩
  obtain ⟨v, hv⟩ := List.exists_mem_of_ne_nil args hne
  have hstring := List.all_eq_true.mp hall v hv
  rw [h v hv] at hstring
  cases hstring

section GlobalFunction

variable (f : IRFunction) (hinfo : table.globalFunction fn = .ok info)
  (himpure : info.impure = false)
include hinfo himpure

theorem evalGlobal_intOp (hkind : info.kind = .intOp) (hargs : ∀ v ∈ args, v.isString = false) :
    evalGlobal table f fn args =
      (table.evalGlobalInt info.fn (args.map Value.getInt)).map Value.int := by
  unfold evalGlobal
  rw [hinfo]
  simp only [bind, Except.bind, if_neg (not_all_strings hargs), hkind, himpure, reduceCtorEq,
    if_false, if_true, Bool.false_eq_true, pure, Except.pure]
  cases table.evalGlobalInt info.fn (args.map Value.getInt) <;> rfl

theorem evalGlobal_floatOp (hkind : info.kind = .floatOp)
    (hargs : ∀ v ∈ args, v.isString = false) :
    evalGlobal table f fn args =
      (table.evalGlobalFloat info.fn (args.map Value.getDouble)).map fun value =>
        match info.result with
        | .bool => .bool (value != 0.0)
        | .int => .int value.toInt64
        | _ => .float value := by
  unfold evalGlobal
  rw [hinfo]
  simp only [bind, Except.bind, if_neg (not_all_strings hargs), hkind, himpure, reduceCtorEq, if_false,
    Bool.false_eq_true, pure, Except.pure]
  cases table.evalGlobalFloat info.fn (args.map Value.getDouble) with
  | error e => rfl
  | ok value => cases info.result <;> rfl

theorem foldGlobalFunction_sound (hC : C.Holds fr)
    (hresult : info.kind = .intOp → info.result ≠ .bool)
    (h : foldGlobalFunction table C info (rs.map .reg) = .ok (some c)) :
    (∀ r ∈ rs, (fr.registers r).isSome = true) ∧
      evalGlobal table f fn (rs.map fr.value) = .ok c.toValue ∧
      c.isString = false := by
  unfold foldGlobalFunction at h
  split at h
  · rename_i hkind
    split at h
    · rename_i ints hints
      obtain ⟨hheld, hvalues, hstrings⟩ := knownArguments_sound intArgument_sound hC hints
      rw [evalGlobal_intOp f hinfo himpure hkind hstrings, hvalues]
      cases hrun : table.evalGlobalInt info.fn ints with
      | error e => rw [hrun] at h; cases h
      | ok value =>
        rw [hrun] at h
        cases hres : info.result with
        | bool => exact absurd hres (hresult hkind)
        | int => rw [hres] at h; cases h; exact ⟨hheld, rfl, rfl⟩
        | _ => rw [hres] at h; cases h
    · cases h
  · rename_i hkind
    split at h
    · rename_i floats hfloats
      obtain ⟨hheld, hvalues, hstrings⟩ := knownArguments_sound floatArgument_sound hC hfloats
      rw [evalGlobal_floatOp f hinfo himpure hkind hstrings, hvalues]
      cases hrun : table.evalGlobalFloat info.fn floats with
      | error e => rw [hrun] at h; cases h
      | ok value =>
        rw [hrun] at h
        cases hres : info.result with
        | bool => rw [hres] at h; cases h; exact ⟨hheld, rfl, rfl⟩
        | float => rw [hres] at h; cases h; exact ⟨hheld, rfl, rfl⟩
        | _ => rw [hres] at h; cases h
    · cases h
  · cases h

end GlobalFunction

theorem small_count {count : Int64} (h : count.toUInt64.toNat ≤ 3) :
    count.toInt32.toInt.toNat = count.toUInt64.toNat := by
  obtain ⟨u⟩ := count
  have hu : u = UInt64.ofNat u.toNat := UInt64.ofNat_toNat.symm
  change u.toNat ≤ 3 at h
  generalize u.toNat = n at hu h
  subst hu
  rcases n with _ | _ | _ | _ | n
  · decide
  · decide
  · decide
  · decide
  · omega

theorem argumentValues_all {count : Int64} (value : Int → Value)
    (hlen : rs.length = count.toUInt64.toNat) (hsmall : count.toUInt64.toNat ≤ 3) :
    argumentValues count (rs.map fun r => .val (value r)) = some (rs.map value) := by
  unfold argumentValues
  dsimp only
  rw [small_count hsmall, if_neg (by rw [List.length_map]; omega),
    List.take_of_length_le (by rw [List.length_map]; omega),
    ← Function.comp_def Arg.val value, ← List.map_map, mapM_value?]

theorem mem_of_registersReadFrom {signature : List OperandKind} {j : Nat} {r : Int}
    (h : r ∈ registersReadFrom signature j (rs.map .reg)) :
    r ∈ rs := by
  obtain ⟨s, hs, heq⟩ := List.mem_map.mp (reg_mem_of_registersReadFrom h)
  cases heq
  exact hs

theorem loads_result (E : Env) (dst : Int) (h : c.isString = false) :
    Loads E (loadResult dst c) dst c := by
  intro fr
  cases c with
  | int v => exact execute_loadImm E fr dst v
  | float d => exact execute_loadFloatImm E fr dst d
  | bool b => exact execute_loadBool E fr dst b
  | string s => cases h

theorem foldOk_globalCall {E : Env} {fr' : Frame} {folding : Folding} (hfits : Fits instr)
    (hregs : ∀ r, .reg r ∈ instr.operands → 0 ≤ r) (hC : C.Holds fr)
    (hexec : execute E instr fr = some (os, fr', flow))
    (hfold : foldInstruction E.table C instr = .ok folding) (hop : instr.opcode = .globalCall)
    (hright : FoldsRight E.table C instr) :
    FoldOk E fr folding os fr' flow := by
  obtain ⟨dst, fn, flag, count, rs, hops, hdst, -, -, hargs⟩ := hfits.globalCall hop
  have hpos : 0 ≤ dst := hregs dst (by simp [hops])
  have heq : foldInstruction E.table C instr = foldGlobalCall E.table C instr := by
    unfold foldInstruction
    rw [hop]
  rw [heq] at hfold
  unfold foldGlobalCall at hfold
  dsimp only at hfold
  rw [hdst, decide_eq_true hpos, hops] at hfold
  dsimp only at hfold
  cases hinfo : E.table.globalFunction fn with
  | error e => rw [hinfo] at hfold; cases hfold
  | ok info =>
    rw [hinfo] at hfold
    simp only [bind, Except.bind] at hfold
    split at hfold
    · rename_i hguard
      simp only [Bool.and_eq_true, Bool.not_eq_true', decide_eq_true_eq] at hguard
      obtain ⟨⟨himpure, hsmall⟩, hlen⟩ := hguard
      rw [List.length_map] at hlen
      cases hvalue : foldGlobalFunction E.table C info (rs.map .reg) with
      | error e => rw [hvalue] at hfold; cases hfold
      | ok result =>
        rw [hvalue] at hfold
        cases result with
        | none =>
          cases hfold
          exact foldOk_unknown hC hexec hdst
        | some c =>
          cases hfold
          obtain ⟨hheld, heval, hstring⟩ := foldGlobalFunction_sound E.function hinfo himpure hC
            (hright.global _ _ _ info hop hops hinfo) hvalue
          refine foldOk_folded hC hexec hpos (loads_result E dst hstring) ?_
          have hreads : ∀ r ∈ instr.collectReadRegisters, (fr.registers r).isSome = true := by
            have hsig : instr.signature = [.dst, .imm, .imm, .cnt] ++ [.srcList] := signature_of hop
            rw [collectReadRegisters_eq hsig hops, registersReadFrom_cons, registersReadFrom_cons,
              registersReadFrom_cons, registersReadFrom_cons]
            exact fun r hr => hheld r (mem_of_registersReadFrom hr)
          rw [execute_held hfits (by rw [hop]; decide) hreads, hargs, hdst, hop]
          unfold denote denoteGlobalCall
          dsimp only
          rw [argumentValues_all _ hlen hsmall]
          change (Option.map _ (yields fr.globals (evalGlobal E.table E.function fn _))) = _
          rw [heval]
          rfl
    · cases hfold
      exact foldOk_unknown hC hexec hdst

end GlobalCalls

/-! ## 6. One instruction -/

section Instruction

variable {E : Env} {C : Constants} {instr : IRInstruction} {fr fr' : Frame} {os : List Observation}
  {flow : Exit String Value} {folding : Folding}
  (hfits : Fits instr) (hregs : ∀ r, .reg r ∈ instr.operands → 0 ≤ r) (hC : C.Holds fr)
  (hexec : execute E instr fr = some (os, fr', flow))
include hC hexec

-- the destination is a constant from now on
theorem foldOk_load {dst : Int} (hpos : 0 ≤ dst)
    (hload : execute E instr fr = some ([], fr.assign dst c.toValue, .next)) :
    FoldOk E fr ⟨C.set dst c, [instr]⟩ os fr' flow := by
  have hsame := hexec
  rw [hload] at hsame
  cases hsame
  exact foldOk_kept hload (hC.set (keptBut_assign fr dst _) hpos (if_pos rfl))

theorem foldOk_destination :
    FoldOk E fr (if 0 ≤ instr.destinationRegister then C.unknown instr.destinationRegister instr
      else ⟨C, [instr]⟩) os fr' flow := by
  split
  · exact foldOk_unknown hC hexec rfl
  · rename_i hneg
    exact foldOk_same hC hexec (hC.find?_neg (by omega))

variable (hfold : foldInstruction E.table C instr = .ok folding)
include hfits hregs hfold

theorem foldOk_move (hop : instr.opcode = .move) : FoldOk E fr folding os fr' flow := by
  have hsig : instr.signature = [.dst, .src] := signature_of hop
  obtain ⟨dst, src, hops⟩ := hfits.dst_src hsig
  have hdst := destination_first hsig (by rw [hsig]; decide) hops
  unfold foldInstruction at hfold
  rw [hop, hops] at hfold
  dsimp only at hfold
  split at hfold
  · rename_i c hc
    cases hfold
    refine foldOk_set hC hexec hdst (hregs dst (by simp [hops])) ?_
    rw [execute_move hop hops] at hexec
    cases hexec
    rw [← value_of_some (hC.find? hc)]
    exact if_pos rfl
  · cases hfold
    exact foldOk_unknown hC hexec hdst

theorem foldInstruction_sound (hright : FoldsRight E.table C instr) :
    FoldOk E fr folding os fr' flow := by
  cases hop : instr.opcode
  case label | breakpoint | scopeMark | scopeRelease | branchEq | branchNeq | branchLt | branchLte
      | branchGt | branchGte =>
    unfold foldInstruction at hfold
    rw [hop] at hfold
    cases hfold
    exact foldOk_same hC hexec (hC.find?_destination (by rw [hop]; decide))
  case loadImm =>
    obtain ⟨dst, v, hops⟩ := hfits.dst_imm (signature_of hop)
    unfold foldInstruction at hfold
    rw [hop, hops] at hfold
    cases hfold
    exact foldOk_load hC hexec (hregs dst (by simp [hops]))
      (execute_constant hops ⟨v, v, 0, .inl ⟨hop, rfl, rfl⟩⟩)
  case loadBool =>
    obtain ⟨dst, v, hops⟩ := hfits.dst_imm (signature_of hop)
    unfold foldInstruction at hfold
    rw [hop, hops] at hfold
    cases hfold
    exact foldOk_load hC hexec (hregs dst (by simp [hops]))
      (execute_constant hops ⟨v, v, 0, .inr (.inl ⟨hop, rfl, rfl⟩)⟩)
  case loadFloatImm =>
    obtain ⟨dst, d, hops⟩ := hfits.dst_fimm (signature_of hop)
    unfold foldInstruction at hfold
    rw [hop, hops] at hfold
    cases hfold
    exact foldOk_load hC hexec (hregs dst (by simp [hops]))
      (execute_constant hops ⟨0, 0, d, .inr (.inr ⟨hop, rfl, rfl⟩)⟩)
  case loadString =>
    have hsig : instr.signature = [.dst, .imm] := signature_of hop
    obtain ⟨dst, v, hops⟩ := hfits.dst_imm hsig
    unfold foldInstruction at hfold
    rw [hop, hops] at hfold
    cases hfold
    exact foldOk_unknown hC hexec (destination_first hsig (by rw [hsig]; decide) hops)
  case move => exact foldOk_move hfits hregs hC hexec hfold hop
  case convert => exact foldOk_convert hfits hregs hC hexec hfold hop
  case neg => exact foldOk_neg hfits hregs hC hexec hfold hop
  case not => exact foldOk_not hfits hregs hC hexec hfold hop
  case add | sub | mul | div | mod | bitAnd | bitOr | bitXor | shl | shr =>
    exact foldOk_arithmetic hfits hregs hC hexec hfold (by rw [hop]; decide) hright
  case cmpEq | cmpNeq | cmpLt | cmpLte | cmpGt | cmpGte =>
    exact foldOk_comparison hfits hregs hC hexec hfold (by rw [hop]; decide) hright
  case and => exact foldOk_logical hfits hregs hC hexec hfold (.inl hop) hright
  case or => exact foldOk_logical hfits hregs hC hexec hfold (.inr hop) hright
  case branchZero => exact foldOk_branch hfits hC hexec hfold (.inl hop)
  case branchNotZero => exact foldOk_branch hfits hC hexec hfold (.inr hop)
  case globalCall => exact foldOk_globalCall hfits hregs hC hexec hfold hop hright
  case call =>
    obtain ⟨name, dst, count, rs, hops, -⟩ := hfits.call hop
    unfold foldInstruction at hfold
    rw [hop, hops] at hfold
    cases hfold
    exact foldOk_same hC hexec (hright.call hop)
  case loadNil | loadGlobal | storeGlobal | coerce | typeTest | typeTestMask | typeOf | bitNot
      | jump | switch | returnOp =>
    have hgeneric := foldOk_destination hC hexec
    unfold foldInstruction at hfold
    rw [hop] at hfold
    dsimp only at hfold
    split at hfold
    · rename_i hpos
      cases hfold
      rw [if_pos hpos] at hgeneric
      exact hgeneric
    · rename_i hneg
      cases hfold
      rw [if_neg hneg] at hgeneric
      exact hgeneric
  -- the rest throws in the interpreter
  all_goals
    unfold execute at hexec
    rw [if_neg (by rw [hop]; decide), hop] at hexec
    cases hexec

end Instruction

end Optimizer
