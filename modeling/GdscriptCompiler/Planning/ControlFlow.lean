import GdscriptCompiler.Ir.Supplied

/-!
# ControlFlow — the instruction graph the back ends plan on

`build_successors` of `riscv_codegen.cpp`: instruction to instruction, by the ids of the labels.
-/

namespace Plan

open Ir Lib

/-! ## 1. Labels and successors -/

def labelId (instr : IRInstruction) : Option Nat :=
  if hasEffect instr.opcode .label then instr.operands.head?.map (·.stringId) else none

/-- `label_index`: a later label replaces an earlier one. -/
def labelIndex (f : IRFunction) (id : Nat) : Option Nat :=
  (f.instructions.zipIdx.reverse.find? fun (instr, _) => labelId instr = some id).map Prod.snd

def labelOperands (instr : IRInstruction) : List Nat :=
  if hasEffect instr.opcode .label then []
  else
    instr.operands.filterMap fun
      | .label id => some id
      | _ => none

/-- `build_successors`, at instruction `i`. -/
def successors (f : IRFunction) (i : Nat) : List Nat :=
  match f.instructions[i]? with
  | none => []
  | some instr =>
    (labelOperands instr).filterMap (labelIndex f) ++
      if !hasEffect instr.opcode .terminator && i + 1 < f.instructions.length then [i + 1] else []

variable {id j i : Nat} {instr : IRInstruction}

section Labels

variable {f : IRFunction}

theorem labelIndex_spec (h : labelIndex f id = some j) :
    ∃ instr, f.instructions[j]? = some instr ∧ labelId instr = some id := by
  unfold labelIndex at h
  obtain ⟨⟨instr, j'⟩, hfind, rfl⟩ := Option.map_eq_some_iff.mp h
  have hmem := List.mem_reverse.mp (List.mem_of_find?_eq_some hfind)
  exact ⟨instr, List.mem_zipIdx_iff_getElem?.mp hmem, by simpa using List.find?_some hfind⟩

theorem labelIndex_isSome (hj : f.instructions[j]? = some instr) (hid : labelId instr = some id) :
    ∃ j', labelIndex f id = some j' := by
  unfold labelIndex
  cases hfind : f.instructions.zipIdx.reverse.find? fun (instr, _) => labelId instr = some id with
  | some p => exact ⟨p.2, rfl⟩
  | none =>
    have hnone := List.find?_eq_none.mp hfind (instr, j)
      (List.mem_reverse.mpr (List.mem_zipIdx_iff_getElem?.mpr hj))
    exact absurd (decide_eq_true hid) hnone

theorem mem_labelOperands :
    id ∈ labelOperands instr ↔ instr.opcode ≠ .label ∧ .label id ∈ instr.operands := by
  unfold labelOperands
  split
  · rename_i hlabel
    exact ⟨fun h => (List.not_mem_nil h).elim, fun h => absurd (hasEffect_label_iff.mp hlabel) h.1⟩
  · rename_i hlabel
    rw [List.mem_filterMap]
    constructor
    · rintro ⟨operand, hmem, hsome⟩
      refine ⟨fun hop => hlabel (hasEffect_label_iff.mpr hop), ?_⟩
      cases operand <;> cases hsome
      exact hmem
    · rintro ⟨-, hmem⟩
      exact ⟨_, hmem, rfl⟩

theorem mem_successors :
    j ∈ successors f i ↔ ∃ instr, f.instructions[i]? = some instr ∧
      ((∃ id ∈ labelOperands instr, labelIndex f id = some j) ∨
      hasEffect instr.opcode .terminator = false ∧ j = i + 1 ∧ i + 1 < f.instructions.length) := by
  unfold successors
  cases hinstr : f.instructions[i]? with
  | none => simp
  | some instr =>
    dsimp only
    rw [List.mem_append, List.mem_filterMap]
    constructor
    · intro h
      refine ⟨instr, rfl, h.imp_right fun hnext => ?_⟩
      split at hnext
      · rename_i hcond
        rw [Bool.and_eq_true, Bool.not_eq_true', decide_eq_true_eq] at hcond
        exact ⟨hcond.1, List.mem_singleton.mp hnext, hcond.2⟩
      · cases hnext
    · rintro ⟨instr', hsome, h⟩
      cases hsome
      refine h.imp_right fun ⟨hterm, hj, hlt⟩ => ?_
      rw [hterm, if_pos (by simpa using hlt), hj]
      exact List.mem_singleton_self _

theorem successors_lt (h : j ∈ successors f i) : j < f.instructions.length := by
  obtain ⟨instr, -, ⟨id, -, hindex⟩ | ⟨-, rfl, hlt⟩⟩ := mem_successors.mp h
  · obtain ⟨target, htarget, -⟩ := labelIndex_spec hindex
    exact (List.getElem?_eq_some_iff.mp htarget).1
  · exact hlt

end Labels

/-! ## 2. Registers -/

/-- Operand `j` is the register `r` and the opcode table gives it the kind `kind`. -/
def HasOperand (instr : IRInstruction) (kind : OperandKind) (r : Int) : Prop :=
  ∃ j : Nat, instr.operands[j]? = some (.reg r) ∧ kindAt instr.signature j = kind

/-- Any operand but a destination is read; a bare RETURN reads r0. -/
def Reads (instr : IRInstruction) (r : Int) : Prop :=
  (∃ j : Nat, instr.operands[j]? = some (.reg r) ∧ kindAt instr.signature j ≠ .dst) ∨
    instr.opcode = .returnOp ∧ instr.operands = [] ∧ r = 0

/-- A destination that is not read first. -/
def Overwrites (instr : IRInstruction) (r : Int) : Prop := HasOperand instr .dst r

variable {r : Int}

theorem mem_collectReadRegisters : r ∈ instr.collectReadRegisters ↔ Reads instr r := by
  unfold IRInstruction.collectReadRegisters Reads
  cases hbare : instr.isBareReturn with
  | true =>
    have hret : instr.opcode = .returnOp ∧ instr.operands = [] := by
      simpa [IRInstruction.isBareReturn] using hbare
    rw [if_pos rfl, List.mem_singleton]
    constructor
    · exact fun hr => .inr ⟨hret.1, hret.2, hr⟩
    · rintro (⟨j, hj, -⟩ | h)
      · rw [hret.2] at hj
        cases hj
      · exact h.2.2
  | false =>
    rw [if_neg Bool.false_ne_true, List.mem_filterMap]
    constructor
    · rintro ⟨⟨operand, j⟩, hmem, hsome⟩
      have hj := List.mem_zipIdx_iff_getElem?.mp hmem
      left
      refine ⟨j, ?_⟩
      cases operand with
      | reg r' =>
        dsimp only at hsome
        split at hsome
        · rename_i hreads
          cases hsome
          unfold IRInstruction.readsOperand at hreads
          rw [hj] at hreads
          exact ⟨hj, of_decide_eq_true hreads⟩
        · cases hsome
      | _ => cases hsome
    · rintro (⟨j, hj, hkind⟩ | h)
      · have hlisted := listed_of_operand hbare hj hkind
        rwa [IRInstruction.collectReadRegisters, hbare, if_neg Bool.false_ne_true,
          List.mem_filterMap] at hlisted
      · simp [IRInstruction.isBareReturn, h.1, h.2.1] at hbare

-- one operand of a row is written at most, and it is among the fixed ones
theorem destinationOperandIndex_eq {op : Opcode}
    (h : kindAt (opcodeInfo op).signature j = .dst ∨ kindAt (opcodeInfo op).signature j = .inout) :
    IRInstruction.destinationOperandIndex op = j := by
  have hrows : ∀ j < fixedCount (opcodeInfo op).signature,
      (opcodeInfo op).signature.getD j .none = .dst ∨ (opcodeInfo op).signature.getD j .none = .inout →
      IRInstruction.destinationOperandIndex op = j := by
    cases op <;> decide
  have htail : (opcodeInfo op).signature.getLastD .none ≠ .dst ∧
      (opcodeInfo op).signature.getLastD .none ≠ .inout ∨
      isVariadic (opcodeInfo op).signature = false := by
    cases op <;> decide
  unfold kindAt at h
  split at h
  · rename_i hj
    exact hrows j hj h
  · split at h
    · rename_i hvar
      rw [hvar] at htail
      simp_all
    · simp at h

theorem destinationRegister_eq_iff (hr : 0 ≤ r) :
    instr.destinationRegister = r ↔ HasOperand instr .dst r ∨ HasOperand instr .inout r := by
  constructor
  · intro h
    have hnonneg : 0 ≤ instr.destinationRegister := h.symm ▸ hr
    have hindex := destinationOperandIndex_nonneg hnonneg
    obtain ⟨j, hj⟩ := Int.eq_ofNat_of_zero_le hindex
    have hkind := destinationOperandIndex_kind hj
    unfold IRInstruction.destinationRegister at h
    rw [hj] at h
    dsimp only at h
    rw [if_neg (by omega), Int.toNat_natCast] at h
    have hoperand : instr.operands[j]? = some (.reg r) := by
      split at h
      · rename_i r' hr'
        rw [hr', h]
      · omega
    exact hkind.imp (fun hk => ⟨j, hoperand, hk⟩) fun hk => ⟨j, hoperand, hk⟩
  · rintro (⟨j, hj, hkind⟩ | ⟨j, hj, hkind⟩)
    · exact destination_of_index (destinationOperandIndex_eq (.inl hkind)) hj
    · exact destination_of_index (destinationOperandIndex_eq (.inr hkind)) hj

/-! ## 3. Accepted functions -/

/-- A function `ir_verify` accepts, with the table its names are interned in. -/
structure VerifiedFunction where
  function : IRFunction
  strings : StringTable
  named : LabelsInterned strings function
  accepted : irVerify (some strings) function = .ok ()

namespace VerifiedFunction

variable (V : VerifiedFunction)

def at? (i : Nat) : Option IRInstruction := V.function.instructions[i]?

theorem verified : Verified V.strings V.function := verified_of_irVerify V.accepted

variable {V}

theorem mem_of_at (h : V.at? i = some instr) : instr ∈ V.function.instructions :=
  List.mem_of_getElem? h

theorem fits (h : V.at? i = some instr) : Fits instr :=
  V.verified.fits instr (mem_of_at h)

/-- `i` is the LABEL of the name `id` stands for. -/
def IsLabel (V : VerifiedFunction) (id i : Nat) : Prop :=
  ∃ instr, V.at? i = some instr ∧ instr.labelName V.strings = some (V.strings.nameOf id)

theorem labelName_of_labelId (h : labelId instr = some id) (hfits : Fits instr) :
    instr.opcode = .label ∧ .label id ∈ instr.operands ∧
      instr.labelName V.strings = some (V.strings.nameOf id) := by
  unfold labelId at h
  split at h
  · rename_i heff
    have hop := hasEffect_label_iff.mp heff
    obtain ⟨id', hops⟩ := hfits.lbl (signature_of hop)
    rw [hops] at h
    obtain rfl : id' = id := Option.some.inj h
    refine ⟨hop, by rw [hops]; exact List.mem_singleton_self _, ?_⟩
    unfold IRInstruction.labelName
    rw [hop, hops]
  · cases h

theorem labelId_of_labelName {name : String} (h : instr.labelName V.strings = some name)
    (hfits : Fits instr) :
    ∃ id, labelId instr = some id ∧ .label id ∈ instr.operands ∧ V.strings.nameOf id = name := by
  have hop := opcode_of_labelName h
  obtain ⟨id, hops⟩ := hfits.lbl (signature_of hop)
  unfold IRInstruction.labelName at h
  rw [hop, hops] at h
  refine ⟨id, ?_, by rw [hops]; exact List.mem_singleton_self _, Option.some.inj h⟩
  unfold labelId
  rw [if_pos (hasEffect_label_iff.mpr hop), hops]
  rfl

theorem labelIndex_eq_some_iff (hinstr : V.at? i = some instr) (hid : .label id ∈ instr.operands) :
    labelIndex V.function id = some j ↔ V.IsLabel id j := by
  have hrunnable := runnable_of_irVerify V.accepted
  constructor
  · intro h
    obtain ⟨target, htarget, hlabel⟩ := labelIndex_spec h
    exact ⟨target, htarget, (labelName_of_labelId hlabel (fits htarget)).2.2⟩
  · rintro ⟨target, htarget, hname⟩
    obtain ⟨id', hid', hops, hsame⟩ := labelId_of_labelName hname (fits htarget)
    obtain rfl := StringTable.nameOf_inj (V.named _ (mem_of_at htarget) _ hops)
      (V.named _ (mem_of_at hinstr) _ hid) hsame
    obtain ⟨j', hj'⟩ := labelIndex_isSome htarget hid'
    obtain ⟨target', htarget', hlabel'⟩ := labelIndex_spec hj'
    rw [hj', hrunnable.label_index htarget' htarget
      (labelName_of_labelId hlabel' (fits htarget')).2.2 hname]

theorem nameOf_mem_labelTargets (h : id ∈ labelOperands instr) :
    V.strings.nameOf id ∈ instr.labelTargets (some V.strings) := by
  obtain ⟨hop, hmem⟩ := mem_labelOperands.mp h
  unfold IRInstruction.labelTargets
  rw [if_neg fun heff => hop (hasEffect_label_iff.mp heff)]
  exact List.mem_filterMap.mpr ⟨_, hmem, rfl⟩

theorem exists_labelIndex (hinstr : V.at? i = some instr) (hid : id ∈ labelOperands instr) :
    ∃ j, labelIndex V.function id = some j := by
  obtain ⟨j, hj⟩ := V.verified.labels instr (mem_of_at hinstr) _ (nameOf_mem_labelTargets hid)
  rw [← runLabels_eq V.verified] at hj
  exact ⟨j, (labelIndex_eq_some_iff hinstr (mem_labelOperands.mp hid).2).mpr (runLabels_at hj)⟩

/-! ## 4. The control-flow graph -/

/-- What can follow instruction `i`: a label it goes to, or the next instruction unless it never
goes on. -/
inductive Follows (V : VerifiedFunction) (i : Nat) : Nat → Prop
  | jump {instr : IRInstruction} {id j : Nat} (hinstr : V.at? i = some instr)
    (hop : instr.opcode ≠ .label)
      (hid : .label id ∈ instr.operands) (hj : V.IsLabel id j) : Follows V i j
  | fall {instr : IRInstruction} (hinstr : V.at? i = some instr) (hop : instr.opcode ≠ .jump)
      (hop' : instr.opcode ≠ .returnOp) (hlt : i + 1 < V.function.instructions.length) : Follows V i
      (i + 1)

theorem terminator_eq_false_iff {op : Opcode} :
    hasEffect op .terminator = false ↔ op ≠ .jump ∧ op ≠ .returnOp := by
  cases op <;> decide

theorem mem_successors_iff : j ∈ successors V.function i ↔ V.Follows i j := by
  rw [mem_successors]
  constructor
  · rintro ⟨instr, hinstr, ⟨id, hid, hindex⟩ | ⟨hterm, rfl, hlt⟩⟩
    · obtain ⟨hop, hmem⟩ := mem_labelOperands.mp hid
      exact .jump hinstr hop hmem ((labelIndex_eq_some_iff hinstr hmem).mp hindex)
    · obtain ⟨hop, hop'⟩ := terminator_eq_false_iff.mp hterm
      exact .fall hinstr hop hop' hlt
  · intro h
    cases h with
    | jump hinstr hop hid hj =>
      exact ⟨_, hinstr, .inl ⟨_, mem_labelOperands.mpr ⟨hop, hid⟩,
        (labelIndex_eq_some_iff hinstr hid).mpr hj⟩⟩
    | fall hinstr hop hop' hlt =>
      exact ⟨_, hinstr, .inr ⟨terminator_eq_false_iff.mpr ⟨hop, hop'⟩, rfl, hlt⟩⟩

/-! ## 5. Paths from the entry -/

/-- A path from the entry comes to `i` over the instructions `past`, the latest first. -/
inductive Reached (V : VerifiedFunction) : List Nat → Nat → Prop
  | start (h : 0 < V.function.instructions.length) : Reached V [] 0
  | step {past : List Nat} {i j : Nat} (h : Reached V past i) (hj : j ∈ successors V.function i) :
      Reached V (i :: past) j

def WrittenIn (V : VerifiedFunction) (past : List Nat) (r : Int) : Prop :=
  ∃ k ∈ past, ∃ instr, V.at? k = some instr ∧ instr.destinationRegister = r

/-- What the verifier takes note of along `past`. -/
def events (V : VerifiedFunction) (past : List Nat) : List Event :=
  past.flatMap fun k =>
    ((V.at? k).map fun instr => [.write instr.destinationRegister, .mark instr.scopeId]).getD []

variable {past : List Nat}

theorem events_cons {k : Nat} (h : V.at? k = some instr) :
    V.events (k :: past) = [.write instr.destinationRegister, .mark instr.scopeId] ++
      V.events past := by
  rw [events, List.flatMap_cons, h]
  rfl

theorem writtenIn_of_events (h : .write r ∈ V.events past) : V.WrittenIn past r := by
  obtain ⟨k, hk, hmem⟩ := List.mem_flatMap.mp h
  cases hinstr : V.at? k with
  | none =>
    rw [hinstr] at hmem
    cases hmem
  | some instr =>
    rw [hinstr] at hmem
    refine ⟨k, hk, instr, hinstr, ?_⟩
    simpa [eq_comm] using hmem

-- induction on the path; the states of the verifier's fixpoint cover what the path has written
theorem Reached.covered (h : V.Reached past i) :
    Covered V.strings V.function i i (V.events past) := by
  induction h with
  | start h => exact covered_start h _
  | @step past i j _ hj ih =>
    obtain ⟨instr, hinstr, hedge⟩ := mem_successors.mp hj
    rw [events_cons hinstr]
    have hafter : Covered V.strings V.function i (i + 1)
        ([.write instr.destinationRegister, .mark instr.scopeId] ++ V.events past) :=
      ih.after hinstr (fun _ => by simp) (fun _ => by simp)
    rcases hedge with ⟨id, hid, hindex⟩ | ⟨hterm, rfl, hlt⟩
    · refine hafter.jump hinstr (fits hinstr) (nameOf_mem_labelTargets hid) ?_
      rw [← runLabels_eq V.verified]
      have hlabel := (labelIndex_eq_some_iff hinstr (mem_labelOperands.mp hid).2).mp hindex
      exact (runnable_of_irVerify V.accepted).runLabels_eq_some_iff.mpr hlabel
    · exact hafter.fall hinstr hterm hlt

/-- Along every path an operand is read after a write of its register, unless it is a parameter. -/
theorem Reached.read_written (h : V.Reached past i) (hinstr : V.at? i = some instr)
    (hbare : instr.isBareReturn = false) (hr : r ∈ instr.collectReadRegisters) :
    V.WrittenIn past r ∨ 0 ≤ r ∧ r < V.function.parameters.length :=
  ((h.covered.read V.verified hinstr hbare hr).2).imp_left writtenIn_of_events

end VerifiedFunction

/-! ## 6. A loop -/

/-- `r3 = r0 & 7` until it is zero, and `return r3`; the second parameter is not used. -/
def maskLoopFunction : IRFunction where
  name := "f"
  parameters := ["n", "unused"]
  instructions := [
    { opcode := .loadImm, operands := [.reg 2, .imm 7] },
    { opcode := .label, operands := [.label 0] },
    { opcode := .bitAnd, operands := [.reg 3, .reg 0, .reg 2], typeHint := Variant.int },
    { opcode := .branchNotZero, operands := [.reg 3, .label 0] },
    { opcode := .move, operands := [.reg 0, .reg 3] },
    { opcode := .returnOp, operands := [] }]
  maxRegisters := 4

def maskLoop : VerifiedFunction where
  function := maskLoopFunction
  strings := ⟨["loop"], by decide⟩
  named := by decide
  accepted := rfl

end Plan
