import GdscriptCompiler.Optimizer.Meaning
import Mathlib.Data.Set.Function

/-! # Renaming — registers under other names -/

namespace Optimizer

open Ir Lib

def renameOperand (σ : Int → Int) : IRValue → IRValue
  | .reg r => .reg (σ r)
  | operand => operand

def renameInstruction (σ : Int → Int) (instr : IRInstruction) : IRInstruction :=
  { instr with operands := instr.operands.map (renameOperand σ) }

/-- No two registers of `D` get one name; the return register keeps its own, and so does "none". -/
structure Renames (σ : Int → Int) (D : Set Int) : Prop where
  injOn : Set.InjOn σ D
  zero : 0 ∈ D ∧ σ 0 = 0
  none : -1 ∈ D ∧ σ (-1) = -1

/-- Frames that hold the same under the two names. -/
structure Renamed (σ : Int → Int) (D : Set Int) (fr g : Frame) : Prop where
  globals : g.globals = fr.globals
  registers : ∀ r ∈ D, g.registers (σ r) = fr.registers r

/-! ## 1. Operands -/

section Operands

variable {σ : Int → Int} {value value' : Int → Value} {signature : List OperandKind}
  {operands : List IRValue}

theorem argsFrom_rename (h : ∀ r, .reg r ∈ operands → value' (σ r) = value r) (j : Nat) :
    argsFrom value' signature j (operands.map (renameOperand σ)) =
      argsFrom value signature j operands := by
  induction operands generalizing j with
  | nil => rfl
  | cons operand rest ih =>
    rw [List.map_cons, argsFrom, argsFrom, ih (fun r hr => h r (List.mem_cons_of_mem _ hr))]
    congr 1
    cases operand with
    | reg r =>
      unfold renameOperand Arg.ofOperand
      dsimp only
      rw [h r List.mem_cons_self]
    | _ => rfl

theorem registersReadFrom_rename (σ : Int → Int) (j : Nat) :
    registersReadFrom signature j (operands.map (renameOperand σ)) =
      (registersReadFrom signature j operands).map σ := by
  induction operands generalizing j with
  | nil => rfl
  | cons operand rest ih =>
    rw [List.map_cons, registersReadFrom_cons, registersReadFrom_cons, ih, List.map_append]
    congr 1
    cases operand with
    | reg r =>
      dsimp only [renameOperand]
      split <;> rfl
    | _ => rfl

theorem argumentRegisters_rename (σ : Int → Int) (count : Int64) (operands : List IRValue) :
    argumentRegisters count (operands.map (renameOperand σ)) =
      (argumentRegisters count operands).map σ := by
  unfold argumentRegisters
  rw [← List.map_take, List.filterMap_map, List.map_filterMap]
  congr 1
  funext operand
  cases operand <;> rfl

end Operands

variable {τ : Int → Int}

section Instruction

variable {σ : Int → Int} {instr : IRInstruction} {value value' : Int → Value}

theorem collectReadRegisters_rename (hop : instr.opcode ≠ .returnOp) :
    (renameInstruction σ instr).collectReadRegisters = instr.collectReadRegisters.map σ := by
  have hop' : (renameInstruction σ instr).opcode ≠ .returnOp := hop
  rw [collectReadRegisters_from (not_isBareReturn hop'),
    collectReadRegisters_from (not_isBareReturn hop)]
  exact registersReadFrom_rename σ 0

theorem destination_rename (hnone : σ (-1) = -1) :
    (renameInstruction σ instr).destinationRegister = σ instr.destinationRegister := by
  unfold IRInstruction.destinationRegister renameInstruction
  dsimp only
  split
  · exact hnone.symm
  · rw [List.getElem?_map]
    cases instr.operands[(IRInstruction.destinationOperandIndex instr.opcode).toNat]? with
    | none => exact hnone.symm
    | some operand =>
      cases operand with
      | reg r => rfl
      | _ => exact hnone.symm

theorem fits_rename (hfits : Fits instr) : Fits (renameInstruction σ instr) := by
  refine Fits.rename ?_ hfits
  refine List.forall₂_map_right_iff.mpr (List.forall₂_same.mpr fun operand _ => ?_)
  cases operand with
  | reg r => exact .inr ⟨r, σ r, rfl, rfl⟩
  | _ => exact .inl rfl

theorem labelName_rename (strings : StringTable) :
    (renameInstruction σ instr).labelName strings = instr.labelName strings := by
  unfold IRInstruction.labelName renameInstruction
  dsimp only
  generalize instr.operands = operands
  cases instr.opcode
  case label => rcases operands with _ | ⟨_ | _ | _ | _ | _ | _, _⟩ <;> rfl
  all_goals rfl

theorem rename_back (h : ∀ r, .reg r ∈ instr.operands → τ (σ r) = r) :
    renameInstruction τ (renameInstruction σ instr) = instr := by
  have hoperands : (instr.operands.map (renameOperand σ)).map (renameOperand τ) = instr.operands := by
    rw [List.map_map]
    conv_rhs => rw [← List.map_id instr.operands]
    refine List.map_congr_left fun operand hmem => ?_
    cases operand with
    | reg r => exact congrArg IRValue.reg (h r hmem)
    | _ => rfl
  unfold renameInstruction
  dsimp only
  rw [hoperands]

theorem rename_label (hfits : Fits instr) (hop : instr.opcode = .label) :
    renameInstruction σ instr = instr := by
  obtain ⟨id, hops⟩ := hfits.lbl (signature_of hop)
  have hsame : instr.operands.map (renameOperand σ) = instr.operands := by rw [hops]; rfl
  unfold renameInstruction
  rw [hsame]

theorem touched_rename (hfits : Fits instr)
    (h : ∀ r, .reg r ∈ instr.operands → value' (σ r) = value r) :
    (renameInstruction σ instr).touched value' = (instr.touched value).map σ := by
  by_cases hop : instr.opcode ∈ [.returnOp, .and, .or, .call, .globalCall]
  · simp only [List.mem_cons, List.not_mem_nil, or_false] at hop
    unfold IRInstruction.touched renameInstruction
    dsimp only
    rcases hop with hop | hop | hop | hop | hop
    · rw [hop]
      rfl
    iterate 2
      · obtain ⟨dst, src1, src2, hops⟩ := hfits.dst_src_src (signature_of hop)
        rw [hop, hops]
        have hsrc := h src1 (by rw [hops]; simp)
        simp only [List.map_cons, List.map_nil, renameOperand, hsrc]
        split <;> rfl
    · obtain ⟨name, dst, count, rs, hops, -, -⟩ := hfits.call hop
      rw [hop, hops]
      exact argumentRegisters_rename σ count _
    · obtain ⟨dst, fn, flag, count, rs, hops, -, -⟩ := hfits.globalCall hop
      rw [hop, hops]
      exact argumentRegisters_rename σ count _
  · have hop' : (renameInstruction σ instr).opcode ∉ [.returnOp, .and, .or, .call, .globalCall] := hop
    rw [touched_eq hop, touched_eq hop']
    exact collectReadRegisters_rename fun heq => hop (by rw [heq]; decide)

end Instruction

/-! ## 2. Frames -/

section Frames

variable {σ : Int → Int} {D : Set Int} {fr g : Frame}

theorem Renamed.value (h : Renamed σ D fr g) {r : Int} (hr : r ∈ D) :
    g.value (σ r) = fr.value r := by
  unfold Frame.value
  rw [h.registers r hr]

theorem Renamed.touch (hσ : Renames σ D) (h : Renamed σ D fr g) {rs : List Int}
    (hrs : ∀ r ∈ rs, r ∈ D) :
    Renamed σ D (fr.touch rs) (g.touch (rs.map σ)) where
  globals := h.globals
  registers r hr := by
    have hmem : σ r ∈ rs.map σ ↔ r ∈ rs := by
      refine ⟨fun hmem => ?_, List.mem_map_of_mem⟩
      obtain ⟨s, hs, heq⟩ := List.mem_map.mp hmem
      rw [← hσ.injOn (hrs s hs) hr heq]
      exact hs
    unfold Frame.touch
    dsimp only
    simp only [hmem]
    rw [h.value hr, h.registers r hr]

theorem Renamed.write (hσ : Renames σ D) (h : Renamed σ D fr g) {r : Int} (hr : r ∈ D)
    (result : Option Value) :
    Renamed σ D (fr.write r result) (g.write (σ r) result) := by
  cases result with
  | none => exact h
  | some v =>
    refine ⟨h.globals, fun s hs => ?_⟩
    have hiff : σ s = σ r ↔ s = r := ⟨fun heq => hσ.injOn hs hr heq, congrArg σ⟩
    change (if σ s = σ r then some v else g.registers (σ s)) = if s = r then some v else fr.registers s
    rw [h.registers s hs]
    simp only [hiff]

variable {instr : IRInstruction}

theorem destination_mem (hnone : -1 ∈ D) (hregs : ∀ r, .reg r ∈ instr.operands → r ∈ D) :
    instr.destinationRegister ∈ D := by
  unfold IRInstruction.destinationRegister
  dsimp only
  split
  · exact hnone
  · split
    · rename_i r hr
      exact hregs r (List.mem_of_getElem? hr)
    · exact hnone

theorem execute_renamed {E : Env} (hσ : Renames σ D) (h : Renamed σ D fr g) (hfits : Fits instr)
    (hregs : ∀ r, .reg r ∈ instr.operands → r ∈ D) {os : List Observation} {fr₁ : Frame}
    {flow : Exit String Value} (hexec : execute E instr fr = some (os, fr₁, flow)) :
    ∃ g₁, execute E (renameInstruction σ instr) g = some (os, g₁, flow) ∧ Renamed σ D fr₁ g₁ := by
  have hvalues (r : Int) (hr : .reg r ∈ instr.operands) : g.value (σ r) = fr.value r :=
    h.value (hregs r hr)
  by_cases hop : instr.opcode = .returnOp
  · have hreturned : g.returned = fr.returned := by
      have hzero := h.registers 0 hσ.zero.1
      rw [hσ.zero.2] at hzero
      unfold Frame.returned
      rw [hzero]
    unfold execute at hexec ⊢
    rw [if_pos hop] at hexec
    rw [if_pos (show (renameInstruction σ instr).opcode = .returnOp from hop),
      show (renameInstruction σ instr).operands.isEmpty = instr.operands.isEmpty from List.isEmpty_map]
    split at hexec
    · rename_i hempty
      cases hexec
      rw [if_pos hempty, hreturned]
      exact ⟨g, rfl, h⟩
    · cases hexec
  · obtain ⟨e, hdenote, hfinish⟩ := execute_finish hexec hop
    have htouched : ∀ r ∈ instr.touched fr.value, r ∈ D := by
      intro r hr
      have hread := touched_subset hfits _ hr
      rw [collectReadRegisters_from (not_isBareReturn hop)] at hread
      exact hregs r (reg_mem_of_registersReadFrom hread)
    have htouch := Renamed.touch hσ h htouched
    have hglobals : Renamed σ D { fr.touch (instr.touched fr.value) with globals := e.globals }
        { g.touch ((instr.touched fr.value).map σ) with globals := e.globals } := ⟨rfl, htouch.registers⟩
    have hwrite := hglobals.write hσ (destination_mem hσ.none.1 hregs) e.result
    cases hfinish
    refine ⟨_, ?_, hwrite⟩
    have hargs : (renameInstruction σ instr).args g.value = instr.args fr.value :=
      argsFrom_rename hvalues 0
    unfold execute
    rw [if_neg (show (renameInstruction σ instr).opcode ≠ .returnOp from hop), hargs, h.globals]
    change (denote E fr.globals instr.opcode instr.typeHint (instr.args fr.value)).map
      ((renameInstruction σ instr).finish g) = _
    rw [hdenote, Option.map_some]
    unfold IRInstruction.finish
    rw [touched_rename hfits hvalues, destination_rename hσ.none.2]

end Frames

/-! ## 3. Functions -/

/-- `f'` is `f` with its registers renamed; parameters keep their names. -/
structure RenamedFunction (σ : Int → Int) (D : Set Int) (f f' : IRFunction) : Prop where
  renames : Renames σ D
  instructions : f'.instructions = f.instructions.map (renameInstruction σ)
  registers : ∀ instr ∈ f.instructions, ∀ r, .reg r ∈ instr.operands → r ∈ D
  parameters : f'.parameters = f.parameters
  parameter : ∀ r : Int, 0 ≤ r → r < f.parameters.length → r ∈ D ∧ σ r = r
  name : f'.name = f.name

section Functions

variable {E : Env} {σ : Int → Int} {D : Set Int} {f f' : IRFunction} (h : RenamedFunction σ D f f')
include h

theorem renamed_start (args globals : List Value) :
    Renamed σ D (startContext f args globals).frame (startContext f args globals).frame where
  globals := rfl
  registers r hr := by
    by_cases hparam : 0 ≤ r ∧ r < f.parameters.length
    · rw [(h.parameter r hparam.1 hparam.2).2]
    · -- neither is a parameter
      have hother : ¬ (0 ≤ σ r ∧ σ r < f.parameters.length) := by
        rintro ⟨hpos, hlt⟩
        obtain ⟨hmem, hfixed⟩ := h.parameter (σ r) hpos hlt
        rw [h.renames.injOn hmem hr hfixed] at hpos hlt
        exact hparam ⟨hpos, hlt⟩
      change (if σ r < 0 ∨ f.parameters.length ≤ (σ r).toNat then none else _) =
        if r < 0 ∨ f.parameters.length ≤ r.toNat then none else _
      rw [if_pos (by omega), if_pos (by omega)]

theorem RenamedFunction.runnable {strings : StringTable} (hf : Runnable strings f) :
    Runnable strings f' where
  fits instr hmem := by
    rw [h.instructions] at hmem
    obtain ⟨old, hold, rfl⟩ := List.mem_map.mp hmem
    exact fits_rename (hf.fits old hold)
  unique := by
    have hsame : (f.instructions.map (renameInstruction σ)).filterMap (IRInstruction.labelName strings) =
        f.instructions.filterMap (IRInstruction.labelName strings) := by
      rw [List.filterMap_map]
      exact List.filterMap_congr fun instr _ => labelName_rename strings
    rw [h.instructions, hsame]
    exact hf.unique

theorem renamed_simulates (hf : Runnable E.program.strings f) :
    Simulation (machine E) (machine E)
      (expandPieces (fun _ instr => [renameInstruction σ instr]) f.instructions)
      (fun _ => Renamed σ D) (fun fr g => g.globals = fr.globals) True where
  labelOf_eq := rfl
  labelled p hp := by
    obtain ⟨k, hk⟩ := List.mem_iff_getElem?.mp hp
    obtain ⟨instr, hinstr, rfl⟩ := getElem?_expandPieces hk
    cases hlabel : instr.labelName E.program.strings with
    | none =>
      exact .plain (List.forall_mem_singleton.mpr hlabel)
        (List.forall_mem_singleton.mpr ((labelName_rename E.program.strings).trans hlabel))
    | some name =>
      rw [rename_label (hf.fits instr (List.mem_of_getElem? hinstr)) (opcode_of_labelName hlabel)]
      exact .label hlabel
  piece := by
    intro k p hp fr g n os fr₁ flow hrenamed hblock
    obtain ⟨instr, hinstr, rfl⟩ := getElem?_expandPieces hp
    obtain ⟨rfl, hexec⟩ := Machine.exec_of_block_single hblock
    have hmem := List.mem_of_getElem? hinstr
    obtain ⟨g₁, hexec', hrenamed'⟩ := execute_renamed h.renames hrenamed (hf.fits instr hmem)
      (h.registers instr hmem) hexec
    refine ⟨1, g₁, .same (Machine.block_single hexec'), fun _ => Nat.le_refl _, ?_⟩
    cases flow with
    | next => exact hrenamed'
    | goto l => exact fun _ _ _ _ => hrenamed'
    | ret v => exact hrenamed'.globals
  finish h := h.globals

variable {program : IRProgram}

theorem outcome_of_renamed {table : GlobalFunctions} {call : Callee}
    (hf : Runnable program.strings f) {args globals : List Value} {o : Outcome}
    (ho : f.outcome program table call args globals = some o) :
    f'.outcome program table call args globals = some o := by
  let E : Env := ⟨program, table, call, f.name⟩
  refine outcome_of_simulation (E := E) hf (h.runnable hf).fits (oldCode_expandPieces _ _).symm ?_
    rfl h.name
    h.parameters (renamed_simulates h hf) (renamed_start h args globals) (fun _ _ h => h) ho
  rw [newCode_expandPieces_one, h.instructions]
  refine List.ext_getElem? fun k => ?_
  rw [List.getElem?_mapIdx, List.getElem?_map]

theorem RenamedFunction.symm (hτ : ∀ r ∈ D, τ (σ r) = r) : RenamedFunction τ (σ '' D) f' f where
  renames := {
    injOn := by
      rintro _ ⟨r, hr, rfl⟩ _ ⟨s, hs, rfl⟩ heq
      rw [hτ r hr, hτ s hs] at heq
      rw [heq]
    zero := ⟨⟨0, h.renames.zero⟩, by
      have := hτ 0 h.renames.zero.1
      rwa [h.renames.zero.2] at this⟩
    none := ⟨⟨-1, h.renames.none⟩, by
      have := hτ (-1) h.renames.none.1
      rwa [h.renames.none.2] at this⟩ }
  instructions := by
    rw [h.instructions, List.map_map]
    conv_lhs => rw [← List.map_id f.instructions]
    exact List.map_congr_left fun instr hmem =>
      (rename_back fun r hr => hτ r (h.registers instr hmem r hr)).symm
  registers instr hmem r hr := by
    rw [h.instructions] at hmem
    obtain ⟨old, hold, rfl⟩ := List.mem_map.mp hmem
    obtain ⟨operand, hoperand, heq⟩ := List.mem_map.mp hr
    cases operand with
    | reg s =>
      cases heq
      exact ⟨s, h.registers old hold s hoperand, rfl⟩
    | _ => cases heq
  parameters := h.parameters.symm
  parameter r hpos hlt := by
    rw [h.parameters] at hlt
    obtain ⟨hmem, hfixed⟩ := h.parameter r hpos hlt
    have := hτ r hmem
    rw [hfixed] at this
    exact ⟨⟨r, hmem, hfixed⟩, this⟩
  name := h.name.symm

theorem outcome_renamed (table : GlobalFunctions) (call : Callee)
    (hf : Runnable program.strings f) (args globals : List Value) :
    f'.outcome program table call args globals = f.outcome program table call args globals := by
  have hback := h.symm (τ := Function.invFunOn σ D) fun r hr => h.renames.injOn.leftInvOn_invFunOn hr
  cases hold : f.outcome program table call args globals with
  | some o => exact outcome_of_renamed h hf hold
  | none =>
    cases hnew : f'.outcome program table call args globals with
    | none => rfl
    | some o =>
      rw [outcome_of_renamed hback (h.runnable hf) hnew] at hold
      cases hold

end Functions

end Optimizer
