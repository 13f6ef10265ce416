import GdscriptCompiler.Lib.UseCounts
import GdscriptCompiler.Optimizer.RedundantStores
import GdscriptCompiler.Optimizer.Unreachable

/-!
# DeadCode — `IROptimizer::eliminate_dead_code`

The reads are counted over the whole text, not along paths.
-/

namespace Optimizer

open Ir Lib

/-! ## 1. The pass -/

/-- The instructions, as items that define and use registers. -/
def deadItems (table : GlobalFunctions) (f : IRFunction) : Items Int Fault where
  size := f.instructions.length
  defines i := f.instructions[i]?.bind fun instr =>
    if instr.destinationRegister < 0 then none else some instr.destinationRegister
  uses i := (f.instructions[i]?.map fun instr => instr.collectReadRegisters.filter (0 ≤ ·)).getD []
  removable i := (f.instructions[i]?.map (instructionIsPure table)).getD (.ok false)

def eliminateDeadCode (table : GlobalFunctions) (f : IRFunction) : Except Fault IRFunction := do
  let st ← (deadItems table f).run
  return { f with instructions := select (fun i => !st.removed i) f.instructions }

/-! ## 2. Reads and definitions -/

section Items

variable {table : GlobalFunctions} {f : IRFunction} {i : Nat} {instr : IRInstruction}
  (hinstr : f.instructions[i]? = some instr)
include hinstr

theorem defines_eq :
    (deadItems table f).defines i =
      if instr.destinationRegister < 0 then none else some instr.destinationRegister := by
  change f.instructions[i]?.bind _ = _
  rw [hinstr]
  rfl

theorem uses_eq : (deadItems table f).uses i = instr.collectReadRegisters.filter (0 ≤ ·) := by
  change (f.instructions[i]?.map _).getD [] = _
  rw [hinstr]
  rfl

theorem removable_eq : (deadItems table f).removable i = instructionIsPure table instr := by
  change (f.instructions[i]?.map _).getD _ = _
  rw [hinstr]
  rfl

end Items

variable {instr : IRInstruction}

section Result

variable {table : GlobalFunctions} {f : IRFunction} {st : UseState Int}

theorem remaining_eq (removed : Nat → Bool) (r : Int) :
    (deadItems table f).remaining removed r =
      ((select (fun i => !removed i) f.instructions).flatMap fun instr =>
        instr.collectReadRegisters.filter (0 ≤ ·)).count r := by
  rw [flatMap_select]
  rfl

section

variable (hdone : (deadItems table f).Done st)
include hdone

theorem count_of_unread {r : Int}
    (h : ∀ instr ∈ select (fun i => !st.removed i) f.instructions, r ∉ instr.collectReadRegisters) :
    st.count r = 0 := by
  rw [hdone.count, remaining_eq, List.count_eq_zero]
  intro hmem
  obtain ⟨instr, hinstr, hread⟩ := List.mem_flatMap.mp hmem
  exact h instr hinstr (List.mem_of_mem_filter hread)

theorem unread_of_count {i : Nat} (hinstr : f.instructions[i]? = some instr)
    (hkept : st.removed i = false) {r : Int} (hr : 0 ≤ r) (hcount : st.count r = 0) :
    r ∉ instr.collectReadRegisters := by
  intro hread
  refine Items.not_mem_uses (P := deadItems table f) (List.getElem?_eq_some_iff.mp hinstr).1 hkept
    (hdone.count r ▸ hcount) ?_
  rw [uses_eq hinstr]
  exact List.mem_filter.mpr ⟨hread, decide_eq_true hr⟩

theorem removed_spec {i : Nat} (hinstr : f.instructions[i]? = some instr)
    (hrem : st.removed i = true) :
    instructionIsPure table instr = .ok true ∧ st.count instr.destinationRegister = 0 := by
  obtain ⟨-, hpure, r, hdef, hcount⟩ := hdone.removed i hrem
  rw [removable_eq hinstr] at hpure
  rw [defines_eq hinstr] at hdef
  split at hdef
  · cases hdef
  · cases hdef
    exact ⟨hpure, hcount⟩

end

end Result

/-! ## 3. Every run -/

section Runs

variable {E : Env} {f : IRFunction} {st : UseState Int}

theorem deadCode_simulates (hf : Verified E.program.strings f)
    (hdone : (deadItems E.table f).Done st) :
    Simulation (suppliedMachine E) (machine E)
      (expandPieces (fun k instr => if !st.removed k then [instr] else []) f.instructions)
      (fun _ => Agree fun r => 0 ≤ r ∧ st.count r = 0) (fun fr g => g.globals = fr.globals)
        True where
  labelOf_eq := rfl
  labelled p hp := by
    obtain ⟨k, hk⟩ := List.mem_iff_getElem?.mp hp
    obtain ⟨instr, hinstr, rfl⟩ := getElem?_expandPieces hk
    cases hrem : st.removed k with
    | true =>
      obtain ⟨hpure, -⟩ := removed_spec hdone hinstr hrem
      have hlabel : instr.labelName E.program.strings = none :=
        labelName_of_opcode (not_label_of_isPure (isPure_of_instructionIsPure hpure))
      exact .plain (List.forall_mem_singleton.mpr hlabel) (List.forall_mem_nil _)
    | false =>
      cases hlabel : instr.labelName E.program.strings with
      | none =>
        exact .plain (List.forall_mem_singleton.mpr hlabel) (List.forall_mem_singleton.mpr hlabel)
      | some name => exact .label hlabel
  piece := by
    intro k p hp fr g n os fr₁ flow hagree hblock
    obtain ⟨instr, hinstr, rfl⟩ := getElem?_expandPieces hp
    obtain ⟨rfl, hrestricted⟩ := Machine.exec_of_block_single hblock
    obtain ⟨hsupplied, hexec⟩ := Machine.exec_of_restrict hrestricted
    have hmem := List.mem_of_getElem? hinstr
    have hfits := hf.fits instr hmem
    cases hrem : st.removed k with
    | true =>
      obtain ⟨hpure, hcount⟩ := removed_spec hdone hinstr hrem
      have hpure := isPure_of_instructionIsPure hpure
      obtain ⟨rfl, rfl, v, rfl, -⟩ := execute_pure hfits hpure hsupplied hexec
      obtain ⟨dst, rest, hops, hdst⟩ := pure_destination hfits hpure
      have hpos : 0 ≤ instr.destinationRegister :=
        hdst ▸ (hf.registers instr hmem dst (hops ▸ List.mem_cons_self)).1
      exact ⟨0, g, .same rfl, fun _ => Nat.zero_le _, hagree.drop ⟨hpos, hcount⟩ v⟩
    | false =>
      obtain ⟨g₁, hexec', hagree'⟩ := execute_agree hagree hfits hsupplied
        (fun r hr hdead => unread_of_count hdone hinstr hrem hdead.1 hdead.2 hr) hexec
      refine ⟨1, g₁, .same (Machine.block_single hexec'), fun _ => Nat.le_refl _, ?_⟩
      cases flow with
      | next => exact hagree'
      | goto l => exact fun _ _ _ _ => hagree'
      | ret v => exact hagree'.globals
  finish h := h.globals

end Runs

/-! ## 4. What is left -/

section Left

variable {table : GlobalFunctions} {f : IRFunction} {st : UseState Int}

theorem read_of_left (hdone : (deadItems table f).Done st) {i : Nat}
    (hinstr : f.instructions[i]? = some instr) (hkept : st.removed i = false)
    (hpure : instructionIsPure table instr = .ok true) (hdst : 0 ≤ instr.destinationRegister) :
    ∃ reader ∈ select (fun i => !st.removed i) f.instructions,
      instr.destinationRegister ∈ reader.collectReadRegisters := by
  by_contra hnone
  have hcount := count_of_unread hdone fun reader hmem hread => hnone ⟨reader, hmem, hread⟩
  have hdef : (deadItems table f).defines i = some instr.destinationRegister := by
    rw [defines_eq hinstr, if_neg (by omega)]
  rcases hdone.stays i (List.getElem?_eq_some_iff.mp hinstr).1 hkept _ hdef with hused | hno
  · exact hused hcount
  · rw [removable_eq hinstr, hpure] at hno
    cases hno

variable {f' : IRFunction}

theorem stays_left (hdone : (deadItems table f).Done st)
    (hf' : f'.instructions = select (fun i => !st.removed i) f.instructions) (i : Nat)
    (hi : i < f'.instructions.length) :
    (deadItems table f').Stays (deadItems table f').start i := by
  intro r hdef
  have hinstr : f'.instructions[i]? = some f'.instructions[i] := List.getElem?_eq_getElem hi
  have hselected := congrArg (fun code => code[i]?) hf'
  obtain ⟨k, hkept, hk, -⟩ := exists_of_getElem?_select (hselected.symm.trans hinstr)
  have hkept : st.removed k = false := by simpa using hkept
  -- the same instruction, in the old text
  have hdef' : (deadItems table f).defines k = some r := by
    have hsame : (deadItems table f').defines i = _ := defines_eq hinstr
    rw [defines_eq hk, ← hsame]
    exact hdef
  rcases hdone.stays k (List.getElem?_eq_some_iff.mp hk).1 hkept r hdef' with hused | hno
  · have hcount : (deadItems table f').start.count r = st.count r := by
      change (deadItems table f').remaining (fun _ => false) r = _
      rw [hdone.count, remaining_eq, remaining_eq, hf']
      exact congrArg (fun code => List.count r (List.flatMap _ code)) (select_all _)
    exact .inl (hcount ▸ hused)
  · rw [removable_eq hk] at hno
    rw [removable_eq hinstr]
    exact .inr hno

theorem eliminateDeadCode_again (hdone : (deadItems table f).Done st)
    (hf' : f'.instructions = select (fun i => !st.removed i) f.instructions) :
    eliminateDeadCode table f' = .ok f' := by
  obtain ⟨st', hrun, hremoved⟩ := Items.run_of_stays (P := deadItems table f') (stays_left hdone hf')
  unfold eliminateDeadCode
  rw [hrun]
  change Except.ok { f' with instructions := select (fun i => !st'.removed i) f'.instructions } = _
  rw [hremoved]
  exact congrArg (fun code => Except.ok { f' with instructions := code }) (select_all f'.instructions)

end Left

/-- Called with an argument for every parameter, a verified function leaves the same after the pass;
what is left without side effects has a reader among what is left, and the pass would not change it
again. -/
theorem eliminateDeadCode_preserves (program : IRProgram) (table : GlobalFunctions) (call : Callee)
    (f : IRFunction) (haccepted : irVerify (some program.strings) f = .ok ()) :
    ((∀ instr ∈ f.instructions, ∃ b, instructionIsPure table instr = .ok b) →
      ∃ f', eliminateDeadCode table f = .ok f') ∧ ∀ f', eliminateDeadCode table f = .ok f' →
      (∀ args globals o, f.parameters.length ≤ args.length →
          f.outcome program table call args globals = some o →
          f'.outcome program table call args globals = some o) ∧
      (∀ instr ∈ f'.instructions, instructionIsPure table instr = .ok true →
        ∃ reader ∈ f'.instructions, instr.destinationRegister ∈ reader.collectReadRegisters) ∧
      eliminateDeadCode table f' = .ok f' := by
  let E : Env := ⟨program, table, call, f.name⟩
  have hf : Verified E.program.strings f := verified_of_irVerify haccepted
  constructor
  · intro hknown
    obtain ⟨st, hst⟩ := Items.run_ok (P := deadItems table f) fun i hi => by
      rw [removable_eq (List.getElem?_eq_getElem hi)]
      exact hknown _ (List.getElem_mem hi)
    exact ⟨_, by unfold eliminateDeadCode; rw [hst]; rfl⟩
  · intro f' hpass
    obtain ⟨st, hst, hpass⟩ := bind_eq_ok.mp hpass
    cases hpass
    have hdone := Items.run_done hst
    refine ⟨fun args globals o hargs h => ?_, fun instr hmem hpure => ?_,
      eliminateDeadCode_again hdone rfl⟩
    · have hnew : ({ f with
          instructions := select (fun i => !st.removed i) f.instructions
          } : IRFunction).instructions =
          Piece.newCode (expandPieces (fun k instr => if !st.removed k then [instr] else [])
            f.instructions) :=
        (newCode_expandPieces_select (fun k => !st.removed k) f.instructions).symm
      refine outcome_of_restricted (E := E) (runnable_of_irVerify haccepted) ?_
        (oldCode_expandPieces _ _).symm hnew
        rfl rfl rfl (deadCode_simulates hf hdone) ?_ (.refl _ _) (fun _ _ h => h) h
      · intro instr hmem
        change instr ∈ select (fun i => !st.removed i) f.instructions at hmem
        exact hf.fits instr ((select_sublist _).subset hmem)
      · intro n os c hsteps hresult instr hinstr
        exact supplied_of_steps (E := E) haccepted rfl hargs hsteps hresult hinstr
    · change instr ∈ select (fun i => !st.removed i) f.instructions at hmem
      obtain ⟨p, hp⟩ := List.mem_iff_getElem?.mp hmem
      obtain ⟨k, hkept, hk, -⟩ := exists_of_getElem?_select hp
      have hold := List.mem_of_getElem? hk
      obtain ⟨dst, rest, hops, hdst⟩ :=
        pure_destination (hf.fits instr hold) (isPure_of_instructionIsPure hpure)
      have hpos : 0 ≤ instr.destinationRegister :=
        hdst ▸ (hf.registers instr hold dst (hops ▸ List.mem_cons_self)).1
      exact read_of_left hdone hk (by simpa using hkept) hpure hpos

/-! ## 5. Dead along every path -/

/-- Some path from instruction `k` on reads `r` before it writes it. -/
inductive ReadFrom (strings : StringTable) (f : IRFunction) (r : Int) : Nat → Prop
  | here {k : Nat} {instr : IRInstruction} (hinstr : f.instructions[k]? = some instr)
      (hread : r ∈ instr.collectReadRegisters) : ReadFrom strings f r k
  | later {k j : Nat} {instr : IRInstruction} (hinstr : f.instructions[k]? = some instr)
      (hwrite : instr.destinationRegister ≠ r) (hsucc : Successor strings f k j)
      (h : ReadFrom strings f r j) : ReadFrom strings f r k

/-- No path on from `k` reads what the instruction there writes. -/
def DeadAfter (strings : StringTable) (f : IRFunction) (k : Nat) : Prop :=
  ∃ instr, f.instructions[k]? = some instr ∧
    ∀ j, Successor strings f k j → ¬ ReadFrom strings f instr.destinationRegister j

def overwritten : IRFunction where
  name := "overwritten"
  parameters := []
  maxRegisters := 2
  instructions :=
    [{ opcode := .loadImm, operands := [.reg 1, .imm 1] },
     { opcode := .loadImm, operands := [.reg 1, .imm 2] },
     { opcode := .move, operands := [.reg 0, .reg 1] },
     { opcode := .returnOp, operands := [] }]

def unreadCopy : IRFunction where
  name := "unread_copy"
  parameters := ["n"]
  maxRegisters := 3
  instructions :=
    [{ opcode := .move, operands := [.reg 1, .reg 0] },
     { opcode := .neg, operands := [.reg 2, .reg 1] },
     { opcode := .returnOp, operands := [] }]

def deadProgram : IRProgram where
  functions := [overwritten, unreadCopy]
  strings := ⟨[], List.nodup_nil⟩
  stringConstants := []
  globals := []

def withoutDeadCode (f : IRFunction) (args : List Value) : Option Outcome := do
  let f' ← (eliminateDeadCode noGlobals f).toOption
  f'.outcome deadProgram noGlobals (callAt deadProgram noGlobals 256) args []

theorem eliminateDeadCode_preserves_unreadCopy :
    irVerify (some deadProgram.strings) unreadCopy = .ok () ∧
      ∃ f', eliminateDeadCode noGlobals unreadCopy = .ok f' ∧ f'.instructions.length = 1 ∧
        f'.outcome deadProgram noGlobals (callAt deadProgram noGlobals 256) [.int 4] [] = some
          { result := .int 4, globals := [], trace := [] } :=
  ⟨rfl, _, rfl, rfl, ((eliminateDeadCode_preserves deadProgram noGlobals _ unreadCopy rfl).2 _
    rfl).1 [.int 4] [] _ (Nat.le_refl _) rfl⟩

theorem overwritten_deadAfter : DeadAfter deadProgram.strings overwritten 0 := by
  refine ⟨_, rfl, ?_⟩
  rintro j ⟨instr, hinstr, ⟨rfl, -⟩ | ⟨name, hname, -⟩⟩ hread
  · cases hread with
    | here hinstr' hread =>
      cases hinstr'
      exact absurd hread (by decide)
    | later hinstr' hwrite _ _ =>
      cases hinstr'
      exact hwrite rfl
  · cases hinstr
    cases hname

-- the first load is dead and stays; without an argument the dropped copy is missed
theorem overwritten_load_left :
    (irVerify (some deadProgram.strings) overwritten = .ok () ∧
      eliminateDeadCode noGlobals overwritten = .ok overwritten ∧
      (∃ instr, overwritten.instructions[0]? = some instr ∧
          instructionIsPure noGlobals instr = .ok true) ∧
      DeadAfter deadProgram.strings overwritten 0) ∧
      unreadCopy.outcome deadProgram noGlobals (callAt deadProgram noGlobals 256) [] [] = some
      { result := .nil, globals := [], trace := [] } ∧
      withoutDeadCode unreadCopy [] = some { result := .int 0, globals := [], trace := [] } :=
  ⟨⟨rfl, rfl, ⟨_, rfl, rfl⟩, overwritten_deadAfter⟩, rfl, rfl⟩

end Optimizer
