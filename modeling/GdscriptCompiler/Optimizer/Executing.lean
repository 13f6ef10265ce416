import GdscriptCompiler.Optimizer.Meaning

/-! # Executing — single instructions whose operands are there -/

namespace Optimizer

open Ir Lib

variable {id : Nat}

section Execute

variable {E : Env} {fr : Frame} {instr : IRInstruction} {v : Value}

theorem value_of_some {r : Int} (h : fr.registers r = some v) : fr.value r = v := by
  unfold Frame.value
  rw [h]
  rfl

theorem execute_held (hfits : Fits instr) (hret : instr.opcode ≠ .returnOp)
    (hheld : ∀ r ∈ instr.collectReadRegisters, (fr.registers r).isSome = true) :
    execute E instr fr = (denote E fr.globals instr.opcode instr.typeHint (instr.args fr.value)).map
      fun e => (e.observed, { fr with globals := e.globals }.write instr.destinationRegister
          e.result, e.flow) := by
  have hsupplied : instr.supplied fr = true := by
    unfold IRInstruction.supplied
    rw [List.all_eq_true.mpr hheld, Bool.or_true]
  unfold execute
  rw [if_neg hret]
  congr 1
  funext e
  exact finish_supplied hfits hret hsupplied e

theorem not_return_of_signature {kind : OperandKind} {kinds : List OperandKind}
    (hsig : instr.signature = kind :: kinds) :
    instr.opcode ≠ .returnOp := by
  intro hop
  rw [IRInstruction.signature, hop] at hsig
  cases hsig

variable {dst : Int}

theorem execute_constant {operand : IRValue} (hops : instr.operands = [.reg dst, operand])
    (hload : ∃ i b d, instr.opcode = .loadImm ∧ operand = .imm i ∧ v = .int i ∨
      instr.opcode = .loadBool ∧ operand = .imm b ∧ v = .bool (b ≠ 0) ∨
      instr.opcode = .loadFloatImm ∧ operand = .fimm d ∧ v = .float d) :
    execute E instr fr = some ([], fr.assign dst v, .next) := by
  obtain ⟨op, operands, hint, lhsHint, rhsHint⟩ := instr
  obtain ⟨i, b, d, ⟨hop, rfl, rfl⟩ | ⟨hop, rfl, rfl⟩ | ⟨hop, rfl, rfl⟩⟩ := hload
  all_goals
    cases hop
    cases hops
    rfl

theorem execute_unary {src : Int} (hfits : Fits instr)
    (hsig : instr.signature = [.dst, .src]) (hops : instr.operands = [.reg dst, .reg src])
    (hv : fr.registers src = some v) :
    execute E instr fr = (denote E fr.globals instr.opcode instr.typeHint [.hole, .val v]).map
      fun e => (e.observed, { fr with globals := e.globals }.write dst e.result, e.flow) := by
  have hargs : instr.args fr.value = [.hole, .val v] := by
    rw [IRInstruction.args, hsig, hops, ← value_of_some hv]
    rfl
  have hreads : instr.collectReadRegisters = [src] := collectReadRegisters_eq hsig hops
  rw [execute_held hfits (not_return_of_signature hsig), hargs,
    destination_first hsig (by rw [hsig]; decide) hops]
  rw [hreads, List.forall_mem_singleton, hv]
  rfl

theorem execute_binary {lhs rhs : Int} {l r : Value} (hfits : Fits instr)
    (hsig : instr.signature = [.dst, .src, .src])
    (hops : instr.operands = [.reg dst, .reg lhs, .reg rhs]) (hl : fr.registers lhs = some l)
    (hr : fr.registers rhs = some r) :
    execute E instr fr = (denote E fr.globals instr.opcode instr.typeHint
        [.hole, .val l, .val r]).map
      fun e => (e.observed, { fr with globals := e.globals }.write dst e.result, e.flow) := by
  have hargs : instr.args fr.value = [.hole, .val l, .val r] := by
    rw [IRInstruction.args, hsig, hops, ← value_of_some hl, ← value_of_some hr]
    rfl
  have hreads : instr.collectReadRegisters = [lhs, rhs] := collectReadRegisters_eq hsig hops
  rw [execute_held hfits (not_return_of_signature hsig), hargs,
    destination_first hsig (by rw [hsig]; decide) hops]
  rw [hreads, List.forall_mem_cons, List.forall_mem_singleton, hl, hr]
  exact ⟨rfl, rfl⟩

-- where a branch goes
def branchExit (E : Env) (taken : Bool) (id : Nat) : Exit String Value :=
  if taken then .goto (E.program.strings.nameOf id) else .next

theorem jumps_eq (globals : List Value) (taken : Bool) (id : Nat) :
    jumps E globals taken id = { globals, flow := branchExit E taken id } := by
  cases taken <;> rfl

theorem execute_branch {c : Int} {w : Value} (hfits : Fits instr)
    (hop : instr.opcode = .branchZero ∨ instr.opcode = .branchNotZero)
    (hops : instr.operands = [.reg c, .label id]) (hc : fr.registers c = some w) :
    execute E instr fr =
      some ([], fr, branchExit E (w.getBool = decide (instr.opcode = .branchNotZero)) id) := by
  have hsig : instr.signature = [.src, .lbl] := by
    unfold IRInstruction.signature
    rcases hop with hop | hop <;> rw [hop] <;> rfl
  have hargs : instr.args fr.value = [.val w, .label id] := by
    rw [IRInstruction.args, hsig, hops, ← value_of_some hc]
    rfl
  have hreads : instr.collectReadRegisters = [c] := collectReadRegisters_eq hsig hops
  have hdenote : denote E fr.globals instr.opcode instr.typeHint (instr.args fr.value) =
      some (jumps E fr.globals (w.getBool = decide (instr.opcode = .branchNotZero)) id) := by
    rw [hargs]
    rcases hop with hop | hop <;> rw [hop] <;> rfl
  rw [execute_held hfits (not_return_of_signature hsig), hdenote, jumps_eq]
  · rfl
  · rw [hreads, List.forall_mem_singleton, hc]
    rfl

theorem execute_jump (hop : instr.opcode = .jump) (hops : instr.operands = [.label id]) :
    execute E instr fr = some ([], fr, .goto (E.program.strings.nameOf id)) := by
  have hsig : instr.signature = [.lbl] := signature_of hop
  have hargs : instr.args fr.value = [.label id] := by
    rw [IRInstruction.args, hsig, hops]
    rfl
  have htouched : instr.touched fr.value = [] :=
    (touched_eq (by rw [hop]; decide) _).trans ((collectReadRegisters_eq hsig hops).trans rfl)
  unfold execute
  rw [if_neg (by rw [hop]; decide), hargs, hop]
  change some (instr.finish fr _) = _
  unfold IRInstruction.finish
  rw [htouched]
  rfl

end Execute

/-! ## Where control goes -/

section Goto

variable {E : Env} {globals : List Value} {l : String}

theorem mem_of_mem_args {value : Int → Value} {signature : List OperandKind} (j : Nat)
    {operands : List IRValue} (h : Arg.label id ∈ argsFrom value signature j operands) :
    .label id ∈ operands := by
  induction operands generalizing j with
  | nil => cases h
  | cons operand rest ih =>
    rcases List.mem_cons.mp h with heq | hrest
    · cases operand with
      | label id' =>
        cases heq
        exact List.mem_cons_self ..
      | reg r =>
        unfold Arg.ofOperand at heq
        dsimp only at heq
        split at heq <;> cases heq
      | _ => cases heq
    · exact List.mem_cons_of_mem _ (ih (j + 1) hrest)

theorem name_of_jumps {taken : Bool} (h : (jumps E globals taken id).flow = .goto l) :
    E.program.strings.nameOf id = l := by
  cases taken with
  | false => cases h
  | true =>
    cases h
    rfl

theorem label_of_denote {op : Opcode} {hint : TypeHint} {args : List Arg} {e : Effects}
    (h : denote E globals op hint args = some e) (hflow : e.flow = .goto l) :
    op ∈ branchOpcodes ∧ ∃ id, .label id ∈ args ∧ E.program.strings.nameOf id = l := by
  have hop : op ∈ branchOpcodes := by
    cases denoted_of_denote h with
    | goes _ hop => exact hop
    | _ => cases hflow
  refine ⟨hop, ?_⟩
  unfold denote at h
  cases op
  case jump =>
    dsimp only at h
    split at h
    · cases h
      exact ⟨_, List.mem_singleton_self _, name_of_jumps hflow⟩
    · cases h
  case branchZero | branchNotZero =>
    dsimp only [denoteBranch] at h
    split at h
    · cases h
      exact ⟨_, by simp, name_of_jumps hflow⟩
    · cases h
  case branchEq | branchNeq | branchLt | branchLte | branchGt | branchGte =>
    dsimp only [denoteFused] at h
    split at h
    · split at h
      · cases h
        exact ⟨_, by simp, name_of_jumps hflow⟩
      · cases h
    · cases h
  case switch =>
    dsimp only [denoteSwitch] at h
    split at h
    · split at h
      · cases h
        cases hflow
      · split at h
        · rename_i hlabel
          cases h
          refine ⟨_, ?_, name_of_jumps hflow⟩
          exact List.mem_cons_of_mem _
            (List.mem_cons_of_mem _ (List.mem_cons_of_mem _ (List.mem_of_getElem? hlabel)))
        · cases h
    · cases h
      cases hflow
    · cases h
  all_goals exact absurd hop (by decide)

theorem label_of_goto {instr : IRInstruction} {fr fr' : Frame} {os : List Observation}
    (h : execute E instr fr = some (os, fr', .goto l)) :
    instr.opcode ∈ branchOpcodes ∧ ∃ id, .label id ∈ instr.operands ∧
      E.program.strings.nameOf id = l := by
  by_cases hop : instr.opcode = .returnOp
  · cases (execute_return h hop).2.2
  · obtain ⟨e, hdenote, hfinish⟩ := execute_finish h hop
    obtain ⟨hbranch, id, hmem, hname⟩ := label_of_denote hdenote (congrArg (fun out => out.2.2) hfinish)
    exact ⟨hbranch, id, mem_of_mem_args 0 hmem, hname⟩

end Goto

end Optimizer
