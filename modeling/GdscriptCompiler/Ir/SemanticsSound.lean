import GdscriptCompiler.Ir.InterpreterSteps
import GdscriptCompiler.Ir.Semantics

/-! # SemanticsSound — the machine is the interpreter -/

namespace Ir

open Lib

/-! ## 1. Frames of contexts -/

def Context.frame (ctx : Context) : Frame where
  registers := ctx.registers
  globals := ctx.globals

def Context.withFrame (ctx : Context) (fr : Frame) (log : List Event) : Context :=
  { ctx with registers := fr.registers, globals := fr.globals, log }

namespace Frame

variable (fr : Frame) (rs rs' : List Int)

@[simp] theorem touch_value : (fr.touch rs).value = fr.value := by
  funext r
  unfold touch value
  dsimp only
  split <;> rfl

@[simp] theorem touch_nil : fr.touch [] = fr := by
  unfold touch
  simp

@[simp] theorem touch_touch : (fr.touch rs).touch rs' = fr.touch (rs ++ rs') := by
  unfold touch
  congr 1
  funext r
  change (if r ∈ rs' then some ((fr.touch rs).value r) else if r ∈ rs then _ else _) = _
  rw [touch_value]
  by_cases h : r ∈ rs <;> by_cases h' : r ∈ rs' <;> simp [h, h']

variable {fr} {r : Int}

theorem touch_of_present {v : Value} (h : fr.registers r = some v) : fr.touch [r] = fr := by
  unfold touch
  congr 1
  funext r'
  by_cases hr : r' = r
  · subst hr
    simp [value, h]
  · simp [hr]

theorem touch_of_missing (h : fr.registers r = none) : fr.touch [r] = fr.assign r .nil := by
  unfold touch assign
  congr 1
  funext r'
  by_cases hr : r' = r
  · subst hr
    simp [value, h]
  · simp [hr]

end Frame

section Contexts

variable (ctx : Context) (fr fr' : Frame) (log log' : List Event)

theorem getRegister_eq (r : Int) :
    getRegister r ctx = (.ok (ctx.frame.value r),
        ctx.withFrame (ctx.frame.touch [r]) (.read r :: ctx.log)) := by
  unfold getRegister
  cases h : ctx.registers r with
  | some v =>
    rw [Frame.touch_of_present (show ctx.frame.registers r = some v from h),
      show ctx.frame.value r = v by simp [Frame.value, Context.frame, h]]
    rfl
  | none =>
    rw [Frame.touch_of_missing (show ctx.frame.registers r = none from h),
      show ctx.frame.value r = .nil by simp [Frame.value, Context.frame, h]]
    rfl

/-- The context when an instruction begun at `ctx` has read `rs` and left `globals`. -/
def Context.after (rs : List Int) (globals : List Value) : Context :=
  ctx.withFrame { ctx.frame.touch rs with globals } (rs.reverse.map .read ++ ctx.log)

theorem after_nil : ctx.after [] ctx.globals = ctx := by
  unfold Context.after
  rw [Frame.touch_nil]
  rfl

theorem getRegister_after (rs : List Int) (globals : List Value) (r : Int) :
    getRegister r (ctx.after rs globals) =
      (.ok (ctx.frame.value r), ctx.after (rs ++ [r]) globals) := by
  have hvalue : (ctx.after rs globals).frame.value = ctx.frame.value := Frame.touch_value ctx.frame rs
  have htouch : (ctx.after rs globals).frame.touch
    [r] = { ctx.frame.touch (rs ++ [r]) with globals } := by
    rw [← Frame.touch_touch]
    rfl
  rw [getRegister_eq, hvalue, htouch]
  simp [Context.after, Context.withFrame]

theorem getRegister_first (r : Int) :
    getRegister r ctx = (.ok (ctx.frame.value r), ctx.after [r] ctx.globals) := by
  have h := getRegister_after ctx [] ctx.globals r
  rwa [after_nil] at h

end Contexts

/-- The interpreter's outcome beside the machine's. -/
inductive Ran (strings : StringTable) (f : IRFunction) (ctx : Context) :
    Except Fault Unit × Context → Option (List Observation × Frame × Exit String Value) → Prop
  | fault {e : Fault} {ctx' : Context} : Ran strings f ctx (.error e, ctx') none
  | next {os : List Observation} (fr : Frame) (log : List Event) :
      Ran strings f ctx (.ok (), ctx.withFrame fr log) (some (os, fr, .next))
  | goto {os : List Observation} {l : String} {t : Nat} (fr : Frame) (log : List Event)
      (h : f.runLabels strings l = some t) :
      Ran strings f ctx (.ok (), { ctx.withFrame fr log with pc := t }) (some (os, fr, .goto l))
  | lost {e : Fault} {ctx' : Context} {fr : Frame} {os : List Observation} {l : String}
      (h : f.runLabels strings l = none) : Ran strings f ctx (.error e, ctx') (some (os, fr, .goto l))
  | ret {os : List Observation} (fr : Frame) (log : List Event) (v : Value) :
      Ran strings f ctx (.ok (), { ctx.withFrame fr log with returned := true, returnValue := v })
        (some (os, fr, .ret v))

section Helpers

variable {strings : StringTable} {f : IRFunction} {ctx : Context} {instr : IRInstruction} {E : Env}

/-! ## 2. How an instruction ends -/

/-- What the interpreter makes of `instr`: the machine's outcome, and only events the instruction
may have. -/
structure Performs (strings : StringTable) (f : IRFunction) (instr : IRInstruction) (ctx : Context)
    (out : Except Fault Unit × Context)
    (spec : Option (List Observation × Frame × Exit String Value)) : Prop where
  ran : Ran strings f ctx out spec
  stepped : ∃ new, Stepped strings f instr ctx out new

/-- The instruction reads `rs`, all of them registers the table lists. -/
structure Consults (strings : StringTable) (instr : IRInstruction) (ctx : Context) (rs : List Int) :
    Prop where
  touched : instr.touched ctx.frame.value = rs
  legal : ∀ r ∈ rs, EventOf strings instr ctx (.read r)

/-- Besides, it has the destination `dst`. -/
structure Writes (strings : StringTable) (instr : IRInstruction) (ctx : Context) (dst : Int)
    (rs : List Int) : Prop
    extends Consults strings instr ctx rs where
  destination : instr.destinationRegister = dst
  named : .reg dst ∈ instr.operands
  plain : plain instr.opcode = true

/-- Or it has none, and may leave for a label. -/
structure Branches (strings : StringTable) (instr : IRInstruction) (ctx : Context) (rs : List Int) :
    Prop
    extends Consults strings instr ctx rs where
  branches : branches instr.opcode = true

variable {dst : Int}

section Ends

variable {rs : List Int} {g : List Value} {o : List Observation}

theorem after_registers {r : Int} (h : (ctx.after rs g).registers r ≠ none) :
    ctx.registers r ≠ none ∨ .read r ∈ rs.reverse.map Event.read := by
  by_cases hr : r ∈ rs
  · exact .inr (List.mem_map_of_mem (List.mem_reverse.mpr hr))
  · left
    change (if r ∈ rs then _ else ctx.registers r) ≠ none at h
    rwa [if_neg hr] at h

theorem legal_events (h : ∀ r ∈ rs, EventOf strings instr ctx (.read r)) :
    ∀ event ∈ rs.reverse.map Event.read, EventOf strings instr ctx event := by
  intro event hevent
  obtain ⟨r, hr, rfl⟩ := List.mem_map.mp hevent
  exact h r (List.mem_reverse.mp hr)

theorem performs_fault {e : Fault} (h : ∀ r ∈ rs, EventOf strings instr ctx (.read r)) :
    Performs strings f instr ctx (.error e, ctx.after rs g) none where
  ran := .fault
  stepped := by
    refine ⟨_, rfl, fun r hr => (after_registers hr).imp_right .inl, legal_events h, fun hok => ?_⟩
    cases hok

theorem Writes.performs (h : Writes strings instr ctx dst rs) (v : Value) :
    Performs strings f instr ctx (setRegister dst v (ctx.after rs g))
      (some (instr.finish ctx.frame { observed := o, result := some v, globals := g })) where
  ran := by
    unfold IRInstruction.finish
    rw [h.touched, h.destination]
    exact .next ({ ctx.frame.touch rs with globals := g }.assign dst v) (.write dst ::
      (rs.reverse.map .read ++ ctx.log))
  stepped := by
    have hplain := h.plain
    simp only [Ir.plain, Bool.and_eq_true, decide_eq_true_eq] at hplain
    refine ⟨.write dst :: rs.reverse.map .read, rfl, fun r hr => ?_, ?_, fun _ => ⟨?_, ?_, ?_, ?_⟩⟩
    · by_cases hdst : r = dst
      · rw [hdst]
        exact .inr (.inr List.mem_cons_self)
      · change (if r = dst then _ else (ctx.after rs g).registers r) ≠ none at hr
        rw [if_neg hdst] at hr
        exact (after_registers hr).imp_right fun hread => .inl (List.mem_cons_of_mem _ hread)
    · exact List.forall_mem_cons.mpr ⟨⟨h.named, h.destination.symm⟩, legal_events h.legal⟩
    · rw [h.destination]
      exact fun _ => List.mem_cons_self
    · exact fun hmark => absurd hmark hplain.1.1
    · exact .inl ⟨rfl, hplain.1.2⟩
    · exact ⟨.inl, fun hor => hor.resolve_right hplain.2⟩

-- nothing to write, the program counter stays
theorem Consults.performs (h : Consults strings instr ctx rs) (hplain : plain instr.opcode = true)
    (hindex : IRInstruction.destinationOperandIndex instr.opcode = -1) :
    Performs strings f instr ctx (.ok (), ctx.after rs g)
      (some (instr.finish ctx.frame { observed := o, globals := g })) where
  ran := by
    unfold IRInstruction.finish
    rw [h.touched]
    exact .next _ _
  stepped := by
    simp only [plain, Bool.and_eq_true, decide_eq_true_eq] at hplain
    refine ⟨_, rfl, fun r hr => (after_registers hr).imp_right .inl, legal_events h.legal,
      fun _ => ⟨?_, ?_, ?_, ?_⟩⟩
    · rw [no_destination hindex]
      intro hpos
      omega
    · exact fun hmark => absurd hmark hplain.1.1
    · exact .inl ⟨rfl, hplain.1.2⟩
    · exact ⟨.inl, fun hor => hor.resolve_right hplain.2⟩

theorem Consults.jumps (h : Consults strings instr ctx rs) (hscope : instr.opcode ≠ .scopeMark)
    (hret : instr.opcode ≠ .returnOp) (hlabel : hasEffect instr.opcode .label = false)
    (hindex : IRInstruction.destinationOperandIndex instr.opcode = -1) {id : Nat}
    (hid : .label id ∈ instr.operands) (op : Opcode) :
    Performs strings f instr ctx (jumpToLabel strings f op (strings.nameOf id) (ctx.after rs g))
      (some (instr.finish ctx.frame
        { observed := o, globals := g, flow := .goto (strings.nameOf id) })) := by
  have hname : strings.nameOf id ∈ instr.labelTargets (some strings) := mem_labelTargets hlabel hid
  have hevents : ∀ event ∈ Event.jump (strings.nameOf id) :: rs.reverse.map .read,
    EventOf strings instr ctx event :=
    List.forall_mem_cons.mpr ⟨hname, legal_events h.legal⟩
  have hregisters : ∀ r, (ctx.after rs g).registers r ≠ none → ctx.registers r ≠ none ∨
      .read r ∈ Event.jump (strings.nameOf id) :: rs.reverse.map .read ∨
        .write r ∈ Event.jump (strings.nameOf id) :: rs.reverse.map .read := fun r hr =>
    (after_registers hr).imp_right fun hread => .inl (List.mem_cons_of_mem _ hread)
  unfold IRInstruction.finish jumpToLabel
  rw [h.touched]
  cases htarget : f.runLabels strings (strings.nameOf id) with
  | none =>
    refine ⟨.lost htarget, _, rfl, hregisters, hevents, fun hok => ?_⟩
    cases hok
  | some target =>
    refine ⟨.goto { ctx.frame.touch rs with globals := g } (.jump (strings.nameOf id) ::
      (rs.reverse.map .read ++ ctx.log))
      htarget, _, rfl, hregisters, hevents, fun _ => ⟨?_, ?_, ?_, ?_⟩⟩
    · rw [no_destination hindex]
      intro hpos
      omega
    · exact fun hmark => absurd hmark hscope
    · exact .inr ⟨_, hname, htarget⟩
    · exact ⟨.inl, fun hor => hor.resolve_right hret⟩

theorem Branches.through (h : Branches strings instr ctx rs) :
    Performs strings f instr ctx (.ok (), ctx.after rs g)
      (some (instr.finish ctx.frame { observed := o, globals := g })) := by
  obtain ⟨hplain, -, hindex⟩ := branches_iff h.branches
  exact h.performs hplain hindex

theorem Branches.performs (h : Branches strings instr ctx rs)
    (hstrings : E.program.strings = strings) (taken : Bool) {id : Nat}
    (hid : .label id ∈ instr.operands) (op : Opcode) :
    Performs strings f instr ctx
      ((if taken = true then jumpToLabel strings f op (strings.nameOf id) else pure () : Exec Unit)
          (ctx.after rs g))
      (some (instr.finish ctx.frame (jumps E g taken id))) := by
  cases taken with
  | false => exact h.through
  | true =>
    obtain ⟨hplain, hlabel, hindex⟩ := branches_iff h.branches
    simp only [plain, Bool.and_eq_true, decide_eq_true_eq] at hplain
    unfold Ir.jumps
    rw [if_pos rfl, if_pos rfl, hstrings]
    exact h.jumps hplain.1.1 hplain.2 hlabel hindex hid op

end Ends

variable {rs : List Int}

theorem Writes.settles (h : Writes strings instr ctx dst rs) (x : Except Fault Value) :
    Performs strings f instr ctx ((ofExcept x >>= setRegister dst : Exec Unit)
        (ctx.after rs ctx.globals))
      ((yields ctx.frame.globals x).map (instr.finish ctx.frame)) := by
  cases x with
  | error e =>
    rw [exec_bind_error (ofExcept_apply _ _)]
    exact performs_fault h.legal
  | ok v =>
    rw [exec_bind_ok (ofExcept_apply _ _)]
    exact h.performs v

/-! ## 3. Straight-line instructions -/

variable {rest : List IRValue}

theorem unary_performs {src : Int} (op : Value → Except Fault Value)
    (hops : instr.operands = .reg dst :: .reg src :: rest)
    (h : Writes strings instr ctx dst [src]) :
    Performs strings f instr ctx (unary instr op ctx)
      ((yields ctx.frame.globals (op (ctx.frame.value src))).map (instr.finish ctx.frame)) := by
  unfold unary
  rw [hops]
  dsimp only
  rw [exec_bind_ok (getRegister_first ctx src)]
  exact h.settles _

theorem constant_performs (v : Value) (h : Writes strings instr ctx dst []) :
    Performs strings f instr ctx (setRegister dst v ctx)
      (some (instr.finish ctx.frame { result := some v, globals := ctx.frame.globals })) := by
  rw [← after_nil ctx]
  exact h.performs v

theorem raise_performs (e : Fault) : Performs strings f instr ctx (.error e, ctx) none := by
  have h : Performs strings f instr ctx (.error e, ctx.after [] ctx.globals) none :=
    performs_fault (List.forall_mem_nil _)
  rwa [after_nil] at h

theorem storeGlobal_performs {index : Int64} {src : Int} {program : IRProgram}
    {table : GlobalFunctions} {call : Callee} (hop : instr.opcode = .storeGlobal)
    (hops : instr.operands = [.imm index, .reg src]) (h : Consults strings instr ctx [src]) :
    Performs strings f instr ctx (executeInstruction program table call f instr ctx)
      ((denoteStore ctx.frame.globals [.imm index, .val (ctx.frame.value src)]).map
          (instr.finish ctx.frame)) := by
  unfold executeInstruction denoteStore
  rw [hop, hops]
  dsimp only
  rw [exec_bind_ok (getGlobals_apply ctx)]
  change Performs strings f instr ctx
    ((if index < 0 ∨ index.toInt.toNat ≥ ctx.frame.globals.length then _ else _ : Exec Unit) ctx) _
  split
  · exact raise_performs _
  · rw [exec_bind_ok (getRegister_first ctx src), setGlobals_apply]
    exact h.performs (by rw [hop]; decide) (by rw [hop]; decide)

/-! ## 4. Branches -/

variable {count : Int64}

theorem switchOn_performs {r : Int} {base : Int64} {ids : List Nat}
    (hstrings : E.program.strings = strings)
    (hops : instr.operands = .reg r :: .imm base :: .imm count :: ids.map .label)
    (hcount : 0 ≤ count.toInt ∧ count.toInt.toNat ≤ ids.length)
    (h : Branches strings instr ctx [r]) :
    Performs strings f instr ctx (switchOn strings f instr ctx) ((denoteSwitch E ctx.frame.globals
        (.val (ctx.frame.value r) :: .imm base :: .imm count :: ids.map .label)).map
          (instr.finish ctx.frame)) := by
  have hthrough : Performs strings f instr ctx _ _ := h.through (f := f) (g := ctx.globals) (o := [])
  unfold switchOn
  rw [hops]
  dsimp only
  rw [exec_bind_ok (getRegister_first ctx r)]
  cases ctx.frame.value r with
  | int value =>
    unfold denoteSwitch
    dsimp only
    split
    · exact hthrough
    · rename_i hrange
      -- the declared count is the number of labels, so the table has the entry
      have hentry := switch_entry_lt hcount.1 (fun h => hrange (.inl h)) (fun h => hrange (.inr h))
      have hlt : (value - base).toInt.toNat < ids.length := by omega
      rw [List.getElem?_map, List.getElem?_map, List.getElem?_eq_getElem hlt]
      refine h.performs hstrings true ?_ instr.opcode
      rw [hops]
      exact List.mem_append_right [_, _, _] (List.mem_map_of_mem (List.getElem_mem hlt))
  | nil => exact hthrough
  | float d => exact hthrough
  | string t => exact hthrough
  | bool b => exact hthrough

/-! ## 5. Calls -/

theorem readOperands_after (ctx : Context) (rs' rs : List Int) (globals : List Value) :
    ((rs'.map IRValue.reg).mapM readOperand : Exec _) (ctx.after rs globals) =
      (.ok (rs'.map ctx.frame.value), ctx.after (rs ++ rs') globals) := by
  induction rs' generalizing rs with
  | nil =>
    rw [List.append_nil]
    rfl
  | cons r rs' ih =>
    have hrest := ih (rs ++ [r])
    rw [List.append_assoc, List.singleton_append] at hrest
    rw [List.map_cons, List.mapM_cons,
      exec_bind_ok (show readOperand (.reg r) _ = _ from getRegister_after ctx rs globals r),
        exec_bind_ok hrest]
    rfl

theorem mapM_value? (vs : List Value) : (vs.map Arg.val).mapM Arg.value? = some vs := by
  induction vs with
  | nil => rfl
  | cons v vs ih => simp [Arg.value?, ih]

theorem argumentRegisters_map (count : Int64) (rs : List Int) :
    argumentRegisters count (rs.map .reg) = rs.take count.toInt32.toInt.toNat := by
  unfold argumentRegisters
  rw [← List.map_take, List.filterMap_map]
  exact List.filterMap_some

theorem readArguments_eq (ctx : Context) (hcount : count.toInt32.toInt.toNat ≤ rs.length) :
    readArguments count (rs.map .reg) ctx =
      (.ok ((argumentRegisters count (rs.map .reg)).map ctx.frame.value),
          ctx.after (argumentRegisters count (rs.map .reg)) ctx.globals) ∧
      argumentValues count (rs.map fun r => .val (ctx.frame.value r)) =
        some ((argumentRegisters count (rs.map .reg)).map ctx.frame.value) := by
  rw [argumentRegisters_map]
  unfold readArguments argumentValues
  rw [List.length_map, List.length_map]
  dsimp only
  rw [if_neg (by omega), if_neg (by omega), ← List.map_take, ← List.map_take]
  have hread := readOperands_after ctx (rs.take count.toInt32.toInt.toNat) [] ctx.globals
  rw [after_nil] at hread
  refine ⟨hread, ?_⟩
  rw [← mapM_value? ((rs.take count.toInt32.toInt.toNat).map ctx.frame.value), List.map_map]
  rfl

section

variable (hcount : count.toInt32.toInt.toNat ≤ rs.length)
  (h : Writes strings instr ctx dst (argumentRegisters count (rs.map .reg)))
include hcount h

theorem callFunction_performs {name : Nat}
    (hops : instr.operands = .str name :: .reg dst :: .imm count :: rs.map .reg) :
    Performs strings f instr ctx (callFunction E.program E.call instr ctx)
      ((denoteCall E ctx.frame.globals
        (.str name :: .hole :: .imm count :: rs.map fun r => .val (ctx.frame.value r))).map
          (instr.finish ctx.frame)) := by
  obtain ⟨hread, hvalues⟩ := readArguments_eq ctx hcount
  unfold callFunction denoteCall
  rw [hops]
  dsimp only
  rw [exec_bind_ok hread, hvalues]
  generalize (argumentRegisters count (rs.map .reg)).map ctx.frame.value = vs
  change Performs strings f instr ctx _ (Option.map (instr.finish ctx.frame) (if _ then none else _))
  split
  · exact performs_fault h.legal
  · rw [exec_bind_ok (getGlobals_apply _)]
    change Performs strings f instr ctx ((do
      setGlobals (E.call (E.program.strings.nameOf name) vs ctx.frame.globals).2
      setRegister dst (← ofExcept (E.call (E.program.strings.nameOf name) vs ctx.frame.globals).1) :
        Exec Unit) _) _
    generalize E.call (E.program.strings.nameOf name) vs ctx.frame.globals = outcome
    obtain ⟨result, globals⟩ := outcome
    rw [exec_bind_ok (setGlobals_apply _ _)]
    cases result with
    | error e =>
      rw [exec_bind_error (ofExcept_apply _ _)]
      exact performs_fault (g := globals) h.legal
    | ok v =>
      rw [exec_bind_ok (ofExcept_apply _ _)]
      exact h.performs (g := globals) v

theorem globalCall_performs {fn flag : Int64} (hname : f.name = E.name)
    (hops : instr.operands = .reg dst :: .imm fn :: .imm flag :: .imm count :: rs.map .reg) :
    Performs strings f instr ctx (globalCall E.table f instr ctx)
      ((denoteGlobalCall E ctx.frame.globals
        (.hole :: .imm fn :: .imm flag :: .imm count ::
          rs.map fun r => .val (ctx.frame.value r))).map
          (instr.finish ctx.frame)) := by
  obtain ⟨hread, hvalues⟩ := readArguments_eq ctx hcount
  have heval (vs : List Value) : evalGlobal E.table f fn vs = evalGlobal E.table E.function fn vs := by
    unfold evalGlobal Env.function
    rw [hname]
  unfold globalCall denoteGlobalCall
  rw [hops]
  dsimp only
  rw [exec_bind_ok hread, hvalues, heval]
  exact h.settles _

end

/-! ## 6. Rows of the opcode table -/

theorem touched_eq (h : instr.opcode ∉ [.returnOp, .and, .or, .call, .globalCall])
    (value : Int → Value) :
    instr.touched value = instr.collectReadRegisters := by
  unfold IRInstruction.touched
  split <;> simp_all

theorem isVariadic_srcList (fixed : List OperandKind) :
    isVariadic (fixed ++ [.srcList]) = true := by
  unfold isVariadic
  rw [List.getLast?_concat]

-- the arguments of a call, and the labels of a switch
theorem argsFrom_registers (value : Int → Value) {fixed : List OperandKind} {j : Nat}
    (hj : fixed.length ≤ j) (rs : List Int) :
    argsFrom value (fixed ++ [.srcList]) j (rs.map .reg) = rs.map fun r => .val (value r) := by
  induction rs generalizing j with
  | nil => rfl
  | cons r rs ih =>
    rw [List.map_cons, List.map_cons, argsFrom, ih (Nat.le_succ_of_le hj), Arg.ofOperand,
      kindAt_tail (isVariadic_srcList fixed) hj]
    rfl

theorem argsFrom_labels (value : Int → Value) (signature : List OperandKind) (j : Nat)
    (ids : List Nat) :
    argsFrom value signature j (ids.map .label) = ids.map .label := by
  induction ids generalizing j with
  | nil => rfl
  | cons id ids ih =>
    rw [List.map_cons, List.map_cons, argsFrom, ih]
    rfl

section

variable (hfits : Fits instr)
include hfits

theorem Fits.counts {kind : OperandKind} (fixed : List OperandKind)
    (first rest : List IRValue) (hsig : instr.signature = fixed ++ [.cnt] ++ [kind])
    (hvariadic : isVariadic (fixed ++ [.cnt] ++ [kind]) = true)
    (hops : instr.operands = first ++ .imm count :: rest) (hlen : first.length = fixed.length) :
    0 ≤ count.toInt ∧ count.toInt.toNat ≤ rest.length := by
  have hfixed : fixedCount instr.signature = fixed.length + 1 := by
    unfold fixedCount
    rw [hsig, if_pos hvariadic]
    simp
  obtain ⟨hcount, hcounted⟩ := hfits.count (j := fixed.length) (by omega)
    (by rw [hsig, List.getD_eq_getElem?_getD]; simp)
    (show instr.operands[fixed.length]? = some (.imm count) by rw [hops, ← hlen]; simp)
  rw [hops, hfixed, List.length_append, List.length_cons] at hcounted
  have hlt := count.toInt_lt
  exact ⟨hcount, by omega⟩

theorem Fits.arguments (fixed : List OperandKind) (first : List IRValue)
    (hsig : instr.signature = fixed ++ [.cnt] ++ [.srcList])
    (hops : instr.operands = first ++ .imm count :: rs.map .reg)
    (hlen : first.length = fixed.length) :
    count.toInt32.toInt.toNat ≤ rs.length ∧
      ∀ r ∈ argumentRegisters count (rs.map .reg), r ∈ instr.collectReadRegisters := by
  have hvariadic := isVariadic_srcList (fixed ++ [.cnt])
  obtain ⟨hcount, hrest⟩ := hfits.counts fixed first _ hsig hvariadic hops hlen
  have hnarrow := narrow_le hcount
  rw [List.length_map] at hrest
  refine ⟨by omega, fun r hr => ?_⟩
  rw [argumentRegisters_map] at hr
  obtain ⟨j, hj⟩ := List.mem_iff_getElem?.mp (List.mem_of_mem_take hr)
  have hat : instr.operands[fixed.length + 1 + j]? = some (.reg r) := by
    rw [hops, List.getElem?_append_right (by omega), hlen,
      show fixed.length + 1 + j - fixed.length = j + 1 by omega, List.getElem?_cons_succ,
        List.getElem?_map, hj]
    rfl
  refine listed_of_operand ?_ hat ?_
  · unfold IRInstruction.isBareReturn
    rw [hops]
    simp
  · rw [hsig, kindAt_tail hvariadic (by simp)]
    decide

theorem Fits.call (hop : instr.opcode = .call) :
    ∃ name dst count, ∃ rs : List Int,
      instr.operands = .str name :: .reg dst :: .imm count :: rs.map .reg ∧
      instr.destinationRegister = dst ∧ count.toInt32.toInt.toNat ≤ rs.length ∧
      (∀ r ∈ argumentRegisters count (rs.map .reg), r ∈ instr.collectReadRegisters) ∧
      ∀ value, instr.args value =
        .str name :: .hole :: .imm count :: rs.map fun r => .val (value r) := by
  have hsig : instr.signature = [.str, .dst, .cnt] ++ [.srcList] := signature_of hop
  obtain ⟨first, rest, hops, hfirst⟩ := hfits.row [.str, .dst, .cnt] (by rw [hop]; decide)
  obtain _ | ⟨hname, _ | ⟨hreg, _ | ⟨hcnt, _ | _⟩⟩⟩ := hfirst
  obtain ⟨name, rfl⟩ := exists_str hname
  obtain ⟨dst, rfl⟩ := exists_reg (.inl rfl) hreg
  obtain ⟨count, rfl⟩ := exists_imm (.inr (.inl rfl)) hcnt
  have htail := hfits.tail hsig (by decide)
  rw [hops] at htail
  obtain ⟨rs, rfl⟩ := exists_registers htail
  obtain ⟨hcount, hlisted⟩ := hfits.arguments [.str, .dst] [.str name, .reg dst] hsig hops rfl
  refine ⟨name, dst, count, rs, hops, destination_of_index (j := 1) (by rw [hop]; decide)
    (by rw [hops]; rfl), hcount, hlisted, fun value => ?_⟩
  rw [IRInstruction.args, hops, hsig]
  exact congrArg ([.str name, .hole, .imm count] ++ ·)
    (argsFrom_registers value (Nat.le_refl [OperandKind.str, .dst, .cnt].length) rs)

theorem Fits.globalCall (hop : instr.opcode = .globalCall) :
    ∃ dst fn flag count, ∃ rs : List Int,
      instr.operands = .reg dst :: .imm fn :: .imm flag :: .imm count :: rs.map .reg ∧
      instr.destinationRegister = dst ∧ count.toInt32.toInt.toNat ≤ rs.length ∧
      (∀ r ∈ argumentRegisters count (rs.map .reg), r ∈ instr.collectReadRegisters) ∧
        ∀ value, instr.args value =
        .hole :: .imm fn :: .imm flag :: .imm count :: rs.map fun r => .val (value r) := by
  have hsig : instr.signature = [.dst, .imm, .imm, .cnt] ++ [.srcList] := signature_of hop
  obtain ⟨first, rest, hops, hfirst⟩ := hfits.row [.dst, .imm, .imm, .cnt] (by rw [hop]; decide)
  obtain _ | ⟨hreg, _ | ⟨hfn, _ | ⟨hflag, _ | ⟨hcnt, _ | _⟩⟩⟩⟩ := hfirst
  obtain ⟨dst, rfl⟩ := exists_reg (.inl rfl) hreg
  obtain ⟨fn, rfl⟩ := exists_imm (.inl rfl) hfn
  obtain ⟨flag, rfl⟩ := exists_imm (.inl rfl) hflag
  obtain ⟨count, rfl⟩ := exists_imm (.inr (.inl rfl)) hcnt
  have htail := hfits.tail hsig (by decide)
  rw [hops] at htail
  obtain ⟨rs, rfl⟩ := exists_registers htail
  obtain ⟨hcount, hlisted⟩ := hfits.arguments [.dst, .imm, .imm] [.reg dst, .imm fn, .imm flag]
    hsig hops rfl
  refine ⟨dst, fn, flag, count, rs, hops, destination_first hsig (by rw [hsig]; decide) hops,
    hcount, hlisted, fun value => ?_⟩
  rw [IRInstruction.args, hops, hsig]
  exact congrArg ([.hole, .imm fn, .imm flag, .imm count] ++ ·)
    (argsFrom_registers value (Nat.le_refl [OperandKind.dst, .imm, .imm, .cnt].length) rs)

theorem Fits.switch (hop : instr.opcode = .switch) :
    ∃ r base count, ∃ ids : List Nat,
      instr.operands = .reg r :: .imm base :: .imm count :: ids.map .label ∧
      (0 ≤ count.toInt ∧ count.toInt.toNat ≤ ids.length) ∧ instr.collectReadRegisters = [r] ∧
      ∀ value, instr.args value = .val (value r) :: .imm base :: .imm count :: ids.map .label := by
  have hsig : instr.signature = [.src, .imm, .cnt] ++ [.lblList] := signature_of hop
  obtain ⟨first, rest, hops, hfirst⟩ := hfits.row [.src, .imm, .cnt] (by rw [hop]; decide)
  obtain _ | ⟨hreg, _ | ⟨hbase, _ | ⟨hcnt, _ | _⟩⟩⟩ := hfirst
  obtain ⟨r, rfl⟩ := exists_src hreg
  obtain ⟨base, rfl⟩ := exists_imm (.inl rfl) hbase
  obtain ⟨count, rfl⟩ := exists_imm (.inr (.inl rfl)) hcnt
  have htail := hfits.tail hsig (by decide)
  rw [hops] at htail
  obtain ⟨ids, rfl⟩ := exists_labels htail
  have hcount := hfits.counts [.src, .imm] [.reg r, .imm base] (ids.map .label) hsig (by decide) hops rfl
  rw [List.length_map] at hcount
  have hreads : instr.collectReadRegisters = [r] := by
    simp only [IRInstruction.collectReadRegisters, IRInstruction.isBareReturn,
      IRInstruction.readsOperand,
      hops, hop, hsig, List.cons_append, List.nil_append, List.zipIdx_cons, List.filterMap_cons]
    simp [List.zipIdx_map, List.filterMap_map, kindAt, fixedCount, isVariadic]
  refine ⟨r, base, count, ids, hops, hcount, hreads, fun value => ?_⟩
  rw [IRInstruction.args, hops, hsig]
  simp only [List.cons_append, List.nil_append, argsFrom]
  rw [argsFrom_labels]
  rfl

theorem touched_subset (value : Int → Value) {r : Int} (hr : r ∈ instr.touched value) :
    r ∈ instr.collectReadRegisters := by
  by_cases hop : instr.opcode ∈ [.returnOp, .and, .or, .call, .globalCall]
  · simp only [List.mem_cons, List.not_mem_nil, or_false] at hop
    unfold IRInstruction.touched at hr
    rcases hop with hop | hop | hop | hop | hop
    · rw [hop] at hr
      cases hr
    iterate 2
      · obtain ⟨dst, src1, src2, hops⟩ := hfits.dst_src_src (signature_of hop)
        rw [collectReadRegisters_eq (signature_of hop) hops]
        change r ∈ [src1, src2]
        rw [hop, hops] at hr
        dsimp only at hr
        split at hr <;> simp_all
    · obtain ⟨name, dst, count, rs, hops, -, -, hlisted, -⟩ := hfits.call hop
      rw [hop, hops] at hr
      exact hlisted r hr
    · obtain ⟨dst, fn, flag, count, rs, hops, -, -, hlisted, -⟩ := hfits.globalCall hop
      rw [hop, hops] at hr
      exact hlisted r hr
  · rw [touched_eq hop] at hr
    exact hr

end

section Rows

variable (hfits : Fits instr)
include hfits

variable {first : IRValue}

theorem Fits.consults (hops : instr.operands = first :: rest)
    (htouched : instr.touched ctx.frame.value = rs) :
    Consults strings instr ctx rs := by
  refine ⟨htouched, fun r hr => ⟨touched_subset hfits _ (htouched ▸ hr), fun hbare => ?_⟩⟩
  rw [not_bareReturn hops] at hbare
  cases hbare

variable {kinds : List OperandKind}

theorem Fits.writes (hplain : plain instr.opcode = true) (hsig : instr.signature = .dst :: kinds)
    (hfixed : 0 < fixedCount (.dst :: kinds)) (hops : instr.operands = .reg dst :: rest)
    (htouched : instr.touched ctx.frame.value = rs) :
    Writes strings instr ctx dst rs where
  toConsults := hfits.consults hops htouched
  destination := destination_first hsig (by rwa [hsig]) hops
  named := by
    rw [hops]
    exact List.mem_cons_self
  plain := hplain

-- a straight-line instruction reads what the table lists, always
variable (hstraight : instr.opcode ∉ [.returnOp, .and, .or, .call, .globalCall])
include hstraight

theorem consults_row (hsig : instr.signature = signature) (hops : instr.operands = first :: rest) :
    Consults strings instr ctx (registersReadFrom signature 0 (first :: rest)) :=
  hfits.consults hops ((touched_eq hstraight _).trans (collectReadRegisters_eq hsig hops))

theorem writes_row (hplain : plain instr.opcode = true)
    (hsig : instr.signature = .dst :: kinds) (hfixed : 0 < fixedCount (.dst :: kinds))
    (hops : instr.operands = .reg dst :: rest) :
    Writes strings instr ctx dst (registersReadFrom (.dst :: kinds) 0 (.reg dst :: rest)) :=
  hfits.writes hplain hsig hfixed hops
    ((touched_eq hstraight _).trans (collectReadRegisters_eq hsig hops))

section Plain

variable (hplain : plain instr.opcode = true)
include hplain

theorem unary_row (hsig : instr.signature = [.dst, .src]) (op : Value → Except Fault Value) :
    Performs strings f instr ctx (unary instr op ctx)
      ((denoteUnary ctx.frame.globals op (instr.args ctx.frame.value)).map
          (instr.finish ctx.frame)) := by
  obtain ⟨dst, src, hops⟩ := hfits.dst_src hsig
  have hargs : instr.args ctx.frame.value = [.hole, .val (ctx.frame.value src)] := by
    rw [IRInstruction.args, hops, hsig]
    rfl
  rw [hargs]
  exact unary_performs op hops (writes_row hfits hstraight hplain hsig (by decide) hops)

variable (strings f ctx) in
theorem unary_imm_row (hsig : instr.signature = [.dst, .src, .imm])
    (op : Int64 → Value → Except Fault Value) :
    ∃ dst src v, instr.operands = [.reg dst, .reg src, .imm v] ∧
      instr.args ctx.frame.value = [.hole, .val (ctx.frame.value src), .imm v] ∧
      Performs strings f instr ctx (unary instr (op v) ctx)
        ((yields ctx.frame.globals (op v (ctx.frame.value src))).map (instr.finish ctx.frame)) := by
  obtain ⟨dst, src, v, hops⟩ := hfits.dst_src_imm hsig
  refine ⟨dst, src, v, hops, ?_,
    unary_performs (op v) hops (writes_row hfits hstraight hplain hsig (by decide) hops)⟩
  rw [IRInstruction.args, hops, hsig]
  rfl

theorem binary_row (hsig : instr.signature = [.dst, .src, .src])
    (op : Value → Value → Except Fault Value) :
    Performs strings f instr ctx (binary instr op ctx)
      ((denoteBinary ctx.frame.globals op (instr.args ctx.frame.value)).map
          (instr.finish ctx.frame)) := by
  obtain ⟨dst, src1, src2, hops⟩ := hfits.dst_src_src hsig
  have hargs : instr.args ctx.frame.value = [.hole, .val (ctx.frame.value src1),
    .val (ctx.frame.value src2)] := by
    rw [IRInstruction.args, hops, hsig]
    rfl
  rw [hargs]
  unfold binary
  rw [hops]
  dsimp only
  rw [exec_bind_ok (getRegister_first ctx src1), exec_bind_ok (getRegister_after ctx _ _ src2)]
  exact (writes_row hfits hstraight hplain hsig (by decide) hops).settles _

theorem loadFrom_row (hsig : instr.signature = [.dst, .imm]) (pool : List Value)
    (message : String) :
    Performs strings f instr ctx (loadFrom instr pool message ctx)
      ((denoteLoad ctx.frame.globals pool (instr.args ctx.frame.value)).map
          (instr.finish ctx.frame)) := by
  obtain ⟨dst, v, hops⟩ := hfits.dst_imm hsig
  have hargs : instr.args ctx.frame.value = [.hole, .imm v] := by
    rw [IRInstruction.args, hops, hsig]
    rfl
  rw [hargs]
  unfold loadFrom denoteLoad
  rw [hops]
  dsimp only
  split
  · exact raise_performs _
  · cases hv : pool[v.toInt.toNat]? with
    | none => exact raise_performs _
    | some value =>
      exact constant_performs value (writes_row hfits hstraight hplain hsig (by decide) hops)

end Plain

variable (hbranch : branches instr.opcode = true) (hstrings : E.program.strings = strings)
include hbranch hstrings

theorem branchOn_row (hsig : instr.signature = [.src, .lbl]) (taken : Bool) :
    Performs strings f instr ctx (branchOn strings f instr taken ctx)
      ((denoteBranch E ctx.frame.globals taken (instr.args ctx.frame.value)).map
          (instr.finish ctx.frame)) := by
  obtain ⟨r, id, hops⟩ := hfits.src_lbl hsig
  have hargs : instr.args ctx.frame.value = [.val (ctx.frame.value r), .label id] := by
    rw [IRInstruction.args, hops, hsig]
    rfl
  rw [hargs]
  unfold branchOn
  rw [hops]
  dsimp only
  rw [exec_bind_ok (getRegister_first ctx r)]
  have h : Branches strings instr ctx [r] := ⟨consults_row hfits hstraight hsig hops, hbranch⟩
  have hends := h.performs (f := f) (g := ctx.globals) hstrings
    (decide ((ctx.frame.value r).getBool = taken))
    (show .label id ∈ instr.operands by rw [hops]; simp) instr.opcode
  simp only [decide_eq_true_eq] at hends
  exact hends

theorem fusedBranch_row (hsig : instr.signature = [.src, .src, .lbl]) :
    Performs strings f instr ctx (fusedBranch strings f instr ctx)
      ((denoteFused E ctx.frame.globals instr.opcode (instr.args ctx.frame.value)).map
          (instr.finish ctx.frame)) := by
  obtain ⟨lhs, rhs, id, hops⟩ := hfits.src_src_lbl hsig
  have hargs : instr.args ctx.frame.value = [.val (ctx.frame.value lhs), .val (ctx.frame.value rhs),
    .label id] := by
    rw [IRInstruction.args, hops, hsig]
    rfl
  rw [hargs]
  have hends : Branches strings instr ctx [lhs, rhs] := ⟨consults_row hfits hstraight hsig hops, hbranch⟩
  unfold fusedBranch denoteFused
  rw [hops]
  dsimp only
  rw [exec_bind_ok (getRegister_first ctx lhs), exec_bind_ok (getRegister_after ctx _ _ rhs)]
  cases fusedBranchTaken (ctx.frame.value lhs) (ctx.frame.value rhs) instr.opcode with
  | error e =>
    rw [exec_bind_error (ofExcept_apply _ _)]
    exact performs_fault hends.legal
  | ok taken =>
    rw [exec_bind_ok (ofExcept_apply _ _)]
    exact hends.performs hstrings taken (by rw [hops]; simp) instr.opcode

end Rows

theorem logical_row (short : Bool) (hfits : Fits instr) (hplain : plain instr.opcode = true)
    (hsig : instr.signature = [.dst, .src, .src])
    (htouched : ∀ dst src1 src2, instr.operands = [.reg dst, .reg src1, .reg src2] →
        instr.touched ctx.frame.value = if (ctx.frame.value src1).getBool = short then [src1] else
      [src1, src2]) :
    Performs strings f instr ctx (logical instr short ctx)
      ((denoteLogical ctx.frame.globals short (instr.args ctx.frame.value)).map
          (instr.finish ctx.frame)) := by
  obtain ⟨dst, src1, src2, hops⟩ := hfits.dst_src_src hsig
  have hargs : instr.args ctx.frame.value = [.hole, .val (ctx.frame.value src1),
    .val (ctx.frame.value src2)] := by
    rw [IRInstruction.args, hops, hsig]
    rfl
  rw [hargs]
  have h : Writes strings instr ctx dst _ :=
    hfits.writes hplain hsig (by decide) hops (htouched _ _ _ hops)
  unfold logical denoteLogical denoteBinary yields
  rw [hops]
  dsimp only
  rw [exec_bind_ok (getRegister_first ctx src1)]
  by_cases hshort : (ctx.frame.value src1).getBool = short
  · rw [if_pos hshort] at h
    rw [if_pos hshort, if_pos hshort]
    exact h.performs _
  · rw [if_neg hshort] at h
    rw [if_neg hshort, exec_bind_ok (getRegister_after ctx _ _ src2), if_neg hshort]
    exact h.performs _

theorem returnFrom_performs (hop : instr.opcode = .returnOp) (hnone : instr.operands = []) :
    Performs strings f instr ctx (returnFrom ctx)
      (some ([], ctx.frame, .ret ctx.frame.returned)) := by
  have hbare : instr.isBareReturn = true := by
    unfold IRInstruction.isBareReturn
    rw [hop, hnone]
    rfl
  have hdone (new : List Event) (c : Context) (hpc : c.pc = ctx.pc) (hret : c.returned = true) :
      Completed strings f instr new ctx c := by
    refine ⟨?_, ?_, .inl ⟨hpc, by rw [hop]; decide⟩, fun _ => .inr hop, fun _ => hret⟩
    · rw [no_destination (by rw [hop]; decide)]
      intro hpos
      omega
    · rw [hop]
      intro hmark
      cases hmark
  unfold returnFrom Frame.returned
  change Performs strings f instr ctx _ (some ([], ctx.frame, .ret ((ctx.registers 0).getD (.int 0))))
  cases hr : ctx.registers 0 with
  | some v =>
    refine ⟨.ret ctx.frame (.read 0 :: ctx.log) v, [.read 0], rfl, fun r h => .inl h, ?_,
      fun _ => hdone _ _ rfl rfl⟩
    refine List.forall_mem_singleton.mpr ⟨?_, fun _ => ?_⟩
    · unfold IRInstruction.collectReadRegisters
      rw [if_pos hbare]
      exact List.mem_cons_self
    · rw [hr]
      exact Option.some_ne_none v
  | none => exact ⟨.ret ctx.frame ctx.log (.int 0), [], rfl, fun r h => .inl h, by simp,
              fun _ => hdone _ _ rfl rfl⟩

theorem scope_performs {scope : Int64} {event : Event} (hops : instr.operands = [.imm scope])
    (hsig : instr.signature = [.imm])
    (hstraight : instr.opcode ∉ [.returnOp, .jump, .and, .or, .call, .globalCall])
    (hindex : IRInstruction.destinationOperandIndex instr.opcode = -1)
    (hevent : EventOf strings instr ctx event)
    (hmark : instr.opcode = .scopeMark → event = .mark instr.scopeId) :
    Performs strings f instr ctx (note event ctx)
      (some (instr.finish ctx.frame { globals := ctx.frame.globals })) where
  ran := by
    have htouched := (touched_eq (fun h => hstraight (by simp_all)) ctx.frame.value).trans
      (collectReadRegisters_eq hsig hops)
    unfold IRInstruction.finish
    rw [htouched]
    exact .next ctx.frame (event :: ctx.log)
  stepped := by
    refine ⟨[event], rfl, fun r h => .inl h, List.forall_mem_singleton.mpr hevent,
      fun _ => ⟨?_, fun h => ?_, ?_, ?_⟩⟩
    · rw [no_destination hindex]
      intro hpos
      omega
    · rw [hmark h]
      exact List.mem_cons_self
    · exact .inl ⟨rfl, fun h => hstraight (by simp [h])⟩
    · exact ⟨.inl, fun hor => hor.resolve_right fun h => hstraight (by simp [h])⟩

end Helpers

/-! ## 7. Every opcode -/

variable {f : IRFunction} {instr : IRInstruction}

theorem executeInstruction_performs (E : Env) (hfits : Fits instr) (hname : f.name = E.name)
    (ctx : Context) :
    Performs E.program.strings f instr ctx (executeInstruction E.program E.table E.call f instr ctx)
      (execute E instr ctx.frame) := by
  have hquiet (h : Consults E.program.strings instr ctx []) (hplain : plain instr.opcode = true)
      (hindex : IRInstruction.destinationOperandIndex instr.opcode = -1) :
      Performs E.program.strings f instr ctx (.ok (), ctx)
        (some (instr.finish ctx.frame { globals := ctx.frame.globals })) := by
    have hends := h.performs (f := f) (g := ctx.globals) (o := []) hplain hindex
    rwa [after_nil] at hends
  unfold execute
  by_cases hret : instr.opcode = .returnOp
  · obtain ⟨_, hnone, ⟨⟩⟩ := hfits.exact (signature_of hret) rfl
    have hexec : executeInstruction E.program E.table E.call f instr = returnFrom := by
      unfold executeInstruction
      rw [hret]
    rw [if_pos hret, hexec]
    have h : Performs E.program.strings f instr ctx _ _ := returnFrom_performs hret hnone
    rw [hnone]
    exact h
  rw [if_neg hret]
  by_cases hstore : instr.opcode = .storeGlobal
  · have hsig : instr.signature = [.imm, .src] := signature_of hstore
    obtain ⟨index, src, hops⟩ := hfits.imm_src hsig
    rw [IRInstruction.args, hops, hsig, hstore]
    exact storeGlobal_performs hstore hops (consults_row hfits (by rw [hstore]; decide) hsig hops)
  have hconvert : convertTo instr
      = convertTo { opcode := instr.opcode, operands := [], typeHint := instr.typeHint } := rfl
  unfold executeInstruction
  cases hop : instr.opcode
  case returnOp => exact absurd hop hret
  case storeGlobal => exact absurd hop hstore
  case add | sub | mul | div | mod | bitAnd | bitOr | bitXor | shl | shr | cmpEq | cmpNeq | cmpLt
      | cmpLte | cmpGt | cmpGte =>
    exact binary_row hfits (by rw [hop]; decide) (by rw [hop]; decide) (signature_of hop) _
  case move | neg | not | bitNot | typeOf =>
    exact unary_row hfits (by rw [hop]; decide) (by rw [hop]; decide) (signature_of hop) _
  case coerce =>
    have h : Performs E.program.strings f instr ctx _ _ := unary_row hfits (by rw [hop]; decide)
      (by rw [hop]; decide) (signature_of hop) (convertTo instr)
    change Performs _ f instr ctx (unary instr (convertTo instr) ctx) _
    rw [hconvert, hop] at h ⊢
    exact h
  case loadString | loadGlobal =>
    exact loadFrom_row hfits (by rw [hop]; decide) (by rw [hop]; decide) (signature_of hop) _ _
  case branchZero | branchNotZero =>
    exact branchOn_row hfits (by rw [hop]; decide) (by rw [hop]; decide) rfl
      (signature_of hop) _
  case branchEq | branchNeq | branchLt | branchLte | branchGt | branchGte =>
    have h : Performs E.program.strings f instr ctx _ _ := fusedBranch_row (E := E) hfits
      (by rw [hop]; decide) (by rw [hop]; decide) rfl
      (signature_of hop)
    rw [hop] at h
    exact h
  case convert =>
    obtain ⟨dst, src, v, -, hargs, h⟩ := unary_imm_row E.program.strings f ctx hfits
      (by rw [hop]; decide) (by rw [hop]; decide) (signature_of hop) fun _ => convertTo instr
    change Performs _ f instr ctx (unary instr (convertTo instr) ctx) _
    rw [hargs]
    rw [hconvert, hop] at h ⊢
    exact h
  case typeTest | typeTestMask =>
    obtain ⟨dst, src, v, hops, hargs, h⟩ := unary_imm_row E.program.strings f ctx hfits
      (by rw [hop]; decide)
      (by rw [hop]; decide) (signature_of hop) fun tested v => .ok (typeTest instr.opcode tested v)
    rw [hop] at h
    rw [hops, hargs]
    exact h
  case loadImm | loadBool =>
    have hsig : instr.signature = [.dst, .imm] := signature_of hop
    obtain ⟨dst, v, hops⟩ := hfits.dst_imm hsig
    rw [IRInstruction.args, hops, hsig]
    exact constant_performs _ (writes_row hfits (by rw [hop]; decide) (by rw [hop]; decide) hsig
      (by decide) hops)
  case loadFloatImm =>
    have hsig : instr.signature = [.dst, .fimm] := signature_of hop
    obtain ⟨dst, d, hops⟩ := hfits.dst_fimm hsig
    rw [IRInstruction.args, hops, hsig]
    exact constant_performs _ (writes_row hfits (by rw [hop]; decide) (by rw [hop]; decide) hsig
      (by decide) hops)
  case loadNil =>
    have hsig : instr.signature = [.dst] := signature_of hop
    obtain ⟨dst, hops⟩ := hfits.dst hsig
    rw [IRInstruction.args, hops, hsig]
    exact constant_performs _ (writes_row hfits (by rw [hop]; decide) (by rw [hop]; decide) hsig
      (by decide) hops)
  case scopeMark | scopeRelease =>
    have hsig : instr.signature = [.imm] := signature_of hop
    obtain ⟨scope, hops⟩ := hfits.imm hsig
    have hscope : instr.scopeId = scope := by
      unfold IRInstruction.scopeId
      rw [hops]
      rfl
    rw [IRInstruction.args, hops, hsig]
    refine scope_performs hops hsig (by rw [hop]; decide) (by rw [hop]; decide) ?_ ?_
    · first
        | exact trivial
        | exact ⟨hop, hscope.symm⟩
    · rw [hop, hscope]
      simp
  case label =>
    have hsig : instr.signature = [.lbl] := signature_of hop
    obtain ⟨id, hops⟩ := hfits.lbl hsig
    rw [IRInstruction.args, hops, hsig]
    exact hquiet (consults_row hfits (by rw [hop]; decide) hsig hops) (by rw [hop]; decide)
      (by rw [hop]; decide)
  case breakpoint =>
    obtain ⟨_, hops, ⟨⟩⟩ := hfits.exact (signature_of hop) rfl
    have hnone : instr.touched ctx.frame.value = [] := by
      rw [touched_eq (by rw [hop]; decide)]
      simp [IRInstruction.collectReadRegisters, IRInstruction.isBareReturn, hop, hops]
    rw [IRInstruction.args, hops, IRInstruction.signature]
    exact hquiet ⟨hnone, List.forall_mem_nil _⟩ (by rw [hop]; decide) (by rw [hop]; decide)
  case jump =>
    have hsig : instr.signature = [.lbl] := signature_of hop
    obtain ⟨id, hops⟩ := hfits.lbl hsig
    have hnone : Consults E.program.strings instr ctx [] :=
      consults_row hfits (by rw [hop]; decide) hsig hops
    have h := hnone.jumps (f := f) (g := ctx.globals) (o := []) (by rw [hop]; decide)
      (by rw [hop]; decide)
      (by rw [hop]; decide) (by rw [hop]; decide)
      (show .label id ∈ instr.operands by rw [hops]; simp) .jump
    rw [after_nil] at h
    rw [IRInstruction.args, hops, hsig]
    exact h
  case and =>
    refine logical_row false hfits (by rw [hop]; decide) (signature_of hop)
      fun dst src1 src2 hops => ?_
    unfold IRInstruction.touched
    rw [hop, hops]
    dsimp only
    cases (ctx.frame.value src1).getBool <;> rfl
  case or =>
    refine logical_row true hfits (by rw [hop]; decide) (signature_of hop)
      fun dst src1 src2 hops => ?_
    unfold IRInstruction.touched
    rw [hop, hops]
  case switch =>
    obtain ⟨r, base, count, ids, hops, hcount, hreads, hargs⟩ := hfits.switch hop
    rw [hargs]
    exact switchOn_performs rfl hops hcount
      ⟨hfits.consults hops ((touched_eq (by rw [hop]; decide) _).trans hreads), by rw [hop]; decide⟩
  case call =>
    obtain ⟨name, dst, count, rs, hops, hdst, hcount, -, hargs⟩ := hfits.call hop
    rw [hargs]
    refine callFunction_performs hcount ⟨hfits.consults hops ?_, hdst, by rw [hops]; simp,
      by rw [hop]; decide⟩ hops
    unfold IRInstruction.touched
    rw [hop, hops]
  case globalCall =>
    obtain ⟨dst, fn, flag, count, rs, hops, hdst, hcount, -, hargs⟩ := hfits.globalCall hop
    rw [hargs]
    refine globalCall_performs hcount ⟨hfits.consults hops ?_, hdst, by rw [hops]; simp,
      by rw [hop]; decide⟩ hname hops
    unfold IRInstruction.touched
    rw [hop, hops]
  all_goals exact raise_performs _

theorem executeInstruction_ran (E : Env) (hfits : Fits instr) (hname : f.name = E.name)
    (ctx : Context) :
    Ran E.program.strings f ctx (executeInstruction E.program E.table E.call f instr ctx)
      (execute E instr ctx.frame) :=
  (executeInstruction_performs E hfits hname ctx).ran

theorem executeInstruction_stepped (program : IRProgram) (table : GlobalFunctions) (call : Callee)
    (hfits : Fits instr) (ctx : Context) :
    ∃ new, Stepped program.strings f instr ctx
      (executeInstruction program table call f instr ctx) new :=
  (executeInstruction_performs { program, table, call, name := f.name } hfits rfl ctx).stepped

end Ir
