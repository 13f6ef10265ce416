import GdscriptCompiler.Ir.Supplied
import GdscriptCompiler.Lib.Iteration

/-!
# Loops — the code of a loop around a body that is not looked into

The code of the body is one step: any function of the registers and the rest of the world that
neither reads nor writes the registers the loop keeps for itself.
-/

namespace Codegen

open Ir Lib

/-! ## 1. States and bodies -/

/-- What a body can see: the registers, the globals, and everything outside the function. -/
structure View (W : Type) where
  frame : Frame
  world : W

/-- Equal outside the registers a loop keeps for itself. -/
structure Agree {W : Type} (own : List Int) (s t : View W) : Prop where
  world : s.world = t.world
  globals : s.frame.globals = t.frame.globals
  registers : ∀ r, r ∉ own → s.frame.registers r = t.frame.registers r

/-- How the code of a body is left. -/
inductive BodyExit where
  | falls
  | continues
  | breaks
  | returns (v : Value)

def BodyExit.leave : BodyExit → Leave Value
  | falls => .again
  | continues => .again
  | breaks => .breaks
  | returns v => .returns v

/-- The frame's batch buffers and the host's scoped values. -/
structure Memory where
  -- counts the host's calls that make scoped values
  clock : Nat
  -- the clock when a scope was marked
  marks : Int64 → Option Nat
  -- the guest buffers of the batches, by their token
  buffers : Int64 → List Value
  codepoints : Int64 → List Value
  -- the host's scoped values, by index, each with the clock when it was made
  scopedValues : Int64 → Option (Nat × Value)

structure LoopBody (W : Type) (own : List Int) where
  run : View W → Option (List Observation × View W × BodyExit)
  -- what its own scopes, buffers and scoped values make of the memory
  memory : View W → Memory → Memory
  -- the code of a body names only variables and registers allocated after the loop's
  keeps : ∀ {s os s' x}, run s = some (os, s', x) → ∀ r ∈ own, s'.frame.registers r = s.frame.registers r
  blind : ∀ {s t os s' x}, Agree own s t → run s = some (os, s', x) →
    ∃ t', run t = some (os, t', x) ∧ Agree own s' t'

def LoopBody.Leaves {W : Type} {own : List Int} (B : LoopBody W own) (s : View W)
    (os : List Observation) (s' : View W) (leave : Leave Value) : Prop :=
  ∃ x, B.run s = some (os, s', x) ∧ x.leave = leave

structure LoopState (W : Type) extends View W where
  memory : Memory

def View.assign {W : Type} (s : View W) (r : Int) (v : Value) : View W :=
  { s with frame := s.frame.assign r v }

def LoopState.assign {W : Type} (s : LoopState W) (r : Int) (v : Value) : LoopState W :=
  { s with frame := s.frame.assign r v }

/-! ## 2. The host -/

/-- The host's side of the batch calls: which elements there are is a matter of the world, how many
of the rest it hands out at once is its own choice. -/
structure Host (W : Type) where
  elements : W → Value → List Value
  count : W → Nat → Nat → Nat
  count_pos : ∀ w size remaining, 0 < size → 0 < remaining → 0 < count w size remaining
  count_le : ∀ w size remaining, count w size remaining ≤ min size remaining
  -- where the scoped values of a batch start; permanent slots are negative
  first : W → Int
  first_bounds : ∀ w, -2 ^ 31 ≤ first w ∧ first w < 2 ^ 31

-- hands out as much as it may, and all arrays have the same elements
def plainHost (elements : List Value) : Host Unit where
  elements _ _ := elements
  count _ size remaining := min size remaining
  count_pos _ size remaining h h' := by omega
  count_le _ size remaining := Nat.le_refl _
  first _ := 0
  first_bounds _ := by decide

section Machine

variable {W : Type}

def Host.batch (H : Host W) (w : W) (size : Int64) (rest : List Value) : List Value :=
  rest.take (H.count w size.toInt.toNat rest.length)

-- the characters of a String as Strings, and as code points
def characters (text : String) : List Value := text.toList.map fun c => .string (String.singleton c)

def codepointsOf (text : String) : List Value := text.toList.map fun c => .int (Int64.ofNat c.toNat)

/-- `(first scoped index << 32) | count`, with a count of at most 32 bits. -/
def packBatch (first : Int) (count : Nat) : Int64 := Int64.ofInt (first * 2 ^ 32 + count)

def setAt {α : Type} (f : Int64 → α) (i : Int64) (a : α) : Int64 → α :=
  fun j => if j = i then a else f j

-- consecutive slots from `first` on
def setSlots {α : Type} (slots : Int64 → Option α) (first : Int) (values : List α) :
    Int64 → Option α :=
  fun j =>
    if first ≤ j.toInt ∧ j.toInt < first + values.length then values[(j.toInt - first).toNat]? else
      slots j

def LoopState.putBuffer (s : LoopState W) (token : Int64) (batch : List Value) : LoopState W :=
  { s with memory.buffers := setAt s.memory.buffers token batch }

def LoopState.putCodepoints (s : LoopState W) (token : Int64) (batch : List Value) : LoopState W :=
  { s with memory.codepoints := setAt s.memory.codepoints token batch }

def LoopState.putScoped (s : LoopState W) (first : Int) (batch : List Value) : LoopState W :=
  { s with
    memory.scopedValues := setSlots s.memory.scopedValues first (batch.map (s.memory.clock, ·))
    memory.clock := s.memory.clock + 1 }

def hostCall (H : Host W) (number : Int64) (args : List Arg) (s : LoopState W) :
    Option (Value × LoopState W) :=
  match args with
  | [.val container, .val (.int index), .imm size, .imm token] =>
    if number = ecallArrayBatch then
      let batch := H.batch s.world size ((H.elements s.world container).drop index.toInt.toNat)
      some (.int (Int64.ofNat batch.length), s.putBuffer token batch)
    else if number = ecallStringCodepointBatch ∧ container.isString then
      let batch := H.batch s.world size ((codepointsOf container.getString).drop index.toInt.toNat)
      some (.int (Int64.ofNat batch.length), s.putCodepoints token batch)
    else none
  | [.val container, .val (.int index), .imm size] =>
    if number = ecallStringBatch ∧ container.isString then
      let batch := H.batch s.world size ((characters container.getString).drop index.toInt.toNat)
      some (.int (packBatch (H.first s.world) batch.length), s.putScoped (H.first s.world) batch)
    else none
  | _ => none

/-! ## 3. The machine -/

inductive Slot where
  | instr (i : IRInstruction)
  | body

-- `emplace_back(opcode, operands...)`, with the type hint set afterwards
def ins (op : Opcode) (operands : List IRValue) (hint : TypeHint := typeHintNone) : Slot :=
  .instr { opcode := op, operands, typeHint := hint }

-- one value read from a batch
def readInto (dst : Int) (value : Option Value) (s : LoopState W) :
    Option (List Observation × LoopState W × Exit String Value) :=
  value.map fun v => ([], s.assign dst v, .next)

/-- An entry of `func.loops`, and what the code around its body keeps for itself. -/
structure LoopContext where
  continueLabel : String
  breakLabel : String
  scopes : List Int64
  buffers : List Int64
  codepoints : List Int64
  -- `array_batch_scopes` of the function: scopes with the buffers they own
  batchScopes : List (Int64 × Int64)

def LoopContext.owned (loop : LoopContext) (scope : Int64) : List Int64 :=
  (loop.batchScopes.filter (·.1 = scope)).map Prod.snd

def Memory.mark (memory : Memory) (scope : Int64) : Memory :=
  { memory with marks := setAt memory.marks scope (some memory.clock) }

/-- The slots of the buffers a scope owns become NIL, and the scoped values made since its mark are
gone. The registers, the globals and the other buffers are roots: what they refer to is rescued. -/
def Memory.release (memory : Memory) (owned : List Int64) (mark : Nat) : Memory :=
  { memory with
    buffers := fun token => if token ∈ owned then List.replicate 16 .nil else memory.buffers token
    scopedValues := fun i => (memory.scopedValues i).filter (·.1 < mark) }

def execSlot (E : Env) (H : Host W) (loop : LoopContext) (i : IRInstruction) (s : LoopState W) :
    Option (List Observation × LoopState W × Exit String Value) :=
  match i.opcode, i.operands with
  | .scopeMark, [.imm scope] => some ([], { s with memory := s.memory.mark scope }, .next)
  -- releasing a scope that was not marked would release every owner in the frame
  | .scopeRelease, [.imm scope] => (s.memory.marks scope).map fun mark =>
    ([], { s with memory := s.memory.release (loop.owned scope) mark }, .next)
  | .callSyscall, .reg dst :: .imm number :: args =>
    (hostCall H number (argsFrom s.frame.value i.signature 2 args) s).map fun (v, s') =>
      ([], s'.assign dst v, .next)
  | .batchGet, [.reg dst, .imm token, .reg index] =>
    readInto dst (s.memory.buffers token)[(s.frame.value index).getInt.toInt.toNat]? s
  | .codepointGet, [.reg dst, .imm token, .reg index] =>
    readInto dst (s.memory.codepoints token)[(s.frame.value index).getInt.toInt.toNat]? s
  | .makeScoped, [.reg dst, .reg index, .imm _] =>
    readInto dst ((s.memory.scopedValues (s.frame.value index).getInt).map Prod.snd) s
  | _, _ => (execute E i s.frame).map fun (os, frame, flow) => (os, { s with frame }, flow)

def BodyExit.flow (loop : LoopContext) : BodyExit → Exit String Value
  | falls => .next
  | continues => .goto loop.continueLabel
  | breaks => .goto loop.breakLabel
  | returns v => .ret v

def slotLabel (strings : StringTable) : Slot → Option String
  | .instr i => i.labelName strings
  | .body => none

def loopMachine {own : List Int} (E : Env) (H : Host W) (B : LoopBody W own) (loop : LoopContext) :
    Machine Slot (LoopState W) String Observation Value where
  labelOf := slotLabel E.program.strings
  exec
    | .instr i, s => execSlot E H loop i s
    | .body, s => (B.run s.toView).map fun (os, view, x) =>
      (os, { toView := view, memory := B.memory s.toView s.memory }, x.flow loop)

/-- What a body may do to the memory of the loop around it: it has scopes and buffers of its own,
and the scoped values it found stay where they are. -/
structure Memory.Spares (loop : LoopContext) (memory memory' : Memory) : Prop where
  marks : ∀ scope ∈ loop.scopes, memory'.marks scope = memory.marks scope
  buffers : ∀ token ∈ loop.buffers, memory'.buffers token = memory.buffers token
  codepoints : ∀ token ∈ loop.codepoints, memory'.codepoints token = memory.codepoints token
  scopedValues : ∀ i p, memory.scopedValues i = some p → memory'.scopedValues i = some p

-- scopes and buffers are numbered by counters of the function
def LoopBody.Spares {own : List Int} (B : LoopBody W own) (loop : LoopContext) : Prop :=
  ∀ s memory, Memory.Spares loop memory (B.memory s memory)

end Machine

/-! ## 4. Executing one instruction -/

variable {rs : List Int}

section Execute

variable {W : Type} {own : List Int} {E : Env} {H : Host W} {B : LoopBody W own}
  {loop : LoopContext} {t : LoopState W} {fr : Frame} {r : Int} {v : Value}

theorem value_of_held (h : fr.registers r = some v) : fr.value r = v := by
  rw [Frame.value, h]
  rfl

theorem touch_held (h : ∀ r ∈ rs, ∃ v, fr.registers r = some v) : fr.touch rs = fr := by
  refine touch_of_all_present fun r hr => ?_
  obtain ⟨v, hv⟩ := h r hr
  rw [hv]
  nofun

theorem exec_label (id : Nat) (hint : TypeHint) :
    (loopMachine E H B loop).exec (ins .label [.label id] hint) t = some ([], t, .next) := rfl

theorem exec_jump (id : Nat) (hint : TypeHint) :
    (loopMachine E H B loop).exec (ins .jump [.label id] hint) t =
      some ([], t, .goto (E.program.strings.nameOf id)) := rfl

theorem exec_load (dst : Int) (v : Int64) (hint : TypeHint) :
    (loopMachine E H B loop).exec (ins .loadImm [.reg dst, .imm v] hint) t =
      some ([], t.assign dst (.int v), .next) := rfl

theorem exec_mark (scope : Int64) :
    (loopMachine E H B loop).exec (ins .scopeMark [.imm scope]) t =
      some ([], { t with memory := t.memory.mark scope }, .next) := rfl

theorem exec_release {scope : Int64} {mark : Nat} (h : t.memory.marks scope = some mark) :
    (loopMachine E H B loop).exec (ins .scopeRelease [.imm scope]) t =
      some ([], { t with memory := t.memory.release (loop.owned scope) mark }, .next) := by
  change (t.memory.marks scope).map _ = _
  rw [h]
  rfl

-- opcodes of the interpreter that read every register they name
def plainOpcodes : List Opcode :=
  [.move, .typeTest, .add, .sub, .shr, .bitAnd, .cmpLt, .cmpGt, .cmpGte, .branchZero, .branchNotZero]

variable {op : Opcode}

-- an instruction on registers that all hold a value does what it denotes
theorem exec_denoted {operands : List IRValue} {hint : TypeHint} {e : Effects} {reads : List Int}
    (hop : op ∈ plainOpcodes)
    (hreads :
      IRInstruction.collectReadRegisters { opcode := op, operands, typeHint := hint } = reads)
    (hheld : ∀ r ∈ reads, ∃ v, t.frame.registers r = some v)
    (h : denote E t.frame.globals op hint
        (argsFrom t.frame.value (opcodeInfo op).signature 0 operands) = some e) :
    (loopMachine E H B loop).exec (ins op operands hint) t = some (e.observed, { t with
        frame := { t.frame with globals := e.globals }.write
          (IRInstruction.destinationRegister { opcode := op, operands, typeHint := hint })
          e.result },
        e.flow) := by
  let i : IRInstruction := { opcode := op, operands, typeHint := hint }
  have htouched : i.touched t.frame.value = reads := by
    have hall : ∀ op ∈ plainOpcodes, op ∉ [Opcode.returnOp, .and, .or, .call, .globalCall] := by decide
    exact (touched_eq (hall op hop) _).trans hreads
  have hrun : execute E i t.frame =
      some (e.observed, { t.frame with globals := e.globals }.write i.destinationRegister e.result,
        e.flow) := by
    unfold execute
    rw [if_neg (fun hret : op = .returnOp => absurd (hret ▸ hop) (by decide))]
    change (denote E t.frame.globals op hint (argsFrom t.frame.value (opcodeInfo op).signature 0
      operands)).map _ = _
    rw [h]
    change some (i.finish t.frame e) = _
    unfold IRInstruction.finish
    rw [htouched, touch_held hheld]
  change execSlot E H loop i t = _
  unfold execSlot
  split
  case h_7 => rw [hrun]; rfl
  all_goals
    rename_i hcode _
    change op = _ at hcode
    exact absurd (hcode ▸ hop) (by decide)

theorem held_one (h : fr.registers r = some v) : ∀ r' ∈ [r], ∃ v', fr.registers r' = some v' := by
  rw [List.forall_mem_singleton]
  exact ⟨v, h⟩

theorem held_two {r₁ r₂ : Int} {v₁ v₂ : Value} (h₁ : fr.registers r₁ = some v₁)
    (h₂ : fr.registers r₂ = some v₂) :
    ∀ r' ∈ [r₁, r₂], ∃ v', fr.registers r' = some v' := by
  rw [List.forall_mem_cons]
  exact ⟨⟨v₁, h₁⟩, held_one h₂⟩

variable {dst : Int}

theorem exec_move {src : Int} (hint : TypeHint) (h : t.frame.registers src = some v) :
    (loopMachine E H B loop).exec (ins .move [.reg dst, .reg src] hint) t =
      some ([], t.assign dst v, .next) := by
  refine Eq.trans (exec_denoted (by decide) rfl (held_one h) rfl) ?_
  rw [← value_of_held h]
  rfl

theorem exec_typeTest {src : Int} (tested : Int64) (hint : TypeHint)
    (h : t.frame.registers src = some v) :
    (loopMachine E H B loop).exec (ins .typeTest [.reg dst, .reg src, .imm tested] hint) t =
      some ([], t.assign dst (.bool (v.tag = tested)), .next) := by
  refine Eq.trans (exec_denoted (by decide) rfl (held_one h) rfl) ?_
  rw [← value_of_held h]
  rfl

variable {lhs rhs : Int}

theorem exec_binary {l r : Value} (hint : TypeHint) (hop : op ∈ [Opcode.add, .sub, .shr, .bitAnd])
    (hl : t.frame.registers lhs = some l) (hr : t.frame.registers rhs = some r)
    (h : binaryOp E.table.fmod l r op = .ok v) :
    (loopMachine E H B loop).exec (ins op [.reg dst, .reg lhs, .reg rhs] hint) t =
      some ([], t.assign dst v, .next) := by
  rw [← value_of_held hl, ← value_of_held hr] at h
  have hrun := congrArg (yields t.frame.globals) h
  simp only [List.mem_cons, List.not_mem_nil, or_false] at hop
  rcases hop with rfl | rfl | rfl | rfl
  all_goals exact Eq.trans (exec_denoted (by decide) rfl (held_two hl hr) hrun) rfl

variable {a b : Int64}

theorem exec_add (hint : TypeHint)
    (hl : t.frame.registers lhs = some (.int a)) (hr : t.frame.registers rhs = some (.int b)) :
    (loopMachine E H B loop).exec (ins .add [.reg dst, .reg lhs, .reg rhs] hint) t =
      some ([], t.assign dst (.int (a + b)), .next) :=
  exec_binary hint (by decide) hl hr rfl

theorem exec_compare (hint : TypeHint)
    (hop : op ∈ [Opcode.cmpLt, .cmpGt, .cmpGte]) (hl : t.frame.registers lhs = some (.int a))
    (hr : t.frame.registers rhs = some (.int b)) :
    (loopMachine E H B loop).exec (ins op [.reg dst, .reg lhs, .reg rhs] hint) t =
      some ([], t.assign dst (intOfBool (compareInts a b op)), .next) := by
  have h : compareOp (t.frame.value lhs) (t.frame.value rhs)
    op = .ok (intOfBool (compareInts a b op)) := by
    rw [value_of_held hl, value_of_held hr]
    rfl
  have hrun := congrArg (yields t.frame.globals) h
  simp only [List.mem_cons, List.not_mem_nil, or_false] at hop
  rcases hop with rfl | rfl | rfl
  all_goals exact Eq.trans (exec_denoted (by decide) rfl (held_two hl hr) hrun) rfl

section

variable (id : Nat) (hint : TypeHint)
include hint

-- BRANCH_ZERO and BRANCH_NOT_ZERO, taken or not
theorem exec_branch (taken : Bool)
    (hop : op = .branchZero ∧ taken = false ∨ op = .branchNotZero ∧ taken = true)
    (h : t.frame.registers r = some v) :
    (loopMachine E H B loop).exec (ins op [.reg r, .label id] hint) t =
      some ([], t, if v.getBool = taken then .goto (E.program.strings.nameOf id) else .next) := by
  have hjumps : jumps E t.frame.globals (v.getBool = taken) id =
      { globals := t.frame.globals,
        flow := if v.getBool = taken then .goto (E.program.strings.nameOf id) else .next } := by
    unfold jumps
    by_cases htaken : v.getBool = taken <;> simp [htaken]
  rw [← value_of_held h] at hjumps ⊢
  rcases hop with ⟨rfl, rfl⟩ | ⟨rfl, rfl⟩
  all_goals exact Eq.trans (exec_denoted (by decide) rfl (held_one h) (congrArg some hjumps)) rfl

theorem exec_branchZero_falls (h : t.frame.registers r = some v) (hv : v.getBool = true) :
    (loopMachine E H B loop).exec (ins .branchZero [.reg r, .label id] hint) t =
      some ([], t, .next) := by
  rw [exec_branch id hint false (.inl ⟨rfl, rfl⟩) h, hv]
  rfl

theorem exec_branchZero_goes (h : t.frame.registers r = some v) (hv : v.getBool = false) :
    (loopMachine E H B loop).exec (ins .branchZero [.reg r, .label id] hint) t =
      some ([], t, .goto (E.program.strings.nameOf id)) := by
  rw [exec_branch id hint false (.inl ⟨rfl, rfl⟩) h, hv]
  rfl

theorem exec_branchNotZero_falls (h : t.frame.registers r = some v) (hv : v.getBool = false) :
    (loopMachine E H B loop).exec (ins .branchNotZero [.reg r, .label id] hint) t =
      some ([], t, .next) := by
  rw [exec_branch id hint true (.inr ⟨rfl, rfl⟩) h, hv]
  rfl

theorem exec_branchNotZero_goes (h : t.frame.registers r = some v) (hv : v.getBool = true) :
    (loopMachine E H B loop).exec (ins .branchNotZero [.reg r, .label id] hint) t =
      some ([], t, .goto (E.program.strings.nameOf id)) := by
  rw [exec_branch id hint true (.inr ⟨rfl, rfl⟩) h, hv]
  rfl

end

end Execute

/-! ## 5. Agreement -/

section Agree

variable {W : Type} {own : List Int} {s u : View W} {t : LoopState W} {r r' : Int} {v : Value}

@[simp] theorem LoopState.assign_same : (t.assign r v).frame.registers r = some v := if_pos rfl

@[simp] theorem LoopState.assign_other (h : r' ≠ r) :
    (t.assign r v).frame.registers r' = t.frame.registers r' := if_neg h

theorem Agree.refl (s : View W) : Agree own s s := ⟨rfl, rfl, fun _ _ => rfl⟩

theorem Agree.mono {gone : List Int} (h : Agree own s u) (hsub : own ⊆ gone) : Agree gone s u :=
  ⟨h.world, h.globals, fun r hr => h.registers r fun hown => hr (hsub hown)⟩

theorem Agree.assign (h : Agree own s t.toView) :
    Agree own (s.assign r v) (t.assign r v).toView where
  world := h.world
  globals := h.globals
  registers r' hr' := by
    change (if r' = r then _ else _) = (if r' = r then _ else _)
    split
    · rfl
    · exact h.registers r' hr'

-- the view catches up with a register the code has set already
theorem Agree.catch_up (h : Agree (r :: own) s u) (hv : u.frame.registers r = some v) :
    Agree own (s.assign r v) u where
  world := h.world
  globals := h.globals
  registers r' hr' := by
    change (if r' = r then _ else _) = _
    split
    · rename_i heq
      rw [heq, hv]
    · rename_i hne
      exact h.registers r' fun hmem => (List.mem_cons.mp hmem).elim hne hr'

/-- Nothing but registers of `rs` and the contents of the memory differs. -/
structure Writes (rs : List Int) (t t' : LoopState W) : Prop where
  registers : ∀ r, r ∉ rs → t'.frame.registers r = t.frame.registers r
  globals : t'.frame.globals = t.frame.globals
  world : t'.world = t.world
  marks : t'.memory.marks = t.memory.marks

theorem Writes.refl (rs : List Int) (t : LoopState W) : Writes rs t t :=
  ⟨fun _ _ => rfl, rfl, rfl, rfl⟩

theorem Writes.assign {t' : LoopState W} (h : Writes rs t t') (hr : r ∈ rs) :
    Writes rs t (t'.assign r v) where
  registers r' hr' := by
    have hne : r' ≠ r := fun heq => hr' (heq ▸ hr)
    rw [LoopState.assign_other hne]
    exact h.registers r' hr'
  globals := h.globals
  world := h.world
  marks := h.marks

theorem Writes.mono {rs' : List Int} {t' : LoopState W} (h : Writes rs t t') (hsub : rs ⊆ rs') :
    Writes rs' t t' :=
  ⟨fun r hr => h.registers r fun hmem => hr (hsub hmem), h.globals, h.world, h.marks⟩

theorem Writes.trans {t' t'' : LoopState W} (h : Writes rs t t') (h' : Writes rs t' t'') :
    Writes rs t t'' :=
  ⟨fun r hr => (h'.registers r hr).trans (h.registers r hr), h'.globals.trans h.globals,
  h'.world.trans h.world,
    h'.marks.trans h.marks⟩

theorem Agree.writes {t' : LoopState W} (h : Agree own s t.toView) (hw : Writes rs t t')
    (hsub : rs ⊆ own) :
    Agree own s t'.toView where
  world := h.world.trans hw.world.symm
  globals := h.globals.trans hw.globals.symm
  registers r hr := (h.registers r hr).trans (hw.registers r fun hmem => hr (hsub hmem)).symm

end Agree

/-! ## 6. Scopes -/

-- `open_scope` marks nothing in a coroutine, and then nothing is released
def openScope : Option Int64 → List Slot
  | none => []
  | some scope => [ins .scopeMark [.imm scope]]

def emitScopeRelease : Option Int64 → List Slot
  | none => []
  | some scope => [ins .scopeRelease [.imm scope]]

section Scopes

variable {W : Type} {own : List Int} {E : Env} {H : Host W} {B : LoopBody W own}
  {loop : LoopContext} {code rest rest' : List Slot} {t t' : LoopState W} {os : List Observation}
  {scope : Option Int64}

def LoopState.mark (t : LoopState W) : Option Int64 → LoopState W
  | none => t
  | some scope => { t with memory := t.memory.mark scope }

def LoopState.release (t : LoopState W) (loop : LoopContext) : Option Int64 → LoopState W
  | none => t
  | some scope =>
    { t with memory := t.memory.release (loop.owned scope) ((t.memory.marks scope).getD 0) }

def Memory.Marked (memory : Memory) (scope : Option Int64) : Prop :=
  ∀ id ∈ scope, ∃ mark, memory.marks id = some mark

theorem setAt_same {α : Type} (f : Int64 → α) (i : Int64) (a : α) : setAt f i a i = a := if_pos rfl

theorem LoopState.marked_mark (t : LoopState W) (scope : Option Int64) :
    (t.mark scope).memory.Marked scope := by
  intro id hid
  cases hid
  exact ⟨_, setAt_same _ _ _⟩

theorem LoopState.marked_mark_of {other : Option Int64} (h : t.memory.Marked scope) :
    (t.mark other).memory.Marked scope := by
  intro id hid
  cases other with
  | none => exact h id hid
  | some other =>
    by_cases heq : id = other
    · exact ⟨_, if_pos heq⟩
    · obtain ⟨mark, hmark⟩ := h id hid
      exact ⟨mark, (if_neg heq).trans hmark⟩

@[simp] theorem LoopState.mark_view (t : LoopState W) (scope : Option Int64) :
    (t.mark scope).toView = t.toView := by
  cases scope <;> rfl

@[simp] theorem LoopState.mark_buffers (t : LoopState W) (scope : Option Int64) :
    (t.mark scope).memory.buffers = t.memory.buffers := by
  cases scope <;> rfl

@[simp] theorem LoopState.release_view (t : LoopState W) (loop : LoopContext)
    (scope : Option Int64) :
    (t.release loop scope).toView = t.toView := by
  cases scope <;> rfl

theorem Writes.release (t : LoopState W) (loop : LoopContext) (scope : Option Int64) :
    Writes rs t (t.release loop scope) := by
  cases scope with
  | none => exact .refl _ t
  | some scope => exact ⟨fun _ _ => rfl, rfl, rfl, rfl⟩

theorem Memory.Marked.writes (h : t.memory.Marked scope) (hw : Writes rs t t') :
    t'.memory.Marked scope :=
  fun id hid => hw.marks ▸ h id hid

theorem Memory.Marked.spared (h : t.memory.Marked scope)
    (hs : Memory.Spares loop t.memory t'.memory) (hscope : ∀ id ∈ scope, id ∈ loop.scopes) :
    t'.memory.Marked scope :=
  fun id hid => (hs.marks id (hscope id hid)).symm ▸ h id hid

theorem run_openScope (h : (loopMachine E H B loop).Runs code rest (t.mark scope) os rest' t') :
    (loopMachine E H B loop).Runs code (openScope scope ++ rest) t os rest' t' := by
  cases scope with
  | none => exact h
  | some scope => exact .next (exec_mark scope) h

theorem run_release (hmarked : t.memory.Marked scope)
    (h : (loopMachine E H B loop).Runs code rest (t.release loop scope) os rest' t') :
    (loopMachine E H B loop).Runs code (emitScopeRelease scope ++ rest) t os rest' t' := by
  cases scope with
  | none => exact h
  | some scope =>
    obtain ⟨mark, hmark⟩ := hmarked scope rfl
    have hstate : t.release loop (some scope) =
        { t with memory := t.memory.release (loop.owned scope) mark } := by
      change LoopState.mk t.toView (t.memory.release _ ((t.memory.marks scope).getD 0)) = _
      rw [hmark]
      rfl
    exact .next (exec_release hmark) (hstate ▸ h)

end Scopes

/-! ## 7. Lowerings -/

section Lowering

variable {W : Type}

/-- The loop has been left: at the code after it, or out of the function. Its variable is gone with
it. -/
inductive Left (gone : List Int) (code after : List Slot) (s : View W) :
    Option Value → Config (LoopState W) Value → Prop
  | out (t : LoopState W) (h : Agree gone s t.toView) :
      Left gone code after s none (Machine.place code after t)
  | returned (v : Value) (t : LoopState W) (h : Agree gone s t.toView) :
      Left gone code after s (some v) ⟨0, t, some v⟩

-- what a body hands back to the loop whose registers and scopes it left alone
structure Passed (own : List Int) (loop : LoopContext) (t u : LoopState W) (s' : View W) :
    Prop where
  agree : Agree own s' u.toView
  kept : ∀ r ∈ own, u.frame.registers r = t.frame.registers r
  spared : Memory.Spares loop t.memory u.memory

variable {own : List Int} (E : Env) (H : Host W) (B : LoopBody W own) (loop : LoopContext)
  (code after : List Slot) (gone : List Int)

/-- The code from `start` on runs the loop: it comes to its body in the states of the iterations and
leaves as the loop is left. -/
structure Follows (start latch : List Slot) (enter : Nat → View W → Option (View W))
    (body : View W → List Observation → View W → Leave Value → Prop) (s₀ : View W)
    (t₀ : LoopState W) : Prop where
  iteration : ∀ {k os s s'}, Comes enter body s₀ k os s → enter k s = some s' →
    ∃ n t, (loopMachine E H B loop).Steps code (Machine.place code start t₀) n os
      (Machine.place code (.body :: latch) t) ∧ Agree own s' t.toView
  completes : ∀ {os s r}, Completes enter body s₀ os s r →
    ∃ n c, (loopMachine E H B loop).Steps code (Machine.place code start t₀) n os c ∧
      Left gone code after s r c

/-- What the code around the body has to do. -/
structure Lowering (latch exit : List Slot) (enter : Nat → View W → Option (View W))
    (body : View W → List Observation → View W → Leave Value → Prop)
    (head : Nat → View W → List Slot → LoopState W → Prop) (inv : Nat → View W → LoopState W → Prop) :
    Prop where
  labels : (code.filterMap (slotLabel E.program.strings)).Nodup
  inside : .body :: latch <:+ code
  continues : ∃ j rest, latch = j :: rest ∧ (loopMachine E H B loop).labelOf j = some loop.continueLabel
  breaks : ∃ j rest, exit = j :: rest ∧ (loopMachine E H B loop).labelOf j = some loop.breakLabel
  outside : exit <:+ code
  own_gone : own ⊆ gone
  body_runs : ∀ {s os s' leave}, body s os s' leave → B.Leaves s os s' leave
  head_place : ∀ {k s rest t}, head k s rest t → rest <:+ code
  enters : ∀ {k s s' rest t}, head k s rest t → enter k s = some s' →
    ∃ t', (loopMachine E H B loop).Runs code rest t [] (.body :: latch) t' ∧
      Agree own s' t'.toView ∧ inv k s' t'
  ends : ∀ {k s rest t}, head k s rest t → enter k s = none →
    ∃ t', (loopMachine E H B loop).Runs code rest t [] after t' ∧ Agree gone s t'.toView
  spares : B.Spares loop
  again : ∀ {k s t os s' u}, inv k s t → body s os s' .again → Passed own loop t u s' →
    ∃ rest t', (loopMachine E H B loop).Runs code latch u [] rest t' ∧ head (k + 1) s' rest t'
  exits : ∀ {k s t s' u}, inv k s t → Passed own loop t u s' →
    ∃ t', (loopMachine E H B loop).Runs code exit u [] after t' ∧ Agree gone s' t'.toView

variable {E H B loop code after gone} {latch exit : List Slot}
  {enter : Nat → View W → Option (View W)}
  {body : View W → List Observation → View W → Leave Value → Prop}
  {head : Nat → View W → List Slot → LoopState W → Prop} {inv : Nat → View W → LoopState W → Prop}

theorem exec_body {s : View W} {t : LoopState W} {os : List Observation} {s' : View W}
    {x : BodyExit} (hspares : B.Spares loop) (hagree : Agree own s t.toView)
    (h : B.run s = some (os, s', x)) :
    ∃ u, (loopMachine E H B loop).exec .body t = some (os, u, x.flow loop) ∧
      Passed own loop t u s' := by
  obtain ⟨view, hrun, hview⟩ := B.blind hagree h
  refine ⟨⟨view, B.memory t.toView t.memory⟩, ?_, hview, B.keeps hrun, hspares _ _⟩
  change (B.run t.toView).map _ = _
  rw [hrun]
  rfl

theorem Lowering.refines
    (hlower : Lowering E H B loop code after gone latch exit enter body head inv) :
    (loopMachine E H B loop).Refines code enter body
      (fun k s c => ∃ rest t, head k s rest t ∧ c = Machine.place code rest t)
      (fun k s c => ∃ t, Agree own s t.toView ∧ inv k s t ∧
          c = Machine.place code (.body :: latch) t)
      (Left gone code after) where
  enters := by
    rintro k s s' c ⟨rest, t, hhead, rfl⟩ henter
    obtain ⟨t', hruns, hagree, hinv⟩ := hlower.enters hhead henter
    obtain ⟨n, hsteps⟩ := hruns.steps hlower.labels (hlower.head_place hhead)
    exact ⟨n, _, hsteps, t', hagree, hinv, rfl⟩
  ends := by
    rintro k s c ⟨rest, t, hhead, rfl⟩ henter
    obtain ⟨t', hruns, hagree⟩ := hlower.ends hhead henter
    obtain ⟨n, hsteps⟩ := hruns.steps hlower.labels (hlower.head_place hhead)
    exact ⟨n, _, hsteps, .out t' hagree⟩
  again := by
    rintro k s os s' c ⟨t, hagree, hinv, rfl⟩ hbody
    obtain ⟨x, hrun, hx⟩ := hlower.body_runs hbody
    obtain ⟨u, hexec, hpassed⟩ := exec_body hlower.spares hagree hrun
    obtain ⟨rest, t', hlatch, hhead⟩ := hlower.again hinv hbody hpassed
    have hruns : (loopMachine E H B loop).Runs code (.body :: latch) t (os ++ []) rest t' := by
      cases x with
      | falls => exact .next hexec hlatch
      | continues =>
        -- the code of the body ends where `continue` jumps to
        obtain ⟨j, rest', hj, hlabel⟩ := hlower.continues
        rw [hj] at hlatch
        refine .goto hexec hlabel ?_ hlatch
        rw [← hj]
        exact (List.suffix_cons _ _).trans hlower.inside
      | breaks => cases hx
      | returns v => cases hx
    rw [List.append_nil] at hruns
    obtain ⟨n, hsteps⟩ := hruns.steps hlower.labels hlower.inside
    exact ⟨n, _, hsteps, rest, t', hhead, rfl⟩
  breaks := by
    rintro k s os s' c ⟨t, hagree, hinv, rfl⟩ hbody
    obtain ⟨x, hrun, hx⟩ := hlower.body_runs hbody
    cases x with
    | falls => cases hx
    | continues => cases hx
    | returns v => cases hx
    | breaks =>
      obtain ⟨u, hexec, hpassed⟩ := exec_body hlower.spares hagree hrun
      obtain ⟨t', hexit, hagree'⟩ := hlower.exits hinv hpassed
      obtain ⟨j, rest, hj, hlabel⟩ := hlower.breaks
      rw [hj] at hexit
      have hruns : (loopMachine E H B loop).Runs code (.body :: latch) t (os ++ []) after t' :=
        .goto hexec hlabel (hj ▸ hlower.outside) hexit
      rw [List.append_nil] at hruns
      obtain ⟨n, hsteps⟩ := hruns.steps hlower.labels hlower.inside
      exact ⟨n, _, hsteps, .out t' hagree'⟩
  returns := by
    rintro k s os s' v c ⟨t, hagree, hinv, rfl⟩ hbody
    obtain ⟨x, hrun, hx⟩ := hlower.body_runs hbody
    cases x with
    | falls => cases hx
    | continues => cases hx
    | breaks => cases hx
    | returns w =>
      cases hx
      obtain ⟨u, hexec, hpassed⟩ := exec_body hlower.spares hagree hrun
      have hstep : (loopMachine E H B loop).step code (Machine.place code (.body :: latch) t) =
          some (os, ⟨0, u, some v⟩) := by
        rw [Machine.step_place hlower.inside, hexec]
        rfl
      have hsteps := Machine.Steps.head hstep (.refl _)
      rw [List.append_nil] at hsteps
      exact ⟨1, _, hsteps, .returned v _ (hpassed.agree.mono hlower.own_gone)⟩

/-- Code that does what it has to around the body follows the loop from its head. -/
theorem Lowering.follows
    (hlower : Lowering E H B loop code after gone latch exit enter body head inv) {s₀ : View W}
    {start rest : List Slot} {t₀ t : LoopState W} (hstart : start <:+ code)
    (hruns : (loopMachine E H B loop).Runs code start t₀ [] rest t) (hhead : head 0 s₀ rest t) :
    Follows E H B loop code after gone start latch enter body s₀ t₀ := by
  obtain ⟨n, hsteps⟩ := hruns.steps hlower.labels hstart
  constructor
  · intro k os s s' hcomes henter
    obtain ⟨m, c, hsteps', t', hagree, -, rfl⟩ :=
      hlower.refines.comes_inside ⟨rest, t, hhead, rfl⟩ hcomes henter
    exact ⟨_, t', hsteps.trans hsteps', hagree⟩
  · intro os s r hcompletes
    obtain ⟨m, c, hsteps', hleft⟩ := hlower.refines.completes ⟨rest, t, hhead, rfl⟩ hcompletes
    exact ⟨_, c, hsteps.trans hsteps', hleft⟩

end Lowering

end Codegen
