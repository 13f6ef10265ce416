import GdscriptCompiler.Planning.ControlFlow

/-!
# Execution — runs of a planned function

What an opcode computes, what it does to the world and which successor it takes is the host's; the
plans rest on LOAD_IMM and MOVE only.
-/

namespace Plan

open Ir

/-! ## 1. The machine -/

/-- The opcodes' meaning: from an instruction, the values it reads and the world. -/
structure Host (Value World : Type) where
  int : Int64 → Value
  result : IRInstruction → List Value → World → Value
  after : IRInstruction → List Value → World → World
  -- the successor it takes, by position; none if there is no such position
  next : IRInstruction → List Value → World → Nat

structure Config (Value World : Type) where
  pc : Nat
  registers : Int → Value
  world : World

variable {Value World : Type}

/-- The values an instruction reads, in operand order. -/
def Config.values (c : Config Value World) (instr : IRInstruction) : List Value :=
  instr.collectReadRegisters.map c.registers

def Host.written (H : Host Value World) (instr : IRInstruction) (values : List Value)
    (world : World) : Value :=
  match instr.opcode, instr.operands, values with
  | .loadImm, _ :: .imm v :: _, _ => H.int v
  | .move, _, v :: _ => v
  | _, _, _ => H.result instr values world

def Host.perform (H : Host Value World) (instr : IRInstruction) (c : Config Value World)
    (pc : Nat) : Config Value World where
  pc := pc
  registers r :=
    if r = instr.destinationRegister then H.written instr (c.values instr) c.world else c.registers r
  world := H.after instr (c.values instr) c.world

/-- One instruction; none where the run ends. -/
def Host.step (H : Host Value World) (f : IRFunction) (c : Config Value World) :
    Option (Config Value World) :=
  match f.instructions[c.pc]? with
  | none => none
  | some instr => (successors f c.pc)[H.next instr (c.values instr) c.world]?.map (H.perform instr c)

def entry (arguments : Int → Value) (world : World) : Config Value World := ⟨0, arguments, world⟩

/-! ## 2. Runs -/

variable {H : Host Value World} {V : VerifiedFunction}

theorem Host.step_eq_some {f : IRFunction} {c c' : Config Value World} (h : H.step f c = some c') :
    ∃ instr, f.instructions[c.pc]? = some instr ∧ c'.pc ∈ successors f c.pc ∧
      c' = H.perform instr c c'.pc := by
  unfold Host.step at h
  cases hinstr : f.instructions[c.pc]? with
  | none =>
    rw [hinstr] at h
    cases h
  | some instr =>
    rw [hinstr] at h
    obtain ⟨j, hj, rfl⟩ := Option.map_eq_some_iff.mp h
    exact ⟨instr, rfl, List.mem_of_getElem? hj, rfl⟩

/-- A run from the entry comes to `c` over the instructions `past`, the latest first. -/
inductive Runs (V : VerifiedFunction) (H : Host Value World) (start : Config Value World) :
    List Nat → Config Value World → Prop
  | start (h : start.pc = 0) : Runs V H start [] start
  | step {past : List Nat} {c c' : Config Value World} (h : Runs V H start past c)
      (hstep : H.step V.function c = some c') : Runs V H start (c.pc :: past) c'

variable {start c : Config Value World} {past : List Nat}

theorem Runs.reached (h : Runs V H start past c) (hlt : c.pc < V.function.instructions.length) :
    V.Reached past c.pc := by
  induction h with
  | start hpc =>
    rw [hpc] at hlt ⊢
    exact .start hlt
  | step _ hstep ih =>
    obtain ⟨instr, hinstr, hmem, -⟩ := H.step_eq_some hstep
    exact .step (ih (List.getElem?_eq_some_iff.mp hinstr).1) hmem

theorem Runs.invariant {Inv : List Nat → Config Value World → Prop} (hstart : Inv [] start)
    (hkeep : ∀ past (c : Config Value World) instr (j : Nat), Runs V H start past c →
        V.at? c.pc = some instr → j ∈ successors V.function c.pc → Inv past c →
      Inv (c.pc :: past) (H.perform instr c j)) (h : Runs V H start past c) :
    Inv past c := by
  induction h with
  | start => exact hstart
  | step hrun hstep ih =>
    obtain ⟨instr, hinstr, hmem, heq⟩ := H.step_eq_some hstep
    rw [heq]
    exact hkeep _ _ instr _ hrun hinstr hmem ih

/-- A configuration of a run, with the run. -/
structure Point (V : VerifiedFunction) (H : Host Value World) where
  start : Config Value World
  past : List Nat
  config : Config Value World
  runs : Runs V H start past config

/-- The run of `k` steps, with the instructions it went over. -/
def Host.run (H : Host Value World) (f : IRFunction) (start : Config Value World) :
    Nat → Option (List Nat × Config Value World)
  | 0 => some ([], start)
  | k + 1 => (H.run f start k).bind fun p => (H.step f p.2).map fun c' => (p.2.pc :: p.1, c')

theorem runs_of_run (hpc : start.pc = 0) {k : Nat} (h : H.run V.function start k = some (past, c)) :
    Runs V H start past c := by
  induction k generalizing past c with
  | zero =>
    cases h
    exact .start hpc
  | succ k ih =>
    obtain ⟨⟨past', c'⟩, hrun, hstep⟩ := Option.bind_eq_some_iff.mp h
    obtain ⟨c'', hstep, heq⟩ := Option.map_eq_some_iff.mp hstep
    cases heq
    exact .step (ih hrun) hstep

/-! ## 3. Facts about registers -/

theorem writtenIn_cons {k : Nat} {instr : IRInstruction} (hinstr : V.at? k = some instr) {r : Int} :
    V.WrittenIn (k :: past) r ↔ instr.destinationRegister = r ∨ V.WrittenIn past r := by
  unfold VerifiedFunction.WrittenIn
  constructor
  · rintro ⟨k', hk', instr', hinstr', hdst⟩
    rcases List.mem_cons.mp hk' with rfl | hk'
    · rw [hinstr] at hinstr'
      cases hinstr'
      exact .inl hdst
    · exact .inr ⟨k', hk', instr', hinstr', hdst⟩
  · rintro (hdst | ⟨k', hk', h⟩)
    · exact ⟨k, List.mem_cons_self, instr, hinstr, hdst⟩
    · exact ⟨k', List.mem_cons_of_mem k hk', h⟩

/-- If every write of a register of `S` makes `P` hold, given that `P` holds of the registers of `S`
that are written by then, it holds of them along every run. -/
theorem Runs.holds {S : Int → Prop} {P : Int → Value → Prop}
    (hwrite : ∀ past (c : Config Value World) instr, Runs V H start past c →
        V.at? c.pc = some instr → (∀ r, S r → V.WrittenIn past r → P r (c.registers r)) →
      S instr.destinationRegister → P instr.destinationRegister
      (H.written instr (c.values instr) c.world)) (h : Runs V H start past c) {r : Int} (hr : S r)
    (hw : V.WrittenIn past r) :
    P r (c.registers r) := by
  have hall := @Runs.invariant _ _ H V start c past (fun past c => ∀ r, S r → V.WrittenIn past r →
    P r (c.registers r))
  refine hall ?_ ?_ h r hr hw
  · rintro r - ⟨k, hk, -⟩
    cases hk
  · intro past c instr j hrun hinstr _ ih r hr hw
    by_cases hdst : r = instr.destinationRegister
    · subst hdst
      change P _ (if _ then _ else _)
      rw [if_pos rfl]
      exact hwrite past c instr hrun hinstr ih hr
    · change P _ (if _ then _ else _)
      rw [if_neg hdst]
      exact ih r hr (((writtenIn_cons hinstr).mp hw).resolve_left fun heq => hdst heq.symm)

/-! ## 4. Registers with one definition -/

/-- How often `r` is defined; a parameter is defined on entry. -/
def definitions (f : IRFunction) (r : Int) : Nat :=
  (if 0 ≤ r ∧ r < f.parameters.length then 1 else 0) + f.instructions.countP fun instr =>
  instr.destinationRegister = r

theorem index_unique {α : Type} {p : α → Bool} {xs : List α} (h : xs.countP p ≤ 1) {i j : Nat}
    {a b : α} (hi : xs[i]? = some a) (hj : xs[j]? = some b) (ha : p a = true) (hb : p b = true) :
    i = j := by
  induction xs generalizing i j with
  | nil => cases hi
  | cons x xs ih =>
    rw [List.countP_cons] at h
    -- a second one behind the first
    have hlater : ∀ {k : Nat} {y : α}, xs[k]? = some y → p y = true → 0 < xs.countP p := fun hk hy =>
      List.countP_pos_iff.mpr ⟨_, List.mem_of_getElem? hk, hy⟩
    cases i with
    | zero =>
      cases j with
      | zero => rfl
      | succ j =>
        rw [List.getElem?_cons_zero] at hi
        cases hi
        have := hlater (List.getElem?_cons_succ ▸ hj) hb
        rw [if_pos ha] at h
        omega
    | succ i =>
      cases j with
      | zero =>
        rw [List.getElem?_cons_zero] at hj
        cases hj
        have := hlater (List.getElem?_cons_succ ▸ hi) ha
        rw [if_pos hb] at h
        omega
      | succ j =>
        have := ih (by omega) (List.getElem?_cons_succ ▸ hi) (List.getElem?_cons_succ ▸ hj)
        omega

section Single

variable {f : IRFunction} {r : Int} {i : Nat} {instr : IRInstruction}
variable (hone : definitions f r = 1) (hi : f.instructions[i]? = some instr)
  (hdst : instr.destinationRegister = r)
include hone hi hdst

theorem not_parameter : ¬ (0 ≤ r ∧ r < f.parameters.length) := by
  intro hparam
  have hpos : 0 < f.instructions.countP fun instr => instr.destinationRegister = r :=
    List.countP_pos_iff.mpr ⟨instr, List.mem_of_getElem? hi, decide_eq_true hdst⟩
  unfold definitions at hone
  rw [if_pos hparam] at hone
  omega

theorem definition_unique {k : Nat} {instr' : IRInstruction} (hk : f.instructions[k]? = some instr')
    (hdst' : instr'.destinationRegister = r) :
    k = i := by
  have hcount : f.instructions.countP (fun instr => instr.destinationRegister = r) ≤ 1 := by
    unfold definitions at hone
    omega
  exact index_unique hcount hk hi (decide_eq_true hdst') (decide_eq_true hdst)

end Single

end Plan
