import GdscriptCompiler.Lib.Backward
import GdscriptCompiler.Planning.ControlFlow

/-!
# Liveness — which registers a path still reads

`find_live_parameters` of `riscv_codegen.cpp` and `live_after` of `c_codegen.cpp`; the latter also
lets the end of the function read r0.
-/

namespace Plan

open Ir Lib

/-! ## 1. The two analyses -/

/-- The registers below `facts`, read and written as `reads` and `writes` say. -/
def liveness (f : IRFunction) (facts : Nat) (reads writes : IRInstruction → Int → Bool)
    (ends : Nat → Nat → Bool) : Backward where
  nodes := f.instructions.length
  facts := facts
  succs := successors f
  uses i r := f.instructions[i]?.any fun instr => reads instr r
  kills i r := f.instructions[i]?.any fun instr => writes instr r
  ends := ends
  succs_lt _ _ := successors_lt

-- `ir_collect_read_registers`
def readsRegister (instr : IRInstruction) (r : Int) : Bool := r ∈ instr.collectReadRegisters

/-- `find_live_parameters`: live on entry. -/
def findLiveParameters (f : IRFunction) : List Bool :=
  let count := f.parameters.length
  if count = 0 ∨ f.instructions = [] then List.replicate count false
  else
    let problem := liveness f count readsRegister (fun instr r => instr.destinationRegister = r)
      fun _ _ => false
    problem.solve.getD 0 []

-- `ir_writes_operand` at some operand that is `r`
def writesRegister (instr : IRInstruction) (r : Int) : Bool :=
  instr.operands.zipIdx.any fun (operand, j) =>
    match operand with
    | .reg r' => r' = r && instr.writesOperand j
    | _ => false

/-- The implicit return at the end of the function reads r0. -/
def fallsOff (f : IRFunction) (i r : Nat) : Bool :=
  r = 0 && i + 1 = f.instructions.length &&
    f.instructions[i]?.any fun instr => !hasEffect instr.opcode .terminator

/-- `live_after`. `labels.at` throws on a label that is not there. The last pass changes no `in`, so
`after` is what follows from the final `in`. -/
def liveAfter (f : IRFunction) : Option Table :=
  if f.instructions.all fun instr => (labelOperands instr).all fun id => (labelIndex f id).isSome then
    let registers := (max 1 f.maxRegisters).toNat
    let problem := liveness f registers readsRegister writesRegister (fallsOff f)
    some ((List.range f.instructions.length).map fun i =>
      (List.range registers).map fun r => problem.out problem.solve i r)
  else none

/-! ## 2. Reads along paths -/

namespace VerifiedFunction

variable {V : VerifiedFunction}

/-- Instruction `i` is the last one and goes on. -/
def Leaves (V : VerifiedFunction) (i : Nat) : Prop :=
  i + 1 = V.function.instructions.length ∧
    ∃ instr, V.at? i = some instr ∧ instr.opcode ≠ .jump ∧ instr.opcode ≠ .returnOp

/-- Some path from instruction `i` reads `r` before an instruction overwrites it. Which registers an
instruction reads is `reads`; the end of the function reads the registers `last`. -/
inductive ReadFirst (V : VerifiedFunction) (reads : IRInstruction → Int → Prop) (last : Int → Prop)
    (r : Int) : Nat → Prop
  | read {i : Nat} {instr : IRInstruction} (hinstr : V.at? i = some instr) (h : reads instr r) :
      ReadFirst V reads last r i
  | step {i j : Nat} {instr : IRInstruction} (hinstr : V.at? i = some instr)
    (hkeep : ¬ Overwrites instr r)
      (hj : V.Follows i j) (h : ReadFirst V reads last r j) : ReadFirst V reads last r i
  | leave {i : Nat} {instr : IRInstruction} (hinstr : V.at? i = some instr)
    (hkeep : ¬ Overwrites instr r)
      (hend : V.Leaves i) (h : last r) : ReadFirst V reads last r i

/-- The same of the paths that start behind instruction `i`. -/
def ReadAfter (V : VerifiedFunction) (reads : IRInstruction → Int → Prop) (last : Int → Prop)
    (r : Int) (i : Nat) : Prop :=
  (∃ j, V.Follows i j ∧ V.ReadFirst reads last r j) ∨ V.Leaves i ∧ last r

/-- The end of the function reads nothing. -/
def noReads (_ : Int) : Prop := False

def onlyZero (r : Int) : Prop := r = 0

/-! ## 3. The analyses are exact -/

/-- What an instruction overwrites is written or read, and what is written is overwritten or read.
-/
structure WritesWell (reads writes : IRInstruction → Int → Bool) : Prop where
  overwritten : ∀ (instr : IRInstruction) (r : Nat), Overwrites instr r → writes instr r = true ∨
    reads instr r = true
  read : ∀ (instr : IRInstruction) (r : Nat), writes instr r = true → Overwrites instr r ∨
    reads instr r = true

variable {instr : IRInstruction}

theorem readsRegister_iff {r : Int} : readsRegister instr r = true ↔ Reads instr r := by
  rw [readsRegister, decide_eq_true_eq, mem_collectReadRegisters]

theorem reads_of_inout {r : Int} (h : HasOperand instr .inout r) :
    readsRegister instr r = true := by
  obtain ⟨j, hj, hkind⟩ := h
  exact readsRegister_iff.mpr (.inl ⟨j, hj, by rw [hkind]; decide⟩)

theorem writesWell_destination :
    WritesWell readsRegister fun instr r => instr.destinationRegister = r where
  overwritten _ r h := .inl
    (decide_eq_true ((destinationRegister_eq_iff (Int.natCast_nonneg r)).mpr (.inl h)))
  read _ r h :=
    ((destinationRegister_eq_iff (Int.natCast_nonneg r)).mp (of_decide_eq_true h)).imp_right
    reads_of_inout

theorem writesRegister_iff {r : Int} :
    writesRegister instr r = true ↔ HasOperand instr .dst r ∨ HasOperand instr .inout r := by
  unfold writesRegister
  rw [List.any_eq_true]
  constructor
  · rintro ⟨⟨operand, j⟩, hmem, h⟩
    have hj := List.mem_zipIdx_iff_getElem?.mp hmem
    cases operand with
    | reg r' =>
      dsimp only at h
      rw [Bool.and_eq_true, decide_eq_true_eq] at h
      obtain ⟨rfl, hwrites⟩ := h
      unfold IRInstruction.writesOperand at hwrites
      rw [hj] at hwrites
      exact (of_decide_eq_true hwrites).imp (fun hk => ⟨j, hj, hk⟩) fun hk => ⟨j, hj, hk⟩
    | _ => cases h
  · intro h
    have hboth : ∃ j : Nat, instr.operands[j]? = some (.reg r) ∧
        (kindAt instr.signature j = .dst ∨ kindAt instr.signature j = .inout) := by
      rcases h with ⟨j, hj, hkind⟩ | ⟨j, hj, hkind⟩
      · exact ⟨j, hj, .inl hkind⟩
      · exact ⟨j, hj, .inr hkind⟩
    obtain ⟨j, hj, hkind⟩ := hboth
    refine ⟨(.reg r, j), List.mem_zipIdx_iff_getElem?.mpr hj, ?_⟩
    dsimp only
    rw [Bool.and_eq_true, decide_eq_true_eq]
    refine ⟨rfl, ?_⟩
    unfold IRInstruction.writesOperand
    rw [hj]
    exact decide_eq_true hkind

theorem writesWell_writesRegister : WritesWell readsRegister writesRegister where
  overwritten _ _ h := .inl (writesRegister_iff.mpr (.inl h))
  read _ _ h := (writesRegister_iff.mp h).imp_right reads_of_inout

variable {r i : Nat}

section Exact

variable {facts : Nat} {reads writes : IRInstruction → Int → Bool} {ends : Nat → Nat → Bool}
  {last : Int → Prop}

theorem uses_iff :
    (liveness V.function facts reads writes ends).uses i r = true ↔
      ∃ instr, V.at? i = some instr ∧ reads instr r = true := by
  change (V.at? i).any _ = true ↔ _
  exact Option.any_eq_true _ _

theorem kills_eq (hinstr : V.at? i = some instr) :
    (liveness V.function facts reads writes ends).kills i r = writes instr r := by
  change (V.at? i).any _ = _
  rw [hinstr]
  rfl

theorem asked_iff (hwrites : WritesWell reads writes)
    (hends : ∀ i r, ends i r = true ↔ V.Leaves i ∧ last r) :
    (liveness V.function facts reads writes ends).Asked i r ↔
      V.ReadFirst (fun instr r => reads instr r = true) last r i := by
  constructor
  · intro h
    -- a register that is neither killed nor read is not overwritten
    have hkeep : ∀ {i r : Nat} {instr : IRInstruction}, V.at? i = some instr →
        (liveness V.function facts reads writes ends).kills i r = false →
        reads instr r = true ∨ ¬ Overwrites instr r := by
      intro i r instr hinstr hkill
      rw [kills_eq hinstr] at hkill
      by_cases hover : Overwrites instr r
      · refine .inl ((hwrites.overwritten instr r hover).resolve_left fun hw => ?_)
        rw [hw] at hkill
        cases hkill
      · exact .inr hover
    induction h with
    | use huse =>
      obtain ⟨instr, hinstr, hreads⟩ := uses_iff.mp huse
      exact .read hinstr hreads
    | ends hkill hend =>
      obtain ⟨hleaves, hlast⟩ := (hends _ _).mp hend
      obtain ⟨instr, hinstr, -⟩ := hleaves.2
      rcases hkeep hinstr hkill with hreads | hover
      · exact .read hinstr hreads
      · exact .leave hinstr hover hleaves hlast
    | step hkill hj _ ih =>
      obtain ⟨instr, hinstr, -⟩ := mem_successors.mp hj
      rcases hkeep hinstr hkill with hreads | hover
      · exact .read hinstr hreads
      · exact .step hinstr hover (mem_successors_iff.mp hj) ih
  · intro h
    -- a register that is killed but not overwritten is read first
    have hkill : ∀ {i : Nat} {instr : IRInstruction}, V.at? i = some instr → ¬ Overwrites instr r →
        (liveness V.function facts reads writes ends).uses i r = true ∨
          (liveness V.function facts reads writes ends).kills i r = false := by
      intro i instr hinstr hover
      rw [kills_eq hinstr]
      cases hw : writes instr r with
      | false => exact .inr rfl
      | true =>
        have hreads := (hwrites.read instr r hw).resolve_left hover
        exact .inl (uses_iff.mpr ⟨instr, hinstr, hreads⟩)
    induction h with
    | read hinstr hreads => exact .use (uses_iff.mpr ⟨_, hinstr, hreads⟩)
    | step hinstr hkeep hj _ ih =>
      rcases hkill hinstr hkeep with huse | hnot
      · exact .use huse
      · exact .step hnot (mem_successors_iff.mpr hj) ih
    | leave hinstr hkeep hend hlast =>
      rcases hkill hinstr hkeep with huse | hnot
      · exact .use huse
      · exact .ends hnot ((hends _ _).mpr ⟨hend, hlast⟩)

theorem askedAfter_iff (hwrites : WritesWell reads writes)
    (hends : ∀ i r, ends i r = true ↔ V.Leaves i ∧ last r) :
    (liveness V.function facts reads writes ends).AskedAfter i r ↔
      V.ReadAfter (fun instr r => reads instr r = true) last r i := by
  unfold Backward.AskedAfter ReadAfter
  rw [or_comm]
  refine or_congr (exists_congr fun j => and_congr ?_ (asked_iff hwrites hends)) (hends i r)
  exact mem_successors_iff

end Exact

theorem reads_eq : (fun instr r => readsRegister instr r = true) = Reads := by
  funext instr r
  exact propext readsRegister_iff

theorem reads_lt (hinstr : V.at? i = some instr) {r : Int} (h : Reads instr r) :
    r < max 1 V.function.maxRegisters := by
  rcases h with ⟨j, hj, -⟩ | ⟨-, -, rfl⟩
  · have := (V.verified.registers instr (mem_of_at hinstr) r (List.mem_of_getElem? hj)).2
    omega
  · omega

theorem readFirst_lt {last : Int → Prop} (hlast : ∀ r, last r → r < 1) {r : Int}
    (h : V.ReadFirst Reads last r i) :
    r < max 1 V.function.maxRegisters := by
  induction h with
  | read hinstr h => exact reads_lt hinstr h
  | step _ _ _ _ ih => exact ih
  | leave _ _ _ h =>
    have := hlast r h
    omega

theorem fallsOff_iff : fallsOff V.function i r = true ↔ V.Leaves i ∧ onlyZero r := by
  unfold fallsOff Leaves onlyZero
  rw [Bool.and_eq_true, Bool.and_eq_true, decide_eq_true_eq, decide_eq_true_eq, Option.any_eq_true]
  constructor
  · rintro ⟨⟨rfl, hi⟩, instr, hinstr, hterm⟩
    rw [Bool.not_eq_true'] at hterm
    exact ⟨⟨hi, instr, hinstr, terminator_eq_false_iff.mp hterm⟩, rfl⟩
  · rintro ⟨⟨hi, instr, hinstr, hop⟩, hr⟩
    refine ⟨⟨by omega, hi⟩, instr, hinstr, ?_⟩
    rw [Bool.not_eq_true', terminator_eq_false_iff]
    exact hop

theorem length_findLiveParameters (V : VerifiedFunction) :
    (findLiveParameters V.function).length = V.function.parameters.length := by
  unfold findLiveParameters
  dsimp only
  split
  · exact List.length_replicate
  · rename_i hsome
    have hn : 0 < V.function.instructions.length := List.length_pos_iff.mpr (not_or.mp hsome).2
    exact (Backward.solve_spec _).1.toSized.row hn

theorem findLiveParameters_iff {p : Nat} (hp : p < V.function.parameters.length) :
    (findLiveParameters V.function)[p]? = some true ↔ V.ReadFirst Reads noReads p 0 := by
  unfold findLiveParameters
  dsimp only
  split
  · rename_i hnone
    have hempty : V.function.instructions = [] := hnone.resolve_left (by omega)
    have hat : ∀ i, V.at? i = none := fun i => by rw [at?, hempty]; rfl
    rw [List.getElem?_replicate, if_pos hp]
    constructor
    · exact fun h => by cases h
    · intro h
      cases h with
      | read hinstr => rw [hat] at hinstr; cases hinstr
      | step hinstr => rw [hat] at hinstr; cases hinstr
      | leave hinstr => rw [hat] at hinstr; cases hinstr
  · rename_i hsome
    have hn : 0 < V.function.instructions.length := List.length_pos_iff.mpr (not_or.mp hsome).2
    have hends : ∀ i r : Nat, false = true ↔ V.Leaves i ∧ noReads r := fun i r =>
      ⟨fun h => (by cases h), fun h => h.2.elim⟩
    have hasked : (liveness V.function V.function.parameters.length readsRegister
        (fun instr r => instr.destinationRegister = r) fun _ _ => false).Asked 0 p ↔
        V.ReadFirst Reads noReads p 0 := by
      rw [← reads_eq]
      exact asked_iff writesWell_destination hends
    rw [← hasked, ← Backward.bit_solve hn hp, Table.bit, List.getD_eq_getElem?_getD (i := p)]
    generalize (Backward.solve _).getD 0 [] = row
    cases row[p]? <;> simp

theorem bit_map {n m : Nat} {b : Nat → Nat → Bool} :
    Table.bit ((List.range n).map fun i => (List.range m).map (b i)) i r = true ↔ i < n ∧ r < m ∧
      b i r = true := by
  unfold Table.bit
  by_cases hi : i < n
  · rw [List.getD_eq_getElem _ [] (by simpa using hi)]
    by_cases hr : r < m
    · rw [List.getD_eq_getElem _ false (by simpa using hr)]
      simp [hi, hr]
    · rw [List.getD_eq_default _ _ (by simpa using hr)]
      simp [hr]
  · rw [List.getD_eq_default (List.map _ _) _ (by simpa using hi)]
    simp [hi]

theorem liveAfter_iff (V : VerifiedFunction) :
    ∃ after, liveAfter V.function = some after ∧
      ∀ i r : Nat, after.bit i r = true ↔ V.ReadAfter Reads onlyZero r i := by
  unfold liveAfter
  rw [if_pos]
  · refine ⟨_, rfl, fun i r => ?_⟩
    have hasked : (liveness V.function (max 1 V.function.maxRegisters).toNat readsRegister writesRegister
        (fallsOff V.function)).AskedAfter i r ↔ V.ReadAfter Reads onlyZero r i := by
      rw [← reads_eq]
      exact askedAfter_iff writesWell_writesRegister fun i r => fallsOff_iff
    rw [bit_map]
    constructor
    · rintro ⟨-, hr, hout⟩
      exact hasked.mp ((Backward.out_solve hr).mp hout)
    · intro h
      have hr : r < (max 1 V.function.maxRegisters).toNat := by
        have hlt : (r : Int) < max 1 V.function.maxRegisters := by
          rcases h with ⟨j, -, hread⟩ | ⟨-, hzero⟩
          · exact readFirst_lt (fun r hr => by rw [hr]; decide) hread
          · rw [hzero]
            omega
        omega
      refine ⟨?_, hr, (Backward.out_solve hr).mpr (hasked.mpr h)⟩
      rcases h with ⟨j, hj, -⟩ | ⟨hleaves, -⟩
      · obtain ⟨instr, hinstr, -⟩ := mem_successors.mp (mem_successors_iff.mpr hj)
        exact (List.getElem?_eq_some_iff.mp hinstr).1
      · have := hleaves.1
        omega
  · rw [List.all_eq_true]
    intro instr hmem
    rw [List.all_eq_true]
    intro id hid
    obtain ⟨i, hinstr⟩ := List.mem_iff_getElem?.mp hmem
    obtain ⟨j, hj⟩ := exists_labelIndex hinstr hid
    rw [hj]
    rfl

/-- A parameter is live on entry exactly when some path reads it before it is overwritten; a
register is live behind an instruction exactly when some path from there does, the end of the
function reading r0. -/
theorem liveness_exact (V : VerifiedFunction) :
    (∀ p : Nat, (findLiveParameters V.function)[p]? = some true ↔
      p < V.function.parameters.length ∧ V.ReadFirst Reads noReads p 0) ∧
        ∃ after, liveAfter V.function = some after ∧
      ∀ i r : Nat, after.bit i r = true ↔ V.ReadAfter Reads onlyZero r i := by
  refine ⟨fun p => ⟨fun h => ?_, fun h => (findLiveParameters_iff h.1).mpr h.2⟩, liveAfter_iff V⟩
  have hp := (List.getElem?_eq_some_iff.mp h).1
  rw [length_findLiveParameters] at hp
  exact ⟨hp, (findLiveParameters_iff hp).mp h⟩

/-- The loop reads its first parameter and not the second, and r2 is live from its load to the end
of the loop. -/
theorem liveness_exact_loop :
    maskLoop.ReadFirst Reads noReads 0 0 ∧
      ¬ maskLoop.ReadFirst Reads noReads 1 0 ∧ maskLoop.ReadAfter Reads onlyZero 2 3 ∧
      ¬ maskLoop.ReadAfter Reads onlyZero 2 4 := by
  obtain ⟨hparameters, after, hafter, hbits⟩ := liveness_exact maskLoop
  have htable : liveAfter maskLoopFunction = some [[true, false, true, false],
    [true, false, true, false],
    [true, false, true, true], [true, false, true, true], [true, false, false, false],
    [false, false, false, false]] := by decide +kernel
  obtain rfl := Option.some.inj (htable.symm.trans hafter)
  refine ⟨((hparameters 0).mp (by decide +kernel)).2, fun h => ?_, (hbits 3 2).mp (by decide),
    fun h => absurd ((hbits 4 2).mpr h) (by decide)⟩
  exact absurd ((hparameters 1).mpr ⟨by decide, h⟩) (by decide +kernel)

/-! ## 4. The end of a function -/

/-- `LOAD_NIL r0` and nothing after it. -/
def endlessFunction : IRFunction where
  name := "f"
  parameters := []
  instructions := [{ opcode := .loadNil, operands := [.reg 0] }]
  maxRegisters := 1

theorem accepted_endless : irVerify (some ⟨[], List.nodup_nil⟩) endlessFunction = .ok () := rfl

def endless : VerifiedFunction where
  function := endlessFunction
  strings := ⟨[], List.nodup_nil⟩
  named := by decide
  accepted := accepted_endless

/-- No instruction reads r0, and yet it is live behind the last one. -/
theorem liveAfter_end :
    liveAfter endless.function = some [[true]] ∧ ¬ endless.ReadAfter Reads noReads 0 0 := by
  refine ⟨by decide +kernel, ?_⟩
  rintro (⟨j, hj, -⟩ | ⟨-, hno⟩)
  · have hmem := mem_successors_iff.mpr hj
    have hnone : successors endless.function 0 = [] := by decide +kernel
    rw [hnone] at hmem
    cases hmem
  · exact hno

end VerifiedFunction

end Plan
