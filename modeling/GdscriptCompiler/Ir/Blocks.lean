import GdscriptCompiler.Ir.Verifier
import GdscriptCompiler.Lib.Checks

/-! # Blocks — where an instruction stands in its basic block -/

namespace Ir

open Lib

variable {i : Nat}

namespace IRFunction

variable (f : IRFunction)

theorem isLeader_zero : f.isLeader 0 = true := by
  simp [isLeader]

-- the leaders up to and including `i`
def leadersTo (i : Nat) : List Nat := (List.range (i + 1)).filter f.isLeader

theorem leadersTo_succ (i : Nat) :
    f.leadersTo (i + 1) = f.leadersTo i ++ if f.isLeader (i + 1) then [i + 1] else [] := by
  unfold leadersTo
  rw [List.range_succ, List.filter_append, List.filter_singleton]
  split <;> simp_all

theorem leadersTo_last (i : Nat) :
    ∃ before start, f.leadersTo i = before ++ [start] ∧ start ≤ i ∧
      f.isLeader start = true ∧ ∀ j, start < j → j ≤ i → f.isLeader j = false := by
  induction i with
  | zero =>
    refine ⟨[], 0, ?_, Nat.le_refl 0, f.isLeader_zero, fun j hj hj' => by omega⟩
    unfold leadersTo
    rw [List.range_one, List.filter_singleton, f.isLeader_zero]
    rfl
  | succ i ih =>
    obtain ⟨before, start, hlist, hle, hleader, hnone⟩ := ih
    rw [leadersTo_succ]
    by_cases hnext : f.isLeader (i + 1) = true
    · rw [if_pos hnext]
      exact ⟨f.leadersTo i, i + 1, rfl, Nat.le_refl _, hnext, fun j hj hj' => by omega⟩
    · rw [if_neg hnext, List.append_nil]
      refine ⟨before, start, hlist, by omega, hleader, fun j hj hj' => ?_⟩
      by_cases hji : j = i + 1
      · rw [hji]
        exact Bool.eq_false_iff.mpr hnext
      · exact hnone j hj (by omega)

theorem blockOf_eq (i : Nat) : f.blockOf i = (f.leadersTo i).length - 1 := by
  unfold blockOf leadersTo
  rw [List.countP_eq_length_filter]

theorem leadersTo_length_pos (i : Nat) : 0 < (f.leadersTo i).length := by
  obtain ⟨before, start, hlist, -⟩ := f.leadersTo_last i
  rw [hlist]
  simp

theorem blockOf_zero : f.blockOf 0 = 0 := by
  rw [blockOf_eq]
  have : (f.leadersTo 0).length ≤ 1 := by
    unfold leadersTo
    exact (List.length_filter_le _ _).trans (by simp)
  omega

theorem blockOf_succ_of_leader (h : f.isLeader (i + 1) = true) :
    f.blockOf (i + 1) = f.blockOf i + 1 := by
  have hpos := f.leadersTo_length_pos i
  rw [blockOf_eq, blockOf_eq, leadersTo_succ, if_pos h, List.length_append, List.length_singleton]
  omega

theorem blockOf_succ_of_not_leader (h : f.isLeader (i + 1) = false) :
    f.blockOf (i + 1) = f.blockOf i := by
  rw [blockOf_eq, blockOf_eq, leadersTo_succ, if_neg (by rw [h]; exact Bool.false_ne_true),
    List.append_nil]

theorem leaders_split (hi : i < f.instructions.length) :
    f.leaders = f.leadersTo i ++
      (List.range' (i + 1) (f.instructions.length - (i + 1))).filter f.isLeader := by
  unfold leaders leadersTo
  rw [← List.filter_append]
  congr 1
  have happend : List.range' 0 (i + 1) ++ List.range' (0 + (i + 1)) (f.instructions.length - (i + 1)) =
        List.range' 0 (i + 1 + (f.instructions.length - (i + 1))) := List.range'_append_1
  rw [Nat.zero_add, show i + 1 + (f.instructions.length - (i + 1)) = f.instructions.length by omega]
    at happend
  rw [List.range_eq_range', List.range_eq_range', happend]

-- The next leader after `i`, or the end of the code.
theorem nextLeader (hi : i < f.instructions.length) :
    ∃ stop, f.leaders.getD (f.leadersTo i).length f.instructions.length = stop ∧ i < stop ∧
      stop ≤ f.instructions.length ∧ (stop < f.instructions.length → f.isLeader stop = true) ∧
      ∀ j, i < j → j < stop → f.isLeader j = false := by
  refine ⟨_, rfl, ?_⟩
  rw [f.leaders_split hi, List.getD_eq_getElem?_getD, List.getElem?_append_right (Nat.le_refl _),
    Nat.sub_self, ← List.head?_eq_getElem?, List.head?_filter]
  cases hfind : (List.range' (i + 1) (f.instructions.length - (i + 1))).find? f.isLeader with
  | none =>
    rw [Option.getD_none]
    refine ⟨hi, Nat.le_refl _, fun h => absurd h (Nat.lt_irrefl _), fun j hj hj' => ?_⟩
    have hnone := List.find?_eq_none.mp hfind j (List.mem_range'_1.mpr (by omega))
    exact Bool.eq_false_iff.mpr hnone
  | some stop =>
    rw [Option.getD_some]
    obtain ⟨hleader, hmem, hfirst⟩ := List.find?_range'_eq_some.mp hfind
    have hbounds := List.mem_range'_1.mp hmem
    refine ⟨by omega, by omega, fun _ => hleader, fun j hj hj' => ?_⟩
    have hnot := hfirst j (by omega) hj'
    exact Bool.eq_false_iff.mpr (by simpa using hnot)

end IRFunction

/-- `block` is block `b`, and instruction `i` lies in it. -/
structure InBlock (strings : Option StringTable) (f : IRFunction) (i : Nat) (block : BasicBlock) :
    Prop where
  found : (f.blocks strings)[f.blockOf i]? = some block
  start_le : block.start ≤ i
  lt_stop : i < block.stop
  stop_le : block.stop ≤ f.instructions.length
  leader : f.isLeader block.start = true
  inside : ∀ j, block.start < j → j < block.stop → f.isLeader j = false
  stop_leader : block.stop < f.instructions.length → f.isLeader block.stop = true
  successors : ∀ last, f.instructions[block.stop - 1]? = some last →
    block.successors = f.successorsOf strings (f.blockOf i) last

theorem exists_inBlock (strings : Option StringTable) (f : IRFunction)
    (hi : i < f.instructions.length) :
    ∃ block, InBlock strings f i block := by
  obtain ⟨before, start, hlist, hle, hleader, hnone⟩ := f.leadersTo_last i
  obtain ⟨stop, hstop, hlt, hstople, hstopleader, hnone'⟩ := f.nextLeader hi
  have hlen : (f.leadersTo i).length = before.length + 1 := by
    rw [hlist]
    simp
  have hb : f.blockOf i = before.length := by
    rw [f.blockOf_eq, hlen]
    omega
  have hfound : f.leaders[before.length]? = some start := by
    rw [f.leaders_split hi, hlist, List.append_assoc, List.getElem?_append_right (Nat.le_refl _),
      Nat.sub_self]
    rfl
  refine ⟨⟨start, stop, (f.instructions[stop - 1]?.map (f.successorsOf strings (f.blockOf i))).getD []⟩,
    ⟨?_, hle, hlt, hstople, hleader, ?_, hstopleader, ?_⟩⟩
  · unfold IRFunction.blocks
    rw [List.getElem?_map, List.getElem?_zipIdx, hb, hfound]
    simp only [Option.map_some, Nat.zero_add]
    rw [← hlen, hstop]
  · intro j hj hj'
    by_cases hji : j ≤ i
    · exact hnone j hj hji
    · exact hnone' j (by omega) hj'
  · intro last hlast
    dsimp only at hlast
    rw [hlast]
    rfl

section InBlock

variable {strings : Option StringTable} {f : IRFunction} {i : Nat} {block : BasicBlock}

section

variable (h : InBlock strings f i block)
include h

-- A leader starts its own block.
theorem InBlock.start_eq (hi : f.isLeader i = true) : block.start = i := by
  by_contra hne
  have hle := h.start_le
  have hnot := h.inside i (by omega) h.lt_stop
  rw [hi] at hnot
  cases hnot

-- The last instruction of a block is the one before the next leader or before the end.
theorem InBlock.stop_eq (hi : i + 1 = f.instructions.length ∨ f.isLeader (i + 1) = true) :
    block.stop = i + 1 := by
  have hlt := h.lt_stop
  have hle := h.stop_le
  have hstart := h.start_le
  rcases hi with hi | hi
  · omega
  · by_contra hne
    have hnot := h.inside (i + 1) (by omega) (by omega)
    rw [hi] at hnot
    cases hnot

theorem InBlock.succ (hi : i + 1 < f.instructions.length) (hnot : f.isLeader (i + 1) = false) :
    InBlock strings f (i + 1) block where
  found := by
    rw [f.blockOf_succ_of_not_leader hnot]
    exact h.found
  start_le := h.start_le.trans (Nat.le_succ i)
  lt_stop := by
    have hlt := h.lt_stop
    by_contra hge
    have hstop : block.stop = i + 1 := by omega
    have hleader := h.stop_leader (by omega)
    rw [hstop, hnot] at hleader
    cases hleader
  stop_le := h.stop_le
  leader := h.leader
  inside := h.inside
  stop_leader := h.stop_leader
  successors := by
    rw [f.blockOf_succ_of_not_leader hnot]
    exact h.successors

end

def BasicBlock.before (f : IRFunction) (block : BasicBlock) (i : Nat) :
    List (IRInstruction × Nat) :=
  (f.instructions.zipIdx.take i).drop block.start

theorem before_start (f : IRFunction) (block : BasicBlock) : block.before f block.start = [] := by
  unfold BasicBlock.before
  apply List.drop_eq_nil_of_le
  exact (List.length_take_le _ _)

variable {instr : IRInstruction}

theorem before_succ (hstart : block.start ≤ i) (hinstr : f.instructions[i]? = some instr) :
    block.before f (i + 1) = block.before f i ++ [(instr, i)] := by
  have hi : i < f.instructions.length := (List.getElem?_eq_some_iff.mp hinstr).1
  unfold BasicBlock.before
  rw [List.take_add_one, List.getElem?_zipIdx, hinstr]
  rw [List.drop_append_of_le_length]
  · simp
  · rw [List.length_take, List.length_zipIdx]
    omega

theorem InBlock.instructions_eq (h : InBlock strings f i block)
    (hinstr : f.instructions[i]? = some instr) :
    ∃ after, block.instructions f = block.before f i ++ (instr, i) :: after := by
  have hlt := h.lt_stop
  have hstart := h.start_le
  refine ⟨(f.instructions.zipIdx.take block.stop).drop (i + 1), ?_⟩
  have hi : i < f.instructions.length := (List.getElem?_eq_some_iff.mp hinstr).1
  have hsplit : f.instructions.zipIdx.take block.stop = f.instructions.zipIdx.take (i + 1) ++
      (f.instructions.zipIdx.take block.stop).drop (i + 1) := by
    have htake : (f.instructions.zipIdx.take block.stop).take (i + 1) = f.instructions.zipIdx.take
      (i + 1) := by
      rw [List.take_take]
      congr 1
      omega
    rw [← htake]
    exact (List.take_append_drop _ _).symm
  unfold BasicBlock.instructions
  rw [hsplit, List.drop_append_of_le_length]
  · change block.before f (i + 1) ++ _ = _
    rw [before_succ hstart hinstr, List.append_assoc, ← hsplit]
    rfl
  · rw [List.length_take, List.length_zipIdx]
    omega

theorem instructions_eq_before (f : IRFunction) (block : BasicBlock) :
    block.instructions f = block.before f block.stop := rfl

end InBlock

end Ir
