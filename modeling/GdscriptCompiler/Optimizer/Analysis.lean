import GdscriptCompiler.Optimizer.Executing

/-!
# Analysis — `IROptimizer::analysis`

The verifier's blocks, except that labels are looked up by `string_id`.
-/

namespace Optimizer

open Ir Lib

/-- `label_index`: the first LABEL of that id. -/
def labelIndex (f : IRFunction) (id : Nat) : Option Nat :=
  f.instructions.findIdx? fun instr =>
    hasEffect instr.opcode .label && instr.operands.head?.any fun operand => operand.stringId = id

def successors (f : IRFunction) (b : Nat) (last : IRInstruction) : List Nat :=
  -- the operand of a LABEL names itself
  (if hasEffect last.opcode .label then []
    else last.operands.filterMap fun
      | .label id => (labelIndex f id).map f.blockOf
      | _ => none) ++
    if !hasEffect last.opcode .terminator && b + 1 < f.leaders.length then [b + 1] else []

/-- `analysis(func).blocks`. -/
def analysisBlocks (f : IRFunction) : List BasicBlock :=
  f.leaders.zipIdx.map fun (start, b) =>
    let stop := f.leaders.getD (b + 1) f.instructions.length
    { start, stop, successors := (f.instructions[stop - 1]?.map (successors f b)).getD [] }

def codeOf (f : IRFunction) (block : BasicBlock) : List IRInstruction :=
  (block.instructions f).map Prod.fst

def blockCode (f : IRFunction) (b : Nat) : List IRInstruction :=
  ((analysisBlocks f)[b]?.map (codeOf f)).getD []

def blockSuccessors (f : IRFunction) (b : Nat) : List Nat :=
  ((analysisBlocks f)[b]?.map BasicBlock.successors).getD []

def codeBefore (f : IRFunction) (k : Nat) : List IRInstruction :=
  ((analysisBlocks f)[f.blockOf k]?.map fun block => (block.before f k).map Prod.fst).getD []

/-! ## 1. Places in a block -/

section Places

variable {f : IRFunction} {k : Nat} {instr : IRInstruction}

theorem getElem?_analysisBlocks (f : IRFunction) (b : Nat) :
    (analysisBlocks f)[b]? = (f.blocks none)[b]?.map fun block =>
      { block with
        successors := (f.instructions[block.stop - 1]?.map (successors f b)).getD [] } := by
  unfold analysisBlocks IRFunction.blocks
  simp only [List.getElem?_map, List.getElem?_zipIdx, Option.map_map]
  cases f.leaders[b]? with
  | none => rfl
  | some start => simp

theorem exists_block (f : IRFunction) (hk : k < f.instructions.length) :
    ∃ block, InBlock none f k block ∧ codeBefore f k = (block.before f k).map Prod.fst ∧
      blockCode f (f.blockOf k) = (block.before f block.stop).map Prod.fst ∧
      ∀ last, f.instructions[block.stop - 1]? = some last →
        blockSuccessors f (f.blockOf k) = successors f (f.blockOf k) last := by
  obtain ⟨block, hblock⟩ := exists_inBlock none f hk
  have hfound := getElem?_analysisBlocks f (f.blockOf k)
  rw [hblock.found] at hfound
  refine ⟨block, hblock, ?_, ?_, fun last hlast => ?_⟩
  · unfold codeBefore
    rw [hfound]
    rfl
  · unfold blockCode
    rw [hfound]
    rfl
  · unfold blockSuccessors
    rw [hfound]
    change ((f.instructions[block.stop - 1]?.map (successors f (f.blockOf k))).getD []) = _
    rw [hlast]
    rfl

theorem codeBefore_leader (hk : k < f.instructions.length) (hleader : f.isLeader k = true) :
    codeBefore f k = [] := by
  obtain ⟨block, hblock, hbefore, -⟩ := exists_block f hk
  rw [hbefore, ← hblock.start_eq hleader, before_start]
  rfl

section

variable (hinstr : f.instructions[k]? = some instr)
include hinstr

theorem codeBefore_succ (hk : k + 1 < f.instructions.length)
    (hleader : f.isLeader (k + 1) = false) :
    codeBefore f (k + 1) = codeBefore f k ++ [instr] := by
  obtain ⟨block, hblock, hbefore, -⟩ := exists_block f (Nat.lt_of_succ_lt hk)
  have hfound := getElem?_analysisBlocks f (f.blockOf (k + 1))
  rw [(hblock.succ hk hleader).found] at hfound
  rw [hbefore]
  unfold codeBefore
  rw [hfound]
  change (block.before f (k + 1)).map Prod.fst = _
  rw [before_succ hblock.start_le hinstr, List.map_append]
  rfl

theorem blockCode_end (hend : k + 1 = f.instructions.length ∨ f.isLeader (k + 1) = true) :
    blockCode f (f.blockOf k) = codeBefore f k ++ [instr] ∧
      blockSuccessors f (f.blockOf k) = successors f (f.blockOf k) instr := by
  obtain ⟨block, hblock, hbefore, hcode, hsuccs⟩ :=
    exists_block f (List.getElem?_eq_some_iff.mp hinstr).1
  have hstop := hblock.stop_eq hend
  rw [hcode, hbefore, hstop, before_succ hblock.start_le hinstr, List.map_append]
  refine ⟨rfl, hsuccs instr ?_⟩
  rw [hstop]
  exact hinstr

theorem blockCode_split :
    ∃ after, blockCode f (f.blockOf k) = codeBefore f k ++ instr :: after := by
  obtain ⟨block, hblock, hbefore, hcode, -⟩ := exists_block f (List.getElem?_eq_some_iff.mp hinstr).1
  obtain ⟨after, hsplit⟩ := hblock.instructions_eq hinstr
  refine ⟨after.map Prod.fst, ?_⟩
  rw [hcode, hbefore, ← instructions_eq_before, hsplit, List.map_append]
  rfl

end

end Places

/-! ## 2. The blocks make up the code -/

-- cutting a list at increasing places loses nothing
theorem flatMap_slices {α : Type} (xs : List α) {cuts : List Nat} (hsorted : cuts.Pairwise (· < ·))
    (hle : ∀ a ∈ cuts, a ≤ xs.length) (j : Nat) {a : Nat} {rest : List Nat}
    (hrest : cuts.drop j = a :: rest) :
    (((a :: rest).zipIdx j).flatMap fun (a, b) => (xs.take (cuts.getD (b + 1) xs.length)).drop a) =
      xs.drop a := by
  induction rest generalizing j a with
  | nil =>
    have hnone : cuts.getD (j + 1) xs.length = xs.length := by
      have hlen := congrArg List.length hrest
      rw [List.length_drop, List.length_singleton] at hlen
      rw [List.getD_eq_getElem?_getD, List.getElem?_eq_none (by omega)]
      rfl
    rw [List.zipIdx_singleton, List.flatMap_singleton]
    dsimp only
    rw [hnone, List.take_length]
  | cons c rest ih =>
    have htail : cuts.drop (j + 1) = c :: rest := by
      rw [← List.tail_drop, hrest]
      rfl
    have hget : cuts.getD (j + 1) xs.length = c := by
      rw [List.getD_eq_getElem?_getD, ← List.head?_drop, htail]
      rfl
    have hac : a < c := by
      have hpair := hsorted.sublist (List.drop_sublist j cuts)
      rw [hrest] at hpair
      exact List.rel_of_pairwise_cons hpair (List.mem_cons_self ..)
    have hc : c ≤ xs.length := hle c (List.mem_of_mem_drop (htail ▸ List.mem_cons_self ..))
    rw [List.zipIdx_cons, List.flatMap_cons, ih (j + 1) htail]
    dsimp only
    rw [hget, ← List.drop_append_of_le_length, List.take_append_drop]
    rw [List.length_take]
    omega

theorem leaders_sorted (f : IRFunction) : f.leaders.Pairwise (· < ·) :=
  List.Pairwise.filter _ List.pairwise_lt_range

theorem flatMap_blocks (f : IRFunction) :
    (analysisBlocks f).flatMap (BasicBlock.instructions f) = f.instructions.zipIdx := by
  unfold analysisBlocks
  rw [List.flatMap_map]
  have hle : ∀ a ∈ f.leaders, a ≤ f.instructions.zipIdx.length := by
    intro a ha
    rw [List.length_zipIdx]
    exact Nat.le_of_lt (List.mem_range.mp (List.mem_of_mem_filter ha))
  cases hleaders : f.leaders with
  | nil =>
    have hempty : f.instructions = [] := by
      by_contra hne
      have hmem : 0 ∈ f.leaders :=
        List.mem_filter.mpr ⟨List.mem_range.mpr (List.length_pos_iff.mpr hne), f.isLeader_zero⟩
      rw [hleaders] at hmem
      cases hmem
    rw [hempty]
    rfl
  | cons a rest =>
    have hzero : a = 0 := by
      have hpos : 0 < f.instructions.length := by
        have := List.mem_of_mem_filter (hleaders ▸ List.mem_cons_self .. : a ∈ f.leaders)
        exact Nat.zero_lt_of_lt (List.mem_range.mp this)
      have hmem : 0 ∈ f.leaders := List.mem_filter.mpr ⟨List.mem_range.mpr hpos, f.isLeader_zero⟩
      have hsorted := leaders_sorted f
      rw [hleaders] at hmem hsorted
      rcases List.mem_cons.mp hmem with heq | htail
      · exact heq.symm
      · exact absurd (List.rel_of_pairwise_cons hsorted htail) (Nat.not_lt_zero _)
    have h := flatMap_slices f.instructions.zipIdx (leaders_sorted f) hle 0
      (List.drop_zero.trans hleaders)
    rw [List.length_zipIdx, hzero, List.drop_zero] at h
    rw [← h, hleaders, hzero]
    rfl

variable {f : IRFunction}

theorem blockOf_of_between {b start k : Nat} (hstart : f.leaders[b]? = some start) (hle : start ≤ k)
    (hlt : k < f.leaders.getD (b + 1) f.instructions.length) (hk : k < f.instructions.length) :
    f.blockOf k = b := by
  have hsplit := f.leaders_split hk
  have hlater : ∀ a ∈ (List.range' (k + 1) (f.instructions.length - (k + 1))).filter f.isLeader,
    k < a := by
    intro a ha
    have := List.mem_range'_1.mp (List.mem_of_mem_filter ha)
    omega
  have hearlier : ∀ a ∈ f.leadersTo k, a ≤ k := by
    intro a ha
    have := List.mem_range.mp (List.mem_of_mem_filter ha)
    omega
  have hge : b < (f.leadersTo k).length := by
    by_contra hge
    rw [hsplit, List.getElem?_append_right (by omega)] at hstart
    have := hlater start (List.mem_of_getElem? hstart)
    omega
  have hlast : (f.leadersTo k).length ≤ b + 1 := by
    by_contra hlast
    rw [hsplit, List.getD_eq_getElem?_getD, List.getElem?_append_left (by omega),
      List.getElem?_eq_getElem (by omega)] at hlt
    have := hearlier _ (List.getElem_mem (show b + 1 < (f.leadersTo k).length by omega))
    rw [Option.getD_some] at hlt
    omega
  rw [f.blockOf_eq]
  omega

theorem block_member {b : Nat} {block : BasicBlock} (hblock : (analysisBlocks f)[b]? = some block)
    {before after : List (IRInstruction × Nat)} {instr : IRInstruction} {k : Nat}
    (hsplit : block.instructions f = before ++ (instr, k) :: after) :
    f.instructions[k]? = some instr ∧ f.blockOf k = b ∧ codeBefore f k = before.map Prod.fst := by
  have hfound := hblock
  unfold analysisBlocks at hblock
  rw [List.getElem?_map] at hblock
  obtain ⟨⟨start, b'⟩, hstart, rfl⟩ := Option.map_eq_some_iff.mp hblock
  rw [List.getElem?_zipIdx] at hstart
  obtain ⟨start', hleader, heq⟩ := Option.map_eq_some_iff.mp hstart
  cases heq
  rw [Nat.zero_add] at hsplit hfound
  have hat : ((f.instructions.zipIdx.take (f.leaders.getD (b + 1) f.instructions.length)).drop
    start)[before.length]?
      = some (instr, k) := by
    rw [show (f.instructions.zipIdx.take (f.leaders.getD (b + 1) f.instructions.length)).drop start =
      before ++ (instr, k) :: after from hsplit]
    simp
  rw [List.getElem?_drop, List.getElem?_take] at hat
  split at hat
  · rename_i hlt
    rw [List.getElem?_zipIdx] at hat
    obtain ⟨i, hinstr, heq⟩ := Option.map_eq_some_iff.mp hat
    cases heq
    rw [Nat.zero_add] at hsplit ⊢
    have hk := (List.getElem?_eq_some_iff.mp hinstr).1
    have hb := blockOf_of_between hleader (Nat.le_add_right _ _) hlt hk
    refine ⟨hinstr, hb, ?_⟩
    unfold codeBefore
    rw [hb, hfound]
    change (((f.instructions.zipIdx.take (start + before.length)).drop start).map Prod.fst) = _
    congr 1
    have htake :
        (((f.instructions.zipIdx.take (f.leaders.getD (b + 1) f.instructions.length)).drop
          start).take before.length) = before := by
      rw [show (f.instructions.zipIdx.take (f.leaders.getD (b + 1) f.instructions.length)).drop start =
        before ++ (instr, start + before.length) :: after from hsplit]
      exact List.take_left
    refine Eq.trans ?_ htake
    rw [List.take_drop, List.take_take, Nat.min_eq_left (Nat.le_of_lt hlt)]
  · cases hat

theorem exists_last {b : Nat} (hb : b < f.leaders.length) :
    ∃ k instr, f.instructions[k]? = some instr ∧ f.blockOf k = b ∧
      (k + 1 = f.instructions.length ∧ b + 1 = f.leaders.length ∨
        k + 1 < f.instructions.length ∧ f.isLeader (k + 1) = true) := by
  have hstart : f.leaders[b]? = some f.leaders[b] := List.getElem?_eq_getElem hb
  have hlead (a : Nat) (ha : a ∈ f.leaders) : a < f.instructions.length ∧ f.isLeader a = true := by
    obtain ⟨hrange, hleader⟩ := List.mem_filter.mp ha
    exact ⟨List.mem_range.mp hrange, hleader⟩
  obtain ⟨hlt, -⟩ := hlead _ (List.getElem_mem hb)
  by_cases hnext : b + 1 < f.leaders.length
  · obtain ⟨hlt', hleader⟩ := hlead _ (List.getElem_mem hnext)
    have hsorted : f.leaders[b] < f.leaders[b + 1] :=
      List.pairwise_iff_getElem.mp (leaders_sorted f) b (b + 1) hb hnext (Nat.lt_succ_self b)
    have hstop : f.leaders.getD (b + 1) f.instructions.length = f.leaders[b + 1] := by
      rw [List.getD_eq_getElem?_getD, List.getElem?_eq_getElem hnext]
      rfl
    have hsucc : f.leaders[b + 1] - 1 + 1 = f.leaders[b + 1] := by omega
    refine ⟨f.leaders[b + 1] - 1, f.instructions[f.leaders[b + 1] - 1], List.getElem?_eq_getElem _,
      blockOf_of_between hstart (by omega) (by omega) (by omega), .inr ?_⟩
    rw [hsucc]
    exact ⟨hlt', hleader⟩
  · have hstop : f.leaders.getD (b + 1) f.instructions.length = f.instructions.length := by
      rw [List.getD_eq_getElem?_getD, List.getElem?_eq_none (by omega)]
      rfl
    exact ⟨f.instructions.length - 1, f.instructions[f.instructions.length - 1],
      List.getElem?_eq_getElem _,
      blockOf_of_between hstart (by omega) (by omega) (by omega), .inl ⟨by omega, by omega⟩⟩

/-! ## 3. Edges -/

variable {strings : StringTable}

variable {id : Nat} {target : IRInstruction}

section Edges

variable {f : IRFunction} {k : Nat} {instr : IRInstruction}

theorem isLeader_of_labelName {name : String} (hinstr : f.instructions[k]? = some instr)
    (hlabel : instr.labelName strings = some name) :
    f.isLeader k = true := by
  unfold IRFunction.isLeader
  rw [hinstr, Option.any_some, hasEffect_label_iff.mpr (opcode_of_labelName hlabel)]
  simp

theorem edge_next (hinstr : f.instructions[k]? = some instr) (hk : k + 1 < f.instructions.length)
    (hleader : f.isLeader (k + 1) = true) (hterm : hasEffect instr.opcode .terminator = false) :
    f.blockOf (k + 1) ∈ blockSuccessors f (f.blockOf k) := by
  have hsucc := f.blockOf_succ_of_leader hleader
  have hlt := blockOf_lt hk
  rw [hsucc] at hlt
  rw [(blockCode_end hinstr (.inr hleader)).2, hsucc]
  unfold successors
  rw [hterm, decide_eq_true hlt]
  exact List.mem_append_right _ (List.mem_singleton_self _)

theorem labelIndex_lt {t : Nat} (h : labelIndex f id = some t) : t < f.instructions.length := by
  obtain ⟨hlt, -⟩ := List.findIdx?_eq_some_iff_getElem.mp h
  exact hlt

theorem labelIndex_spec (hf : Runnable strings f) {t : Nat} (h : labelIndex f id = some t) :
    ∃ target, f.instructions[t]? = some target ∧
      target.labelName strings = some (strings.nameOf id) := by
  obtain ⟨hlt, hat, -⟩ := List.findIdx?_eq_some_iff_getElem.mp h
  obtain ⟨hop, hid⟩ := Bool.and_eq_true_iff.mp hat
  refine ⟨f.instructions[t], List.getElem?_eq_getElem hlt, ?_⟩
  have hlabel : f.instructions[t].opcode = .label := hasEffect_label_iff.mp hop
  obtain ⟨id', hops⟩ := (hf.fits _ (List.getElem_mem hlt)).lbl
    (signature_of hlabel)
  rw [hops] at hid
  unfold IRInstruction.labelName
  rw [hlabel, hops]
  exact congrArg (fun id => some (strings.nameOf id)) (of_decide_eq_true hid)

theorem labelIndex_eq (hf : Runnable strings f) (hnames : LabelsInterned strings f)
    (hmem : instr ∈ f.instructions) (hid : .label id ∈ instr.operands) {j : Nat}
    (htarget : f.instructions[j]? = some target)
    (hlabel : target.labelName strings = some (strings.nameOf id)) :
    labelIndex f id = some j := by
  have hop (instr : IRInstruction) (hmem : instr ∈ f.instructions) (hop : instr.opcode = .label) :
      ∃ id', instr.operands = [.label id'] :=
    (hf.fits instr hmem).lbl (signature_of hop)
  have hat : (hasEffect target.opcode .label &&
    target.operands.head?.any fun operand => operand.stringId = id)
      = true := by
    have htop := opcode_of_labelName hlabel
    obtain ⟨id', hops⟩ := hop target (List.mem_of_getElem? htarget) htop
    have hsame : id' = id := by
      unfold IRInstruction.labelName at hlabel
      rw [htop, hops] at hlabel
      exact StringTable.nameOf_inj (hnames target (List.mem_of_getElem? htarget) id' (by simp [hops]))
        (hnames instr hmem id hid) (Option.some.inj hlabel)
    rw [htop, hops, hsame]
    simp [IRValue.stringId, hasEffect_label_iff]
  cases hfind : labelIndex f id with
  | none =>
    have hnone := List.findIdx?_eq_none_iff.mp hfind target (List.mem_of_getElem? htarget)
    rw [hat] at hnone
    cases hnone
  | some t =>
    obtain ⟨first, hfirst, hname⟩ := labelIndex_spec hf hfind
    rw [hf.label_index hfirst htarget hname hlabel]

end Edges

/-! ## 4. Steps -/

/-- Where a step from instruction `k` can lead: on in the same block, or from its end to the start
of a successor. -/
inductive Moves (f : IRFunction) (k : Nat) : Nat → Prop
  | inside (hleader : f.isLeader (k + 1) = false) : Moves f k (k + 1)
  | edge {j : Nat} (hend : f.isLeader (k + 1) = true) (hleader : f.isLeader j = true)
      (hj : f.blockOf j ∈ blockSuccessors f (f.blockOf k)) : Moves f k j

section Steps

variable {f : IRFunction} {k : Nat} {instr : IRInstruction}

theorem moves_next (hinstr : f.instructions[k]? = some instr) (hk : k + 1 < f.instructions.length)
    (hterm : hasEffect instr.opcode .terminator = false) :
    Moves f k (k + 1) := by
  cases hleader : f.isLeader (k + 1) with
  | false => exact .inside hleader
  | true => exact .edge hleader hleader (edge_next hinstr hk hleader hterm)

theorem moves_goto (hf : Runnable strings f) (hnames : LabelsInterned strings f)
    (hinstr : f.instructions[k]? = some instr) (hop : instr.opcode ≠ .label)
    (hid : .label id ∈ instr.operands) {j : Nat} (htarget : f.instructions[j]? = some target)
    (hlabel : target.labelName strings = some (strings.nameOf id)) :
    Moves f k j := by
  have hmem := List.mem_of_getElem? hinstr
  have heffect : hasEffect instr.opcode .label = false :=
    Bool.eq_false_iff.mpr fun h => hop (hasEffect_label_iff.mp h)
  have htarget' : strings.nameOf id ∈ instr.labelTargets (some strings) := mem_labelTargets heffect hid
  have hleader := isLeader_succ hinstr (endsBlock_of_labelTargets (hf.fits instr hmem) htarget')
  refine .edge hleader (isLeader_of_labelName htarget hlabel) ?_
  rw [(blockCode_end hinstr (.inr hleader)).2]
  unfold successors
  rw [heffect]
  refine List.mem_append_left _ (List.mem_filterMap.mpr ⟨.label id, hid, ?_⟩)
  change (labelIndex f id).map f.blockOf = _
  rw [labelIndex_eq hf hnames hmem hid htarget hlabel]
  rfl

variable {E : Env} {fr fr' : Frame} {os : List Observation} {flow : Exit String Value}

-- what falls through is no terminator
theorem not_terminator (h : execute E instr fr = some (os, fr', .next)) :
    hasEffect instr.opcode .terminator = false := by
  rw [Bool.eq_false_iff]
  intro hterm
  rcases terminator_cases hterm with hop | hop
  · obtain ⟨e, hdenote, hfinish⟩ := execute_finish h (by rw [hop]; decide)
    have hflow : e.flow = .next := congrArg (fun out => out.2.2) hfinish
    rw [hop] at hdenote
    unfold denote at hdenote
    dsimp only at hdenote
    split at hdenote
    · cases hdenote
      cases hflow
    · cases hdenote
  · cases (execute_return h hop).2.2

theorem not_label_of_branch (h : instr.opcode ∈ branchOpcodes) : instr.opcode ≠ .label := by
  intro hop
  rw [hop] at h
  revert h
  decide

/-- Every step stays in its block or follows an edge. -/
theorem moves_execute (hf : Runnable E.program.strings f)
    (hnames : LabelsInterned E.program.strings f) (hinstr : f.instructions[k]? = some instr)
    (hexec : execute E instr fr = some (os, fr', flow)) :
    LandedAt (machine E).labelOf f.instructions (fun j _ => j < f.instructions.length → Moves f k j)
      k fr' flow := by
  cases flow with
  | ret v => trivial
  | next => exact fun hk => moves_next hinstr hk (not_terminator hexec)
  | goto l =>
    intro j target htarget hlabel _
    obtain ⟨hbranch, id, hid, hname⟩ := label_of_goto hexec
    rw [← hname] at hlabel
    exact moves_goto hf hnames hinstr (not_label_of_branch hbranch) hid htarget hlabel

end Steps

end Optimizer
