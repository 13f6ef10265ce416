import GdscriptCompiler.Optimizer.Analysis

/-! # Unreachable — `IROptimizer::eliminate_unreachable_code` -/

namespace Optimizer

open Ir Lib

/-! ## 1. The pass -/

/-- A mark is all there is to a block's state, and it never changes. -/
def markFlow (f : IRFunction) : Flow Unit where
  succs := blockSuccessors f
  transfer _ mark := mark
  merge mark _ := (mark, false)

/-- `reachable[b]` when the worklist, a stack, is empty. -/
def reachable (f : IRFunction) (b : Nat) : Bool :=
  ((markFlow f).solve .lifo (analysisBlocks f).length 0 ()).any fun w => (w.entry b).isSome

def eliminateUnreachableCode (f : IRFunction) : IRFunction :=
  if (analysisBlocks f).isEmpty then f
  else { f with instructions := (analysisBlocks f).zipIdx.flatMap fun (block, b) =>
    if reachable f b then codeOf f block else [] }

/-! ## 2. The marks -/

variable {b : Nat}

section Marks

variable {f : IRFunction}

theorem length_analysisBlocks (f : IRFunction) : (analysisBlocks f).length = f.leaders.length := by
  unfold analysisBlocks
  rw [List.length_map, List.length_zipIdx]

theorem successors_lt {c : Nat} {last : IRInstruction} (h : c ∈ successors f b last) :
    c < f.leaders.length := by
  unfold successors at h
  rcases List.mem_append.mp h with hgoto | hnext
  · split at hgoto
    · cases hgoto
    · obtain ⟨operand, -, hc⟩ := List.mem_filterMap.mp hgoto
      cases operand with
      | label id =>
        obtain ⟨t, ht, rfl⟩ := Option.map_eq_some_iff.mp hc
        exact blockOf_lt (labelIndex_lt ht)
      | _ => cases hc
  · split at hnext
    · rename_i hlast
      rw [List.mem_singleton.mp hnext]
      exact of_decide_eq_true (Bool.and_eq_true_iff.mp hlast).2
    · cases hnext

theorem blockSuccessors_lt {c : Nat} (h : c ∈ blockSuccessors f b) :
    c < (analysisBlocks f).length := by
  rw [length_analysisBlocks]
  unfold blockSuccessors at h
  rw [getElem?_analysisBlocks, Option.map_map] at h
  cases hblock : (f.blocks none)[b]? with
  | none =>
    rw [hblock] at h
    cases h
  | some block =>
    rw [hblock] at h
    change c ∈ (f.instructions[block.stop - 1]?.map (successors f b)).getD [] at h
    cases hlast : f.instructions[block.stop - 1]? with
    | none =>
      rw [hlast] at h
      cases h
    | some last =>
      rw [hlast] at h
      exact successors_lt h

theorem markFlow_bounded (f : IRFunction) :
    (markFlow f).Bounded (analysisBlocks f).length 0 (fun _ => 0) fun _ => True where
  succs_lt _ _ _ hj := blockSuccessors_lt hj
  transfer_ok _ _ _ := trivial
  merge_ok _ _ _ _ := trivial
  height_le _ _ := Nat.le_refl 0
  merge_lt _ _ _ _ h := nomatch h

theorem markFlow_meets (f : IRFunction) : (markFlow f).Meets fun (_ _ : Unit) => True where
  left _ _ _ _ := trivial
  right _ _ _ _ := trivial
  same _ _ _ := rfl

/-- The marked blocks: the first one and with each its successors, and no others. -/
structure Marked (f : IRFunction) : Prop where
  first : reachable f 0 = true
  closed : ∀ b, reachable f b = true → ∀ c ∈ blockSuccessors f b, reachable f c = true
  reached : ∀ b, reachable f b = true → (markFlow f).Reach 0 b

theorem marked (hf : analysisBlocks f ≠ []) : Marked f := by
  obtain ⟨w, hw⟩ : ∃ w, (markFlow f).solve .lifo (analysisBlocks f).length 0 () = some w :=
    Flow.solve_isSome (markFlow_bounded f) (List.length_pos_iff.mpr hf) trivial
  have hreachable (b : Nat) : reachable f b = (w.entry b).isSome := by
    unfold reachable
    rw [hw]
    rfl
  obtain ⟨⟨mark, hfirst, -⟩, hsettled⟩ := Flow.solve_settled (markFlow_meets f) hw
  refine ⟨?_, fun b hb c hc => ?_, fun b hb => ?_⟩
  · rw [hreachable, hfirst]
    rfl
  · rw [hreachable] at hb ⊢
    obtain ⟨mark, hmark⟩ := Option.isSome_iff_exists.mp hb
    obtain ⟨mark', hmark', -⟩ := hsettled b mark hmark c hc
    rw [hmark']
    rfl
  · rw [hreachable] at hb
    exact Flow.solve_entered hw b (Option.isSome_iff_ne_none.mp hb)

end Marks

/-! ## 3. What is kept -/

def kept (f : IRFunction) (k : Nat) : Bool := reachable f (f.blockOf k)

variable {f : IRFunction}

theorem filter_block {block : BasicBlock} (hblock : (analysisBlocks f)[b]? = some block) :
    (block.instructions f).filter (fun (_, k) => kept f k) = if reachable f b then
      block.instructions f else [] := by
  have hkept (p : IRInstruction × Nat) (hp : p ∈ block.instructions f) : kept f p.2 = reachable f b := by
    obtain ⟨before, after, hsplit⟩ := List.append_of_mem hp
    unfold kept
    rw [(block_member hblock hsplit).2.1]
  rw [List.filter_congr hkept]
  cases reachable f b with
  | true => exact List.filter_true _
  | false => exact List.filter_false _

theorem eliminateUnreachableCode_instructions (f : IRFunction) :
    (eliminateUnreachableCode f).instructions = select (kept f) f.instructions := by
  have hblocks : (analysisBlocks f).zipIdx.flatMap
    (fun (block, b) => if reachable f b then codeOf f block else []) =
      select (kept f) f.instructions := by
    unfold select
    rw [← flatMap_blocks, List.filter_flatMap, List.map_flatMap]
    conv_rhs => rw [← List.zipIdx_map_fst 0 (analysisBlocks f), List.flatMap_map]
    refine List.flatMap_congr fun (block, b) hmem => ?_
    dsimp only
    rw [filter_block (List.mem_zipIdx_iff_getElem?.mp hmem)]
    split <;> rfl
  unfold eliminateUnreachableCode
  split
  · rename_i hempty
    rw [List.isEmpty_iff] at hempty
    rw [hempty] at hblocks
    have hnil : f.instructions.zipIdx = [] := by rw [← flatMap_blocks, hempty]; rfl
    rw [← hblocks, List.zipIdx_eq_nil_iff.mp hnil]
    rfl
  · exact hblocks

/-! ## 4. The graph of instructions -/

/-- Where control can go from instruction `k`; the function ends where its instructions do. -/
def Successor (strings : StringTable) (f : IRFunction) (k j : Nat) : Prop :=
  ∃ instr, f.instructions[k]? = some instr ∧
    (j = k + 1 ∧ hasEffect instr.opcode .terminator = false ∨
      ∃ name ∈ instr.labelTargets (some strings), f.runLabels strings name = some j)

variable {instr : IRInstruction} {k : Nat} {j : Nat}

section Graph

variable {strings : StringTable} {f : IRFunction}

theorem exists_of_mem_labelTargets {name : String} (h : name ∈ instr.labelTargets (some strings)) :
    instr.opcode ≠ .label ∧ ∃ id, .label id ∈ instr.operands ∧ strings.nameOf id = name := by
  unfold IRInstruction.labelTargets at h
  split at h
  · cases h
  · rename_i hlabel
    refine ⟨fun hop => hlabel (hasEffect_label_iff.mpr hop), ?_⟩
    obtain ⟨operand, hmem, hname⟩ := List.mem_filterMap.mp h
    cases operand with
    | label id =>
      cases hname
      exact ⟨id, hmem, rfl⟩
    | _ => cases hname

theorem Successor.moves (hf : Runnable strings f) (hnames : LabelsInterned strings f)
    (h : Successor strings f k j) (hj : j < f.instructions.length) :
    Moves f k j := by
  obtain ⟨instr, hinstr, ⟨rfl, hterm⟩ | ⟨name, hname, hrun⟩⟩ := h
  · exact moves_next hinstr hj hterm
  · obtain ⟨hop, id, hid, rfl⟩ := exists_of_mem_labelTargets hname
    obtain ⟨target, htarget, hlabel⟩ := runLabels_at hrun
    exact moves_goto hf hnames hinstr hop hid htarget hlabel

theorem kept_moves (hmarked : Marked f) (hk : kept f k = true) (h : Moves f k j) :
    kept f j = true := by
  unfold kept at hk ⊢
  cases h with
  | inside hleader =>
    rw [f.blockOf_succ_of_not_leader hleader]
    exact hk
  | edge _ _ hj => exact hmarked.closed _ hk _ hj

theorem successor_inside (hk : k < f.instructions.length) (hleader : f.isLeader (k + 1) = false) :
    Successor strings f k (k + 1) := by
  refine ⟨f.instructions[k], List.getElem?_eq_getElem hk,
    .inl ⟨rfl, Bool.eq_false_iff.mpr fun hterm => ?_⟩⟩
  have hends : f.instructions[k].endsBlock = true := by
    unfold IRInstruction.endsBlock
    rw [hterm, Bool.or_true]
  rw [isLeader_succ (List.getElem?_eq_getElem hk) hends] at hleader
  cases hleader

abbrev Path (strings : StringTable) (f : IRFunction) : Nat → Nat → Prop :=
  Relation.ReflTransGen (Successor strings f)

-- through a block from its start
theorem path_inside {start : Nat} (hle : start ≤ k) (hk : k < f.instructions.length)
    (hinside : ∀ j, start < j → j ≤ k → f.isLeader j = false) :
    Path strings f start k := by
  induction hle with
  | refl => exact .refl
  | @step m hm ih =>
    have hprev := ih (Nat.lt_of_succ_lt hk) fun j hj hj' => hinside j hj (Nat.le_succ_of_le hj')
    exact hprev.tail (successor_inside (Nat.lt_of_succ_lt hk)
      (hinside (m + 1) (Nat.lt_succ_of_le hm) (Nat.le_refl _)))

theorem path_block {i : Nat} (hi : i < f.instructions.length) (hk : k < f.instructions.length)
    (hleader : f.isLeader i = true) (hsame : f.blockOf i = f.blockOf k) :
    Path strings f i k := by
  obtain ⟨block, hblock, -⟩ := exists_block f hk
  obtain ⟨block', hblock', -⟩ := exists_block f hi
  have hfound := hblock.found
  rw [← hsame, hblock'.found] at hfound
  cases hfound
  have hstart := hblock'.start_eq hleader
  refine path_inside (hstart ▸ hblock.start_le) hk fun j hj hj' => ?_
  exact hblock.inside j (hstart ▸ hj) (Nat.lt_of_le_of_lt hj' hblock.lt_stop)

theorem successor_edge (hf : Runnable strings f) {c : Nat}
    (hinstr : f.instructions[k]? = some instr)
    (hend : k + 1 = f.instructions.length ∧ f.blockOf k + 1 = f.leaders.length ∨
      k + 1 < f.instructions.length ∧ f.isLeader (k + 1) = true)
    (hc : c ∈ successors f (f.blockOf k) instr) :
    ∃ j, j < f.instructions.length ∧ f.isLeader j = true ∧ f.blockOf j = c ∧
      Successor strings f k j := by
  unfold successors at hc
  rcases List.mem_append.mp hc with hgoto | hnext
  · split at hgoto
    · cases hgoto
    · rename_i hlabel
      obtain ⟨operand, hmem, hblock⟩ := List.mem_filterMap.mp hgoto
      cases operand with
      | label id =>
        obtain ⟨t, ht, rfl⟩ := Option.map_eq_some_iff.mp hblock
        obtain ⟨target, htarget, hname⟩ := labelIndex_spec hf ht
        exact ⟨t, labelIndex_lt ht, isLeader_of_labelName htarget hname, rfl, instr, hinstr,
          .inr ⟨strings.nameOf id,
          mem_labelTargets (Bool.eq_false_iff.mpr hlabel) hmem, hf.runLabels_eq_some_iff.mpr
            ⟨target, htarget, hname⟩⟩⟩
      | _ => cases hblock
  · split at hnext
    · rename_i hlast
      obtain ⟨hterm, hlt⟩ := Bool.and_eq_true_iff.mp hlast
      have hlt := of_decide_eq_true hlt
      rcases hend with ⟨-, hfinal⟩ | ⟨hk, hleader⟩
      · omega
      · rw [List.mem_singleton.mp hnext]
        exact ⟨k + 1, hk, hleader, f.blockOf_succ_of_leader hleader, instr, hinstr,
          .inl ⟨rfl, by simpa using hterm⟩⟩
    · cases hnext

theorem path_of_reach (hf : Runnable strings f) (h : (markFlow f).Reach 0 b)
    (hk : k < f.instructions.length) (hb : f.blockOf k = b) :
    Path strings f 0 k := by
  induction h generalizing k with
  | refl => exact path_block (Nat.zero_lt_of_lt hk) hk f.isLeader_zero (f.blockOf_zero.trans hb.symm)
  | @tail b c _ hedge ih =>
    have hc : c ∈ blockSuccessors f b := hedge
    have hlt : b < f.leaders.length := by
      by_contra hge
      unfold blockSuccessors at hc
      rw [List.getElem?_eq_none (by rw [length_analysisBlocks]; omega)] at hc
      cases hc
    obtain ⟨l, instr, hinstr, rfl, hend⟩ := exists_last hlt
    rw [(blockCode_end hinstr (hend.imp And.left And.right)).2] at hc
    obtain ⟨j, hj, hleader, hblock, hsucc⟩ := successor_edge hf hinstr hend hc
    have hlast := (ih (List.getElem?_eq_some_iff.mp hinstr).1 rfl).tail hsucc
    exact hlast.trans (path_block hj hk hleader (hblock.trans hb.symm))

end Graph

/-! ## 5. What the pass leaves -/

/-- `f'` is the kept instructions of `f`: in their order, with their successors, every label that is
named among them, and all of them reachable. -/
structure Prunes (strings : StringTable) (f f' : IRFunction) (keep : Nat → Bool) : Prop where
  place : ∀ k instr, keep k = true → f.instructions[k]? = some instr →
    f'.instructions[placeOf keep k]? = some instr
  order : ∀ k k', keep k = true → k < k' → placeOf keep k < placeOf keep k'
  successors : ∀ k j, keep k = true → Successor strings f k j →
    (j < f.instructions.length → keep j = true) ∧ Successor strings f' (placeOf keep k) (placeOf keep j)
  successors_only : ∀ k p, keep k = true → k < f.instructions.length →
    Successor strings f' (placeOf keep k) p →
    ∃ j, Successor strings f k j ∧ placeOf keep j = p
  labels : ∀ instr ∈ f'.instructions, ∀ name ∈ instr.labelTargets (some strings),
    ∃ target, f'.runLabels strings name = some target
  reachable : ∀ p, p < f'.instructions.length → Path strings f' 0 p

section Prune

variable {strings : StringTable} {f : IRFunction}

theorem runnable_of_sublist {f' : IRFunction} (hf : Runnable strings f)
    (h : f'.instructions.Sublist f.instructions) :
    Runnable strings f' :=
  ⟨fun instr hmem => hf.fits instr (h.subset hmem), hf.unique.sublist (h.filterMap _)⟩

variable (hf : Runnable strings f) (hnames : LabelsInterned strings f) (hmarked : Marked f)
include hf

theorem eliminateUnreachableCode_runnable : Runnable strings (eliminateUnreachableCode f) := by
  refine runnable_of_sublist hf ?_
  rw [eliminateUnreachableCode_instructions]
  exact select_sublist _

theorem runLabels_kept {name : String} {t : Nat} (hrun : f.runLabels strings name = some t)
    (ht : kept f t = true) :
    (eliminateUnreachableCode f).runLabels strings name = some (placeOf (kept f) t) := by
  obtain ⟨target, htarget, hlabel⟩ := runLabels_at hrun
  refine (eliminateUnreachableCode_runnable hf).runLabels_eq_some_iff.mpr ⟨target, ?_, hlabel⟩
  rw [eliminateUnreachableCode_instructions]
  exact getElem?_select ht htarget

include hnames hmarked

theorem kept_successor (hk : kept f k = true) (h : Successor strings f k j)
    (hj : j < f.instructions.length) :
    kept f j = true :=
  kept_moves hmarked hk (h.moves hf hnames hj)

theorem successor_kept (hk : kept f k = true) (h : Successor strings f k j) :
    Successor strings (eliminateUnreachableCode f) (placeOf (kept f) k) (placeOf (kept f) j) := by
  have hkeep := kept_successor hf hnames hmarked hk h
  obtain ⟨instr, hinstr, hj⟩ := h
  refine ⟨instr, ?_, ?_⟩
  · rw [eliminateUnreachableCode_instructions]
    exact getElem?_select hk hinstr
  · rcases hj with ⟨rfl, hterm⟩ | ⟨name, hname, hrun⟩
    · rw [placeOf_succ, hk]
      exact .inl ⟨rfl, hterm⟩
    · obtain ⟨target, htarget, -⟩ := runLabels_at hrun
      exact .inr ⟨name, hname, runLabels_kept hf hrun (hkeep (List.getElem?_eq_some_iff.mp htarget).1)⟩

theorem successor_of_kept
    (hlabels : ∀ instr ∈ f.instructions, ∀ name ∈ instr.labelTargets (some strings),
      ∃ target, f.runLabels strings name = some target) {p : Nat} (hk : kept f k = true)
    (hlt : k < f.instructions.length)
    (h : Successor strings (eliminateUnreachableCode f) (placeOf (kept f) k) p) :
    ∃ j, Successor strings f k j ∧ placeOf (kept f) j = p := by
  obtain ⟨instr, hinstr, hp⟩ := h
  rw [eliminateUnreachableCode_instructions, getElem?_select hk (List.getElem?_eq_getElem hlt)] at hinstr
  cases hinstr
  rcases hp with ⟨rfl, hterm⟩ | ⟨name, hname, hrun⟩
  · refine ⟨k + 1, ⟨_, List.getElem?_eq_getElem hlt, .inl ⟨rfl, hterm⟩⟩, ?_⟩
    rw [placeOf_succ, hk]
    rfl
  · obtain ⟨t, ht⟩ := hlabels _ (List.getElem_mem hlt) name hname
    have hsucc : Successor strings f k t := ⟨_, List.getElem?_eq_getElem hlt, .inr ⟨name, hname, ht⟩⟩
    refine ⟨t, hsucc, ?_⟩
    obtain ⟨target, htarget, -⟩ := runLabels_at ht
    have hkeep := kept_successor hf hnames hmarked hk hsucc (List.getElem?_eq_some_iff.mp htarget).1
    rw [runLabels_kept hf ht hkeep] at hrun
    exact Option.some.inj hrun

theorem path_kept (h : Path strings f 0 k) (hk : k < f.instructions.length) :
    Path strings (eliminateUnreachableCode f) 0 (placeOf (kept f) k) := by
  have hfirst : kept f 0 = true := by
    unfold kept
    rw [f.blockOf_zero]
    exact hmarked.first
  suffices hboth : kept f k = true ∧ Path strings (eliminateUnreachableCode f) 0
    (placeOf (kept f) k) from hboth.2
  induction h with
  | refl => exact ⟨hfirst, .refl⟩
  | @tail i j _ hsucc ih =>
    obtain ⟨instr, hinstr, -⟩ := id hsucc
    obtain ⟨hkeep, hpath⟩ := ih (List.getElem?_eq_some_iff.mp hinstr).1
    exact ⟨kept_successor hf hnames hmarked hkeep hsucc hk,
      hpath.tail (successor_kept hf hnames hmarked hkeep hsucc)⟩

end Prune

theorem marked_of_lt (hk : k < f.instructions.length) : Marked f := by
  refine marked (List.ne_nil_of_length_pos ?_)
  rw [length_analysisBlocks]
  exact Nat.zero_lt_of_lt (blockOf_lt hk)

theorem kept_execute {E : Env} (hf : Runnable E.program.strings f)
    (hnames : LabelsInterned E.program.strings f) (hinstr : f.instructions[k]? = some instr)
    {fr fr' : Frame} {os : List Observation} {flow : Exit String Value}
    (hk : k < f.instructions.length → kept f k = true)
    (hexec : execute E instr fr = some (os, fr', flow)) :
    LandedAt (machine E).labelOf f.instructions (fun j _ => j < f.instructions.length →
        kept f j = true) k fr' flow := by
  have hlt := (List.getElem?_eq_some_iff.mp hinstr).1
  have hgo {j : Nat} (h : Moves f k j) : kept f j = true := kept_moves (marked_of_lt hlt) (hk hlt) h
  have hstep := moves_execute hf hnames hinstr hexec
  cases flow with
  | ret v => trivial
  | next => exact fun hj => hgo (hstep hj)
  | goto l => exact fun j target htarget hlabel hj => hgo (hstep j target htarget hlabel hj)

theorem eliminateUnreachableCode_prunes {strings : StringTable} (hverified : Verified strings f)
    (hf : Runnable strings f) (hnames : LabelsInterned strings f) :
    Prunes strings f (eliminateUnreachableCode f) (kept f) := by
  have hlabels (instr : IRInstruction) (hmem : instr ∈ f.instructions) (name : String)
      (hname : name ∈ instr.labelTargets (some strings)) : ∃ t, f.runLabels strings name = some t := by
    rw [runLabels_eq hverified]
    exact hverified.labels instr hmem name hname
  have hplace (p : Nat) (instr : IRInstruction)
    (hp : (eliminateUnreachableCode f).instructions[p]? = some instr) :
      ∃ k, kept f k = true ∧ f.instructions[k]? = some instr ∧ placeOf (kept f) k = p := by
    rw [eliminateUnreachableCode_instructions] at hp
    exact exists_of_getElem?_select hp
  constructor
  case place =>
    intro k instr hk hinstr
    rw [eliminateUnreachableCode_instructions]
    exact getElem?_select hk hinstr
  case order => exact fun k k' hk hlt => placeOf_lt hk hlt
  case successors =>
    intro k j hk hsucc
    obtain ⟨instr, hinstr, -⟩ := id hsucc
    have hmarked := marked_of_lt (List.getElem?_eq_some_iff.mp hinstr).1
    exact ⟨kept_successor hf hnames hmarked hk hsucc, successor_kept hf hnames hmarked hk hsucc⟩
  case successors_only =>
    intro k p hk hlt hsucc
    exact successor_of_kept hf hnames (marked_of_lt hlt) hlabels hk hlt hsucc
  case labels =>
    intro instr hmem name hname
    obtain ⟨p, hp⟩ := List.mem_iff_getElem?.mp hmem
    obtain ⟨k, hk, hinstr, -⟩ := hplace p instr hp
    have hmarked := marked_of_lt (List.getElem?_eq_some_iff.mp hinstr).1
    obtain ⟨t, ht⟩ := hlabels instr (List.mem_of_getElem? hinstr) name hname
    obtain ⟨target, htarget, -⟩ := runLabels_at ht
    have hkeep := kept_successor hf hnames hmarked hk ⟨instr, hinstr, .inr ⟨name, hname, ht⟩⟩
      (List.getElem?_eq_some_iff.mp htarget).1
    exact ⟨_, runLabels_kept hf ht hkeep⟩
  case reachable =>
    intro p hp
    obtain ⟨k, hk, hinstr, rfl⟩ := hplace p _ (List.getElem?_eq_getElem hp)
    have hlt := (List.getElem?_eq_some_iff.mp hinstr).1
    have hmarked := marked_of_lt hlt
    exact path_kept hf hnames hmarked (path_of_reach hf (hmarked.reached _ hk) hlt rfl) hlt

/-- Every instruction a run comes to is kept, and what is kept is what the graph reaches. -/
theorem eliminateUnreachableCode_exact (program : IRProgram) (f : IRFunction)
    (haccepted : irVerify (some program.strings) f = .ok ())
    (hnames : LabelsInterned program.strings f) :
    (∀ (table : GlobalFunctions) (call : Callee) (args globals : List Value) (n : Nat)
        (ctx : Context),
      runSteps program table call f n (startContext f args globals) = (none, ctx) →
        ctx.running f = true →
        kept f ctx.pc = true) ∧ Prunes program.strings f (eliminateUnreachableCode f) (kept f) := by
  have hf := runnable_of_irVerify haccepted
  refine ⟨fun table call args globals n ctx hrun hrunning => ?_,
    eliminateUnreachableCode_prunes (verified_of_irVerify haccepted) hf hnames⟩
  let E : Env := ⟨program, table, call, f.name⟩
  obtain ⟨hret, instr, hinstr⟩ := running_iff.mp hrunning
  refine runSteps_invariant (E := E) hf rfl
    (fun k i hi fr o fr' flow hk hexec => kept_execute (E := E) hf hnames hi hk hexec)
    (fun hlt => ?_) hrun hret (List.getElem?_eq_some_iff.mp hinstr).1
  unfold kept
  rw [f.blockOf_zero]
  exact (marked_of_lt hlt).first

def stranded : IRFunction where
  name := "stranded"
  parameters := []
  maxRegisters := 2
  instructions :=
    [{ opcode := .jump, operands := [.label 1] },
     { opcode := .label, operands := [.label 0] },
     { opcode := .loadImm, operands := [.reg 0, .imm 5] },
     { opcode := .jump, operands := [.label 0] },
     { opcode := .label, operands := [.label 1] },
     { opcode := .loadImm, operands := [.reg 0, .imm 1] },
     { opcode := .returnOp, operands := [] }]

def strandedProgram : IRProgram where
  functions := [stranded]
  strings := ⟨["loop", "done"], by decide⟩
  stringConstants := []
  globals := []

set_option maxRecDepth 4000 in
theorem eliminateUnreachableCode_exact_stranded :
    irVerify (some strandedProgram.strings) stranded = .ok () ∧
      (eliminateUnreachableCode stranded).instructions.length = 4 ∧
      Path strandedProgram.strings (eliminateUnreachableCode stranded) 0 3 :=
  ⟨rfl, rfl, (eliminateUnreachableCode_exact strandedProgram stranded rfl
    (by decide)).2.reachable 3 (by decide)⟩

/-! ## 6. A second run -/

theorem kept_of_path {strings : StringTable} (hf : Runnable strings f)
    (hnames : LabelsInterned strings f) (h : Path strings f 0 k) (hk : k < f.instructions.length) :
    kept f k = true := by
  have hmarked := marked_of_lt hk
  induction h with
  | refl =>
    unfold kept
    rw [f.blockOf_zero]
    exact hmarked.first
  | tail _ hsucc ih =>
    obtain ⟨instr, hinstr, -⟩ := id hsucc
    exact kept_successor hf hnames hmarked (ih (List.getElem?_eq_some_iff.mp hinstr).1) hsucc hk

/-- A second run of the pass finds nothing to drop. -/
theorem eliminateUnreachableCode_idempotent (program : IRProgram) (f : IRFunction)
    (haccepted : irVerify (some program.strings) f = .ok ())
    (hnames : LabelsInterned program.strings f) :
    eliminateUnreachableCode (eliminateUnreachableCode f) = eliminateUnreachableCode f := by
  have hf := runnable_of_irVerify haccepted
  have hreachable := (eliminateUnreachableCode_prunes (verified_of_irVerify haccepted) hf
    hnames).reachable
  have hf' := eliminateUnreachableCode_runnable hf
  have hsub : (eliminateUnreachableCode f).instructions.Sublist f.instructions := by
    rw [eliminateUnreachableCode_instructions]
    exact select_sublist _
  have hnames' : LabelsInterned program.strings (eliminateUnreachableCode f) :=
    fun instr hmem => hnames instr (hsub.subset hmem)
  generalize eliminateUnreachableCode f = g at hreachable hf' hnames'
  have hsame : (eliminateUnreachableCode g).instructions = g.instructions := by
    rw [eliminateUnreachableCode_instructions]
    refine (select_sublist g.instructions).eq_of_length ?_
    rw [length_select, placeOf, List.countP_eq_length.mpr, List.length_range]
    exact fun k hk => kept_of_path hf' hnames' (hreachable k (List.mem_range.mp hk))
      (List.mem_range.mp hk)
  unfold eliminateUnreachableCode at hsame ⊢
  split at hsame
  · rw [if_pos (by assumption)]
  · rw [if_neg (by assumption)]
    exact congrArg (fun instructions => { g with instructions }) hsame

set_option maxRecDepth 4000 in
theorem eliminateUnreachableCode_idempotent_stranded :
    eliminateUnreachableCode (eliminateUnreachableCode stranded) =
      eliminateUnreachableCode stranded := by
  exact eliminateUnreachableCode_idempotent strandedProgram stranded rfl (by decide)

end Optimizer
