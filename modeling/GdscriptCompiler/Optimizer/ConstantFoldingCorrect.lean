import GdscriptCompiler.Optimizer.ConstantFoldingSound

/-! # ConstantFoldingCorrect — constant folding keeps every completed call -/

namespace Optimizer

open Ir Lib Constants

/-! ## 1. Blocks -/

variable {instr : IRInstruction}

section Blocks

variable {table : GlobalFunctions} {C : Constants} {folding : Folding}

theorem foldBlock_cons_ok {rest : List IRInstruction} :
    foldBlock table C (instr :: rest) = .ok folding ↔
      ∃ head tail, foldInstruction table C instr = .ok head ∧
      foldBlock table head.constants rest = .ok tail ∧
        folding = ⟨tail.constants, head.emitted ++ tail.emitted⟩ := by
  rw [foldBlock]
  cases foldInstruction table C instr with
  | error e => exact ⟨nofun, nofun⟩
  | ok head =>
    change (do let tail ← foldBlock table head.constants rest; _) = _ ↔ _
    cases hrest : foldBlock table head.constants rest with
    | error e =>
      refine ⟨nofun, ?_⟩
      rintro ⟨_, tail, hhead, htail, -⟩
      cases hhead
      rw [hrest] at htail
      cases htail
    | ok tail =>
      constructor
      · intro h
        cases h
        exact ⟨head, tail, rfl, hrest, rfl⟩
      · rintro ⟨_, tail', hhead, htail, rfl⟩
        cases hhead
        rw [hrest] at htail
        cases htail
        rfl

theorem foldBlock_append_ok {before after : List IRInstruction} :
    foldBlock table C (before ++ after) = .ok folding ↔
      ∃ first second, foldBlock table C before = .ok first ∧
      foldBlock table first.constants after = .ok second ∧
      folding = ⟨second.constants, first.emitted ++ second.emitted⟩ := by
  induction before generalizing C folding with
  | nil =>
    constructor
    · intro h
      exact ⟨⟨C, []⟩, folding, rfl, h, rfl⟩
    · rintro ⟨first, second, hfirst, hsecond, rfl⟩
      cases hfirst
      exact hsecond
  | cons instr before ih =>
    rw [List.cons_append, foldBlock_cons_ok]
    constructor
    · rintro ⟨head, tail, hhead, htail, rfl⟩
      obtain ⟨first, second, hfirst, hsecond, rfl⟩ := ih.mp htail
      refine ⟨⟨first.constants, head.emitted ++ first.emitted⟩, second,
        foldBlock_cons_ok.mpr ⟨head, first, hhead, hfirst, rfl⟩, hsecond, ?_⟩
      rw [List.append_assoc]
    · rintro ⟨first, second, hfirst, hsecond, rfl⟩
      obtain ⟨head, tail, hhead, htail, rfl⟩ := foldBlock_cons_ok.mp hfirst
      refine ⟨head, _, hhead, ih.mpr ⟨tail, second, htail, hsecond, rfl⟩, ?_⟩
      rw [List.append_assoc]

theorem foldBlock_single_ok (h : foldInstruction table C instr = .ok folding) :
    foldBlock table C [instr] = .ok folding := by
  refine foldBlock_cons_ok.mpr ⟨folding, ⟨folding.constants, []⟩, h, rfl, ?_⟩
  rw [List.append_nil]

end Blocks

/-! ## 2. The dataflow -/

section Dataflow

variable {table : GlobalFunctions} {f : IRFunction}

theorem constantsFlow_meets (table : GlobalFunctions) (f : IRFunction) :
    (constantsFlow table f).Meets Constants.Holds where
  left _ _ _ h p hp := h p (List.mem_of_mem_filter hp)
  right _ _ _ h p hp := h p (mem_of_find? (of_decide_eq_true (List.mem_filter.mp hp).2))
  same into other h := by
    have hlen : (Constants.meet into other).1.length = into.length := of_not_not (of_decide_eq_false h)
    exact List.filter_eq_self.mpr (List.length_filter_eq_length_iff.mp hlen)

theorem solveConstants_covered (visits : Nat) {w w' : Work Constants} {converged : Bool}
    (hcovered : (constantsFlow table f).Covered Constants.Holds [] w)
    (h : solveConstants table f visits w = .ok (converged, w')) :
    (constantsFlow table f).Covered Constants.Holds [] w' ∧ (converged = true → w'.queue = []) := by
  induction visits generalizing w with
  | zero =>
    cases h
    exact ⟨hcovered, List.isEmpty_iff.mp⟩
  | succ visits ih =>
    rw [solveConstants] at h
    have hturn {w₁ : Work Constants} : (constantsFlow table f).turn .lifo w = some w₁ →
        (constantsFlow table f).Covered Constants.Holds [] w₁ :=
      hcovered.turn (constantsFlow_meets table f)
    unfold Flow.turn at hturn
    cases hpop : Discipline.lifo.pop w.queue with
    | none =>
      rw [hpop] at h
      cases h
      exact ⟨hcovered, fun _ => Discipline.lifo.pop_none hpop⟩
    | some popped =>
      obtain ⟨index, queue⟩ := popped
      rw [hpop] at h hturn
      dsimp only at h hturn
      cases hentry : w.entry index with
      | none =>
        rw [hentry] at h hturn
        exact ih (hturn rfl) h
      | some C =>
        rw [hentry] at h hturn
        dsimp only at h hturn
        cases hout : foldBlock table C (blockCode f index) with
        | error e => rw [hout] at h; cases h
        | ok out =>
          have htransfer : (constantsFlow table f).transfer index C = out.constants := by
            unfold constantsFlow
            dsimp only
            rw [hout]
            rfl
          rw [hout] at h
          rw [htransfer] at hturn
          exact ih (hturn rfl) h

/-- What the blocks start from: `reached` blocks are entered over edges along which the constants
hold. -/
structure EntriesHold (table : GlobalFunctions) (f : IRFunction) (entry : Nat → Constants)
    (reached : Nat → Prop) : Prop where
  start : reached 0 ∧ ∀ fr, (entry 0).Holds fr
  edge : ∀ b, reached b → ∀ out, foldBlock table (entry b) (blockCode f b) = .ok out →
    ∀ j ∈ blockSuccessors f b, reached j ∧ ∀ fr, out.constants.Holds fr → (entry j).Holds fr

theorem entryConstants_hold {entry : Nat → Constants} (h : entryConstants table f = .ok entry) :
    ∃ reached, EntriesHold table f entry reached := by
  unfold entryConstants at h
  cases hsolve : solveConstants table f ((analysisBlocks f).length * 16 + 1024)
      ⟨Function.update (fun _ => none) 0 (some []), [0]⟩ with
  | error e => rw [hsolve] at h; cases h
  | ok result =>
    obtain ⟨converged, w⟩ := result
    rw [hsolve] at h
    cases h
    obtain ⟨hcovered, hqueue⟩ := solveConstants_covered _ (Flow.covered_start ..) hsolve
    obtain ⟨first, hfirst, hweaker⟩ := hcovered.start
    have hstart (fr : Frame) : ((w.entry 0).getD []).Holds fr := by
      rw [hfirst]
      exact hweaker fr (holds_nil fr)
    cases converged with
    | false =>
      -- given up: nothing is known at the start of any block
      have hall (b : Nat) (fr : Frame) : (if false ||
        b = 0 then (w.entry b).getD [] else [] : Constants).Holds fr := by
        by_cases hb : b = 0
        · subst hb
          exact hstart fr
        · rw [if_neg (by simpa using hb)]
          exact holds_nil fr
      exact ⟨fun _ => True, ⟨trivial, hall 0⟩, fun b _ out _ j _ => ⟨trivial, fun fr _ => hall j fr⟩⟩
    | true =>
      simp only [Bool.true_or, if_true]
      refine ⟨fun b => w.entry b ≠ none, ⟨by rw [hfirst]; exact Option.some_ne_none _, hstart⟩, ?_⟩
      intro b hb out hout j hj
      obtain ⟨s, hs⟩ := Option.ne_none_iff_exists'.mp hb
      rw [hs, Option.getD_some] at hout
      obtain ⟨t, ht, hst⟩ := hcovered.settled b (by rw [hqueue rfl]; exact List.not_mem_nil) s hs j hj
      have htransfer : (constantsFlow table f).transfer b s = out.constants := by
        unfold constantsFlow
        dsimp only
        rw [hout]
        rfl
      rw [htransfer] at hst
      refine ⟨by rw [ht]; exact Option.some_ne_none _, fun fr hfr => ?_⟩
      rw [ht]
      exact hst fr hfr

end Dataflow

/-! ## 3. The code after the pass -/

def emittedAt (table : GlobalFunctions) (f : IRFunction) (entry : Nat → Constants) (k : Nat)
    (instr : IRInstruction) : List IRInstruction :=
  match foldBlock table (entry (f.blockOf k)) (codeBefore f k) with
  | .ok before =>
    ((foldInstruction table before.constants instr).toOption.map Folding.emitted).getD [instr]
  | .error _ => [instr]

section Code

variable {table : GlobalFunctions} {f f' : IRFunction} {entry : Nat → Constants}

theorem exists_of_forall₂ {α β : Type} {R : α → β → Prop} {l : List α} {r : List β}
    (h : List.Forall₂ R l r) {a : α} (ha : a ∈ l) :
    ∃ b, R a b := by
  induction h with
  | nil => cases ha
  | @cons a' b l r hab _ ih =>
    rcases List.mem_cons.mp ha with rfl | ha
    · exact ⟨b, hab⟩
    · exact ih ha

def FoldedTo (table : GlobalFunctions) (f : IRFunction) (entry : Nat → Constants)
    (p : BasicBlock × Nat) (out : Folding) : Prop :=
  foldBlock table (entry p.2) (codeOf f p.1) = .ok out

theorem constantFolding_ok (h : constantFolding table f = .ok f') :
    ∃ entry folded, entryConstants table f = .ok entry ∧
      List.Forall₂ (FoldedTo table f entry) (analysisBlocks f).zipIdx folded ∧
        f' = { f with instructions := folded.flatMap Folding.emitted } := by
  obtain ⟨entry, hentry, h⟩ := Lib.bind_eq_ok.mp h
  obtain ⟨folded, hfolded, h⟩ := Lib.bind_eq_ok.mp h
  cases h
  exact ⟨entry, folded, hentry, Lib.forall₂_of_mapM hfolded, rfl⟩

/-- An instruction is kept, or becomes a load or a jump to one of its labels. -/
inductive Emitted (instr : IRInstruction) : IRInstruction → Prop
  | kept : Emitted instr instr
  | imm (dst : Int) (v : Int64) : Emitted instr (loadImm dst v)
  | fimm (dst : Int) (d : Float) : Emitted instr (loadFloatImm dst d)
  | bool (dst : Int) (b : Bool) : Emitted instr (loadBool dst b)
  | jump (cond : Int) (target : IRValue) (rest : List IRValue)
      (hop : instr.opcode = .branchZero ∨ instr.opcode = .branchNotZero)
      (hops : instr.operands = .reg cond :: target :: rest) :
      Emitted instr { opcode := .jump, operands := [target] }

section Emitted

variable {C : Constants} {instr : IRInstruction} {folding : Folding}

theorem emitted_number (instr : IRInstruction) (dst : Int) (c : Constant Float) :
    Emitted instr (loadNumber dst c) := by
  cases c with
  | float d => exact .fimm dst d
  | _ => exact .imm dst _

theorem emitted_result (instr : IRInstruction) (dst : Int) (c : Constant Float) :
    Emitted instr (loadResult dst c) := by
  cases c with
  | bool b => exact .bool dst b
  | float d => exact .fimm dst d
  | _ => exact .imm dst _

variable {load : Int → Constant Float → IRInstruction}

theorem emitted_unary {compute : Constant Float → Option (Constant Float)}
    (hload : ∀ dst c, Emitted instr (load dst c))
    (h : foldUnary C instr compute load = .ok folding) :
    ∀ i ∈ folding.emitted, Emitted instr i := by
  unfold foldUnary at h
  split at h
  · split at h
    · cases h
      exact List.forall_mem_singleton.mpr (hload _ _)
    · cases h
      exact List.forall_mem_singleton.mpr .kept
  · cases h

theorem emitted_binary {compute : Constant Float → Constant Float → Option (Constant Float)}
    (hload : ∀ dst c, Emitted instr (load dst c))
    (h : foldBinary C instr compute load = .ok folding) :
    ∀ i ∈ folding.emitted, Emitted instr i := by
  unfold foldBinary at h
  split at h
  · split at h
    · split at h
      · cases h
        exact List.forall_mem_singleton.mpr (hload _ _)
      · cases h
        exact List.forall_mem_singleton.mpr .kept
    · cases h
      exact List.forall_mem_singleton.mpr .kept
  · cases h
    exact List.forall_mem_singleton.mpr .kept
  · cases h
    exact List.forall_mem_singleton.mpr .kept

theorem emitted_branch (hop : instr.opcode = .branchZero ∨ instr.opcode = .branchNotZero) :
    ∀ i ∈ (foldBranch C instr).emitted, Emitted instr i := by
  unfold foldBranch
  split
  · rename_i cond target rest hops
    split
    · dsimp only
      split
      · split
        · exact List.forall_mem_singleton.mpr (.jump cond target rest hop hops)
        · exact List.forall_mem_nil _
      · split
        · exact List.forall_mem_singleton.mpr (.jump cond target rest hop hops)
        · exact List.forall_mem_nil _
    · exact List.forall_mem_singleton.mpr .kept
  · exact List.forall_mem_singleton.mpr .kept

theorem emitted_globalCall (h : foldGlobalCall table C instr = .ok folding) :
    ∀ i ∈ folding.emitted, Emitted instr i := by
  unfold foldGlobalCall at h
  dsimp only at h
  split at h
  · cases hinfo : table.globalFunction _ with
    | error e => rw [hinfo] at h; cases h
    | ok info =>
      rw [hinfo] at h
      simp only [bind, Except.bind] at h
      split at h
      · split at h
        · cases h
        · split at h
          · cases h
            exact List.forall_mem_singleton.mpr (emitted_result _ _ _)
          · cases h
            exact List.forall_mem_singleton.mpr .kept
      · cases h
        exact List.forall_mem_singleton.mpr .kept
  · cases h
    exact List.forall_mem_singleton.mpr .kept

theorem emitted_of_fold (h : foldInstruction table C instr = .ok folding) :
    ∀ i ∈ folding.emitted, Emitted instr i := by
  have htruth (dst : Int) (c : Constant Float) : Emitted instr (loadTruth dst c) := .bool dst _
  have hkept : ∀ i ∈ [instr], Emitted instr i := List.forall_mem_singleton.mpr .kept
  unfold foldInstruction at h
  cases hop : instr.opcode
  all_goals
    rw [hop] at h
    dsimp only at h
  case convert | neg => exact emitted_unary (emitted_number instr) h
  case not => exact emitted_unary htruth h
  case add | sub | mul | div | mod | bitAnd | bitOr | bitXor | shl | shr =>
    exact emitted_binary (emitted_number instr) h
  case cmpEq | cmpNeq | cmpLt | cmpLte | cmpGt | cmpGte | and | or => exact emitted_binary htruth h
  case branchZero =>
    cases h
    exact emitted_branch (.inl hop)
  case branchNotZero =>
    cases h
    exact emitted_branch (.inr hop)
  case globalCall => exact emitted_globalCall h
  case label | breakpoint | scopeMark | scopeRelease | branchEq | branchNeq | branchLt | branchLte
      | branchGt | branchGte | arraySet | dictSet | dictSetConst | dictSetConstStr =>
    cases h
    exact hkept
  case move =>
    split at h
    · split at h <;> cases h <;> exact hkept
    · cases h
  -- one register set or invalidated
  all_goals split at h <;> cases h <;> exact hkept

variable {i : IRInstruction}

theorem Emitted.fits (h : Emitted instr i) (hfits : Fits instr) : Fits i := by
  cases h with
  | kept => exact hfits
  | imm dst v => exact fits_of_checkOperandsOf (i := 0) rfl
  | fimm dst d => exact fits_of_checkOperandsOf (i := 0) rfl
  | bool dst b => exact fits_of_checkOperandsOf (i := 0) rfl
  | jump cond target rest hop hops =>
    obtain ⟨c, id, hlabel⟩ := hfits.src_lbl (by
      unfold IRInstruction.signature
      rcases hop with hop | hop <;> rw [hop] <;> rfl)
    rw [hlabel] at hops
    cases hops
    exact fits_of_checkOperandsOf (i := 0) rfl

theorem Emitted.not_label (h : Emitted instr i) (hop : instr.opcode ≠ .label) :
    i.opcode ≠ .label := by
  cases h with
  | kept => exact hop
  | _ => exact nofun

variable {entry : Nat → Constants}

theorem emitted_at (k : Nat) : ∀ i ∈ emittedAt table f entry k instr, Emitted instr i := by
  unfold emittedAt
  split
  · cases hfold : foldInstruction table _ instr with
    | error e => exact List.forall_mem_singleton.mpr .kept
    | ok folding => exact emitted_of_fold hfold
  · exact List.forall_mem_singleton.mpr .kept

theorem emittedAt_label (k : Nat) (hop : instr.opcode = .label) :
    emittedAt table f entry k instr = [instr] := by
  unfold emittedAt
  split
  · unfold foldInstruction
    rw [hop]
    rfl
  · rfl

end Emitted

theorem block_emitted {b : Nat} {block : BasicBlock} (hblock : (analysisBlocks f)[b]? = some block)
    {before rest : List (IRInstruction × Nat)} (hsplit : block.instructions f = before ++ rest)
    {first second : Folding} (hfirst : foldBlock table (entry b) (before.map Prod.fst) = .ok first)
    (hsecond : foldBlock table first.constants (rest.map Prod.fst) = .ok second) :
    second.emitted = rest.flatMap fun p => emittedAt table f entry p.2 p.1 := by
  induction rest generalizing before first second with
  | nil => cases hsecond; rfl
  | cons p rest ih =>
    obtain ⟨instr, k⟩ := p
    obtain ⟨-, hb, hcode⟩ := block_member hblock hsplit
    obtain ⟨head, tail, hhead, htail, rfl⟩ := foldBlock_cons_ok.mp hsecond
    have hemitted : emittedAt table f entry k instr = head.emitted := by
      unfold emittedAt
      rw [hb, hcode, hfirst]
      dsimp only
      rw [hhead]
      rfl
    have hnext : foldBlock table (entry b) ((before ++ [(instr, k)]).map Prod.fst) =
        .ok ⟨head.constants, first.emitted ++ head.emitted⟩ := by
      rw [List.map_append]
      exact foldBlock_append_ok.mpr ⟨first, head, hfirst, foldBlock_single_ok hhead, rfl⟩
    rw [List.flatMap_cons, hemitted, ← ih (by rw [hsplit, List.append_assoc]; rfl) hnext htail]

variable {folded : List Folding}

theorem blocks_emitted {blocks : List (BasicBlock × Nat)}
    (hblocks : ∀ p ∈ blocks, (analysisBlocks f)[p.2]? = some p.1)
    (h : List.Forall₂ (FoldedTo table f entry) blocks folded) :
    folded.flatMap Folding.emitted =
      blocks.flatMap fun p =>
        (p.1.instructions f).flatMap fun q => emittedAt table f entry q.2 q.1 := by
  induction h with
  | nil => rfl
  | @cons p out blocks folded hout _ ih =>
    obtain ⟨hp, hrest⟩ := List.forall_mem_cons.mp hblocks
    rw [List.flatMap_cons, List.flatMap_cons, ih hrest]
    congr 1
    exact block_emitted hp (List.nil_append _).symm rfl hout

theorem constantFolding_code
    (h : List.Forall₂ (FoldedTo table f entry) (analysisBlocks f).zipIdx folded) :
    folded.flatMap Folding.emitted = Piece.newCode
      (expandPieces (emittedAt table f entry) f.instructions) := by
  rw [blocks_emitted (fun p hp => List.mem_zipIdx_iff_getElem?.mp hp) h, newCode_expandPieces,
    List.mapIdx_eq_zipIdx_map, ← List.flatMap_def, ← flatMap_blocks, List.flatMap_assoc]
  conv_rhs => rw [← List.zipIdx_map_fst 0 (analysisBlocks f), List.flatMap_map]

theorem blockCode_folded
    (h : List.Forall₂ (FoldedTo table f entry) (analysisBlocks f).zipIdx folded) {k : Nat}
    (hk : k < f.instructions.length) :
    ∃ out, foldBlock table (entry (f.blockOf k)) (blockCode f (f.blockOf k)) = .ok out := by
  obtain ⟨block, hfound⟩ : ∃ block, (analysisBlocks f)[f.blockOf k]? = some block := by
    obtain ⟨block, hblock, -⟩ := exists_block f hk
    rw [getElem?_analysisBlocks, hblock.found]
    exact ⟨_, rfl⟩
  have hmem : (block, f.blockOf k) ∈ (analysisBlocks f).zipIdx := List.mem_zipIdx_iff_getElem?.mpr hfound
  obtain ⟨out, hout⟩ := exists_of_forall₂ h hmem
  refine ⟨out, ?_⟩
  unfold blockCode
  rw [hfound]
  exact hout

end Code

/-! ## 4. The constants hold along every run -/

/-- The constants the pass has at `k` are held by the frame. -/
def HoldsAt (table : GlobalFunctions) (f : IRFunction) (entry : Nat → Constants)
    (reached : Nat → Prop) (k : Nat) (fr : Frame) : Prop :=
  k < f.instructions.length → reached (f.blockOf k) ∧
    ∀ before, foldBlock table (entry (f.blockOf k)) (codeBefore f k) = .ok before →
      before.constants.Holds fr

section Runs

variable {E : Env} {f : IRFunction} {entry : Nat → Constants} {reached : Nat → Prop} {k : Nat}
  {instr : IRInstruction} {fr fr' : Frame} {os : List Observation} {flow : Exit String Value}

theorem holdsAt_leader (hentry : reached (f.blockOf k) ∧ (entry (f.blockOf k)).Holds fr)
    (hleader : f.isLeader k = true) :
    HoldsAt E.table f entry reached k fr := by
  intro hk
  refine ⟨hentry.1, fun before hbefore => ?_⟩
  rw [codeBefore_leader hk hleader] at hbefore
  cases hbefore
  exact hentry.2

/-- Every instruction is emitted as something that does the same, and carries the constants to where
it lands. -/
theorem holdsAt_execute (hf : Verified E.program.strings f)
    (hrunnable : Runnable E.program.strings f) (hnames : LabelsInterned E.program.strings f)
    (hentries : EntriesHold E.table f entry reached) (hinstr : f.instructions[k]? = some instr)
    (hfolded : ∃ out, foldBlock E.table (entry (f.blockOf k)) (blockCode f (f.blockOf k)) = .ok out)
    (hright : ∀ before, foldBlock E.table (entry (f.blockOf k)) (codeBefore f k) = .ok before →
      FoldsRight E.table before.constants instr) (hinv : HoldsAt E.table f entry reached k fr)
    (hexec : execute E instr fr = some (os, fr', flow)) :
    (∃ n, n ≤ 1 ∧ (machine E).block (emittedAt E.table f entry k instr) fr =
        some (n, os, fr', flow)) ∧
      LandedAt (machine E).labelOf f.instructions (HoldsAt E.table f entry reached) k fr' flow := by
  have hmem := List.mem_of_getElem? hinstr
  obtain ⟨hreached, hholds⟩ := hinv (List.getElem?_eq_some_iff.mp hinstr).1
  obtain ⟨out, hout⟩ := hfolded
  obtain ⟨after, hsplit⟩ := blockCode_split hinstr
  rw [hsplit] at hout
  obtain ⟨before, rest, hbefore, hrest, -⟩ := foldBlock_append_ok.mp hout
  obtain ⟨head, tail, hhead, -, -⟩ := foldBlock_cons_ok.mp hrest
  have hok := foldInstruction_sound (hrunnable.fits instr hmem)
    (fun r hr => (hf.registers instr hmem r hr).1)
    (hholds before hbefore) hexec hhead (hright before hbefore)
  have hemitted : emittedAt E.table f entry k instr = head.emitted := by
    unfold emittedAt
    rw [hbefore]
    dsimp only
    rw [hhead]
    rfl
  -- the constants after the instruction
  have hthrough : foldBlock E.table (entry (f.blockOf k)) (codeBefore f k ++ [instr]) =
      .ok ⟨head.constants, before.emitted ++ head.emitted⟩ :=
    foldBlock_append_ok.mpr ⟨before, head, hbefore, foldBlock_single_ok hhead, rfl⟩
  -- wherever the step leads
  have hmoves {j : Nat} (h : Moves f k j) : HoldsAt E.table f entry reached j fr' := by
    intro hj
    cases h with
    | inside hleader =>
      rw [f.blockOf_succ_of_not_leader hleader]
      refine ⟨hreached, fun before' hbefore' => ?_⟩
      rw [codeBefore_succ hinstr hj hleader, hthrough] at hbefore'
      cases hbefore'
      exact hok.holds
    | edge hend hleader hmember =>
      have hwhole := hthrough
      rw [← (blockCode_end hinstr (.inr hend)).1] at hwhole
      obtain ⟨hj', hweaker⟩ := hentries.edge _ hreached _ hwhole _ hmember
      exact holdsAt_leader ⟨hj', hweaker fr' hok.holds⟩ hleader hj
  refine ⟨hemitted ▸ hok.runs, ?_⟩
  have hstep := moves_execute hrunnable hnames hinstr hexec
  cases flow with
  | ret v => trivial
  | next => exact fun hk => hmoves (hstep hk) hk
  | goto l => exact fun j target htarget hlabel hj => hmoves (hstep j target htarget hlabel hj) hj

end Runs

/-- At every step of a run the folder is right about the instruction that comes next. -/
def FoldsRightRun (E : Env) (f : IRFunction) (args globals : List Value) : Prop :=
  ∀ n os c, (machine E).Steps f.instructions ⟨0, (startContext f args globals).frame, none⟩ n os c →
    c.result = none → ∀ instr, f.instructions[c.pc]? = some instr →
      ∀ C, constantsBefore E.table f c.pc = .ok C → FoldsRight E.table C instr

section Pass

variable {E : Env} {f : IRFunction} {entry : Nat → Constants} {reached : Nat → Prop}
  {folded : List Folding} {args globals : List Value}
  (haccepted : irVerify (some E.program.strings) f = .ok ())
  (hnames : LabelsInterned E.program.strings f) (hentry : entryConstants E.table f = .ok entry)
  (hentries : EntriesHold E.table f entry reached)
  (hfolded : List.Forall₂ (FoldedTo E.table f entry) (analysisBlocks f).zipIdx folded)
  (hright : FoldsRightRun E f args globals)
include haccepted hnames hentry hentries hfolded hright

theorem fold_step {k : Nat} (hinstr : f.instructions[k]? = some instr) {fr fr' : Frame}
    {os : List Observation} {flow : Exit String Value}
    (hinv : (machine E).Arrives f.instructions (startContext f args globals).frame k fr ∧
      HoldsAt E.table f entry reached k fr) (hexec : execute E instr fr = some (os, fr', flow)) :
    (∃ n, n ≤ 1 ∧ (machine E).block (emittedAt E.table f entry k instr) fr =
        some (n, os, fr', flow)) ∧
      LandedAt (machine E).labelOf f.instructions (fun j g =>
        (machine E).Arrives f.instructions (startContext f args globals).frame j g ∧
          HoldsAt E.table f entry reached j g) k fr' flow := by
  have hrunnable := runnable_of_irVerify haccepted
  obtain ⟨n, os', hsteps⟩ := hinv.1
  have hcondition (before : Folding)
      (hbefore : foldBlock E.table (entry (f.blockOf k)) (codeBefore f k) = .ok before) :
      FoldsRight E.table before.constants instr := by
    refine hright n os' _ hsteps rfl instr hinstr before.constants ?_
    unfold constantsBefore
    rw [hentry]
    change (do let out ← foldBlock E.table (entry (f.blockOf k)) (codeBefore f k); _) = _
    rw [hbefore]
    rfl
  obtain ⟨hruns, hlanded⟩ := holdsAt_execute (verified_of_irVerify haccepted) hrunnable hnames
    hentries hinstr
    (blockCode_folded hfolded (List.getElem?_eq_some_iff.mp hinstr).1) hcondition hinv.2 hexec
  have harrives := hinv.1.landedAt (fun l j j' i i' hi hi' hl hl' => hrunnable.label_index hi hi' hl hl')
    hinstr hexec
  refine ⟨hruns, ?_⟩
  cases flow with
  | next => exact ⟨harrives, hlanded⟩
  | goto l => exact fun j i hi hl => ⟨harrives j i hi hl, hlanded j i hi hl⟩
  | ret v => trivial

theorem constantFolding_simulation :
    Simulation (machine E) (machine E) (expandPieces (emittedAt E.table f entry) f.instructions)
      (fun k fr g => fr = g ∧
        (machine E).Arrives f.instructions (startContext f args globals).frame k fr ∧
        HoldsAt E.table f entry reached k fr) Eq True := by
  refine .ofExpand ?_ ?_ fun k i hi fr o fr₁ flow hinv hexec =>
    fold_step haccepted hnames hentry hentries hfolded hright hi hinv hexec
  · intro k instr l _ hlabel
    exact emittedAt_label k (opcode_of_labelName hlabel)
  · intro k instr hinstr hlabel i hi
    refine labelName_of_opcode ((emitted_at k i hi).not_label fun hop => ?_)
    obtain ⟨id, hops⟩ := (runnable_of_irVerify haccepted).fits instr (List.mem_of_getElem? hinstr) |>.lbl
      (signature_of hop)
    change instr.labelName _ = none at hlabel
    unfold IRInstruction.labelName at hlabel
    rw [hop, hops] at hlabel
    cases hlabel

end Pass

/-- A run on which the folder is right at every step: if the call completes, it leaves the same
after the pass, and at every instruction the run comes to each constant held there is what the
register holds. -/
theorem constantFolding_preserves (program : IRProgram) (table : GlobalFunctions) (call : Callee)
    (f f' : IRFunction) (haccepted : irVerify (some program.strings) f = .ok ())
    (hnames : LabelsInterned program.strings f) (hfold : constantFolding table f = .ok f')
    (args globals : List Value)
    (hright : FoldsRightRun ⟨program, table, call, f.name⟩ f args globals) :
    (∀ o, f.outcome program table call args globals = some o →
        f'.outcome program table call args globals = some o) ∧
    ∀ n ctx, runSteps program table call f n (startContext f args globals) = (none, ctx) →
      ctx.returned = false → ctx.pc < f.instructions.length →
        ∃ C, constantsBefore table f ctx.pc = .ok C ∧
        ∀ r c, C.find? r = some c → ctx.frame.registers r = some c.toValue := by
  let E : Env := ⟨program, table, call, f.name⟩
  have hrunnable : Runnable E.program.strings f := runnable_of_irVerify haccepted
  obtain ⟨entry, folded, hentry, hfolded, rfl⟩ := constantFolding_ok hfold
  obtain ⟨reached, hentries⟩ := entryConstants_hold hentry
  have hstart : HoldsAt E.table f entry reached 0 (startContext f args globals).frame := by
    refine holdsAt_leader (E := E) ?_ f.isLeader_zero
    rw [f.blockOf_zero]
    exact ⟨hentries.start.1, hentries.start.2 _⟩
  have harrives : (machine E).Arrives f.instructions (startContext f args globals).frame 0
      (startContext f args globals).frame := ⟨0, [], .refl _⟩
  have hnew : ({ f with instructions := folded.flatMap Folding.emitted } : IRFunction).instructions =
      Piece.newCode (expandPieces (emittedAt E.table f entry) f.instructions) :=
        constantFolding_code hfolded
  constructor
  · intro o ho
    refine outcome_of_simulation (E := E) hrunnable ?_ (oldCode_expandPieces _ _).symm hnew rfl rfl rfl
      (constantFolding_simulation (E := E) haccepted hnames hentry hentries hfolded hright)
      ⟨rfl, harrives, hstart⟩ (fun fr fr' heq => by rw [heq]) ho
    intro instr hmem
    rw [hnew, newCode_expandPieces] at hmem
    obtain ⟨emitted, hemitted, hinstr⟩ := List.mem_flatten.mp hmem
    obtain ⟨k, hk, rfl⟩ := List.mem_mapIdx.mp hemitted
    exact (emitted_at k instr hinstr).fits (hrunnable.fits _ (List.getElem_mem hk))
  · intro n ctx hrun hret hpc
    have hinv := runSteps_invariant (E := E) hrunnable rfl (fun k i hi fr o fr₁ flow hinv hexec =>
      (fold_step (E := E) haccepted hnames hentry hentries hfolded hright hi hinv hexec).2)
      ⟨harrives, hstart⟩ hrun hret
    obtain ⟨-, hholds⟩ := hinv.2 hpc
    obtain ⟨out, hout⟩ := blockCode_folded hfolded hpc
    obtain ⟨after, hsplit⟩ := blockCode_split (List.getElem?_eq_getElem hpc)
    rw [hsplit] at hout
    obtain ⟨before, -, hbefore, -, -⟩ := foldBlock_append_ok.mp hout
    refine ⟨before.constants, ?_, fun r c hc => (hholds before hbefore).find? hc⟩
    unfold constantsBefore
    rw [hentry]
    change (do let out ← foldBlock table (entry (f.blockOf ctx.pc)) (codeBefore f ctx.pc); _) = _
    rw [hbefore]
    rfl

/-- Adds two constants and branches on a third. -/
def six : IRFunction where
  name := "six"
  parameters := []
  maxRegisters := 5
  instructions :=
    [{ opcode := .loadImm, operands := [.reg 1, .imm 5] },
     { opcode := .loadImm, operands := [.reg 2, .imm 1] },
     { opcode := .add, operands := [.reg 3, .reg 1, .reg 2] },
     { opcode := .loadBool, operands := [.reg 4, .imm 0] },
     { opcode := .branchZero, operands := [.reg 4, .label 0] },
     { opcode := .neg, operands := [.reg 3, .reg 3] },
     { opcode := .label, operands := [.label 0] },
     { opcode := .move, operands := [.reg 0, .reg 3] },
     { opcode := .returnOp, operands := [] }]

def seven : IRFunction where
  name := "seven"
  parameters := []
  maxRegisters := 1
  instructions :=
    [{ opcode := .loadImm, operands := [.reg 0, .imm 7] },
     { opcode := .returnOp, operands := [] }]

/-- Calls into a register that holds a constant, and adds one to the result. -/
def stale : IRFunction where
  name := "stale"
  parameters := []
  maxRegisters := 3
  instructions :=
    [{ opcode := .loadImm, operands := [.reg 1, .imm 5] },
     { opcode := .call, operands := [.str 1, .reg 1, .imm 0] },
     { opcode := .loadImm, operands := [.reg 2, .imm 1] },
     { opcode := .add, operands := [.reg 0, .reg 1, .reg 2] },
     { opcode := .returnOp, operands := [] }]

def foldingProgram : IRProgram where
  functions := [six, seven, stale]
  strings := ⟨["done", "seven"], by decide⟩
  stringConstants := []
  globals := []

def foldedOutcome (f : IRFunction) : Option Outcome := do
  let f' ← (constantFolding noGlobals f).toOption
  f'.outcome foldingProgram noGlobals (callAt foldingProgram noGlobals 256) [] []

theorem foldsRight_of_operands {table : GlobalFunctions} {C : Constants}
    (hcall : instr.opcode ≠ .call) (hglobal : instr.opcode ≠ .globalCall)
    (hops : ∀ dst lhs rhs, instr.operands ≠ [.reg dst, .reg lhs, .reg rhs]) :
    FoldsRight table C instr where
  call hop := absurd hop hcall
  arithmetic dst lhs rhs _ _ _ h := absurd h (hops dst lhs rhs)
  comparison dst lhs rhs _ _ h := absurd h (hops dst lhs rhs)
  logical dst lhs rhs _ _ h := absurd h (hops dst lhs rhs)
  global _ _ _ _ hop := absurd hop hglobal

set_option maxRecDepth 4000 in
theorem six_foldsRight (program : IRProgram) (call : Callee) (args globals : List Value) :
    FoldsRightRun ⟨program, noGlobals, call, "six"⟩ six args globals := by
  intro n os c _ _ instr hinstr C hC
  obtain ⟨k, fr, result⟩ := c
  change six.instructions[k]? = some instr at hinstr
  change constantsBefore noGlobals six k = .ok C at hC
  rcases k with _ | _ | _ | _ | _ | _ | _ | _ | _ | k
  case succ.succ.zero =>
    -- the addition, of 5 and 1
    have hconstants : constantsBefore noGlobals six 2 = .ok [(2, .int 1), (1, .int 5)] := rfl
    cases hinstr
    cases hconstants.symm.trans hC
    refine ⟨fun hop => absurd hop (by decide), ?_, fun _ _ _ _ _ _ hop => absurd hop (by decide),
      fun _ _ _ _ _ _ hop => ?_, fun _ _ _ _ hop => absurd hop (by decide)⟩
    · intro dst lhs rhs l r c hops _ hl hr _
      cases hops
      cases hl
      cases hr
      exact show (typeHintNone : TypeHint) ≠ Variant.float by decide
    · rcases hop with hop | hop <;> cases hop
  case succ.succ.succ.succ.succ.succ.succ.succ.succ => cases hinstr
  all_goals
    cases hinstr
    exact foldsRight_of_operands nofun nofun nofun

set_option maxRecDepth 4000 in
theorem constantFolding_preserves_six :
    irVerify (some foldingProgram.strings) six = .ok () ∧
      ∃ f', constantFolding noGlobals six = .ok f' ∧ f'.instructions.length = 9 ∧
        f'.outcome foldingProgram noGlobals (callAt foldingProgram noGlobals 256) [] [] = some
          { result := .int 6, globals := [], trace := [] } :=
  ⟨rfl, _, rfl, rfl, (constantFolding_preserves foldingProgram noGlobals _ six _ rfl (by decide) rfl
    [] [] (six_foldsRight _ _ _ _)).1 _ rfl⟩

set_option maxRecDepth 4000 in
-- the constant of the destination survives the call
theorem call_leaves_stale_constant :
    irVerify (some foldingProgram.strings) stale = .ok () ∧
      stale.outcome foldingProgram noGlobals (callAt foldingProgram noGlobals 256) [] [] = some
        { result := .int 8, globals := [], trace := [.call "seven" []] } ∧
      foldedOutcome stale = some { result := .int 6, globals := [], trace := [.call "seven" []] } :=
  ⟨rfl, rfl, rfl⟩

end Optimizer
