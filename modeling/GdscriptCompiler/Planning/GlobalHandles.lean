import GdscriptCompiler.Lib.Marks
import GdscriptCompiler.Planning.Constants

/-!
# GlobalHandles — `plan_global_handles`

The plan counts CALL, CALL_HOSTED and AWAIT as stores, but no other instruction that goes to the
host.
-/

namespace Plan

open Ir Lib

/-! ## 1. The plan -/

/-- `direct_operands`: the positions with a `variant_source` call where they are emitted. -/
def directOperands (instr : IRInstruction) : List Nat :=
  if isTypedIntBinary instr then [1, 2]
  else
    match instr.opcode with
    | .branchZero | .branchNotZero => [0]
    | .arraySet => [0, 1]
    | .arrayGet => [1, 2]
    | .dictSet => [0]
    | .arrayAppend => [1]
    | .callSyscall =>
      match (instr.operands[1]? : Option IRValue) with
      | some (.imm code) =>
        if code = ecallArraySize ∨ code = ecallStringSize then [2]
        else if code = ecallArrayAt ∨ code = ecallStringAt ∨ code = ecallDictionaryOps then [3]
        else []
      | _ => []
    | _ => []

-- a STORE_GLOBAL to `index`
def storesTo (instr : IRInstruction) (index : Int64) : Bool :=
  instr.opcode = .storeGlobal &&
    match instr.operands with
    | .imm stored :: _ => stored = index
    | _ => false

def stores (f : IRFunction) (index : Int64) (node : Nat) : Bool :=
  f.instructions[node]?.any fun instr =>
    instr.opcode = .call || instr.opcode = .callHosted || instr.opcode = .await || storesTo instr index

/-- One node of `assigned_before`: mark `i` says that instruction `i` is reachable, mark `n + i`
that it is tainted. -/
def taintPushes (f : IRFunction) (index : Int64) (marks : Finset Nat) (node : Nat) : Finset Nat :=
  let n := f.instructions.length
  if node ∈ marks then
    (successors f node).toFinset ∪
      if n + node ∈ marks ∨ stores f index node then ((successors f node).map (n + ·)).toFinset else ∅
  else ∅

theorem mem_taintPushes {f : IRFunction} {index : Int64} {marks : Finset Nat} {node x : Nat} :
    x ∈ taintPushes f index marks node ↔ node ∈ marks ∧ (x ∈ successors f node ∨
      (f.instructions.length + node ∈ marks ∨ stores f index node = true) ∧
        ∃ j ∈ successors f node, x = f.instructions.length + j) := by
  unfold taintPushes
  dsimp only
  split
  · rename_i hnode
    rw [Finset.mem_union, List.mem_toFinset]
    rw [and_iff_right hnode]
    refine or_congr_right ?_
    split
    · rename_i hout
      rw [List.mem_toFinset, List.mem_map, and_iff_right hout]
      exact exists_congr fun j => and_congr_right fun _ => eq_comm
    · rename_i hout
      exact ⟨fun hx => absurd hx (Finset.notMem_empty x), fun hx => absurd hx.1 hout⟩
  · rename_i hnode
    exact ⟨fun hx => absurd hx (Finset.notMem_empty x), fun hx => absurd hx.1 hnode⟩

theorem taintPushes_lt (f : IRFunction) (index : Int64) (marks : Finset Nat) (node : Nat) :
    ∀ x ∈ taintPushes f index marks node, x < 2 * f.instructions.length := by
  intro x hx
  obtain ⟨-, hx | ⟨-, j, hj, rfl⟩⟩ := mem_taintPushes.mp hx
  · have := successors_lt hx
    omega
  · have := successors_lt hj
    omega

/-- The loop of `assigned_before`. -/
def taint (f : IRFunction) (index : Int64) : Marking where
  size := 2 * f.instructions.length
  nodes := f.instructions.length
  pushes := taintPushes f index
  pushes_lt := taintPushes_lt f index

/-- `assigned_before`: is `j` tainted, from the load at `source`? -/
def assignedBefore (f : IRFunction) (source : Nat) (index : Int64) (j : Nat) : Bool :=
  f.instructions.length + j ∈ (taint f index).solve {source}

def loadedGlobal (instr : IRInstruction) : Option (Int × Int64) :=
  match instr.opcode, instr.operands with
  | .loadGlobal, .reg dst :: .imm index :: _ => some (dst, index)
  | _, _ => none

-- does instruction `j` read `r`?
def readsAt (f : IRFunction) (j : Nat) (r : Int) : Bool :=
  f.instructions[j]?.any fun instr => r ∈ instr.collectReadRegisters

/-- The candidate of the LOAD_GLOBAL at `i`; `count` is the number of globals. -/
def candidate (f : IRFunction) (count : Nat) (i : Nat) (instr : IRInstruction) :
    Option (Int × Int64) :=
  match loadedGlobal instr with
  | some (dst, index) =>
    if index < 0 ∨ count ≤ index.toInt.toNat then none
    else if dst = 0 ∨ definitions f dst ≠ 1 then none
    else if (List.range f.instructions.length).all fun j => !(assignedBefore f i index j &&
      readsAt f j dst) then
      some (dst, index)
    else none
  | none => none

/-- Every read of `r` is at a position that goes to the storage. -/
def onlyDirect (f : IRFunction) (r : Int) : Bool :=
  f.instructions.all fun instr =>
    ((List.range instr.operands.length).all fun index =>
      !(operandRegister instr index = some r && instr.readsOperand index) || index ∈ directOperands
        instr) &&
    !(instr.operands.isEmpty && r ∈ instr.collectReadRegisters)

def globalHandles (f : IRFunction) (count : Nat) (r : Int) : Option Int64 :=
  if onlyDirect f r then
    f.instructions.zipIdx.reverse.findSome? fun (instr, i) =>
      match candidate f count i instr with
      | some (dst, index) => if dst = r then some index else none
      | none => none
  else none

/-! ## 2. The taint is exact -/

/-- The instruction graph leads from `source` to the given instruction over `nodes`, the latest
first. -/
inductive Onward (f : IRFunction) (source : Nat) : List Nat → Nat → Prop
  | here : Onward f source [] source
  | step {nodes : List Nat} {i j : Nat} (h : Onward f source nodes i) (hj : j ∈ successors f i) :
      Onward f source (i :: nodes) j

variable {j : Nat}

section Taint

variable {f : IRFunction} {index : Int64} {source : Nat} {nodes : List Nat}

theorem Onward.lt (h : Onward f source nodes j) (hs : source < f.instructions.length) :
    j < f.instructions.length := by
  cases h with
  | here => exact hs
  | step _ hj => exact successors_lt hj

/-- What the two kinds of mark stand for. -/
structure TaintMeaning (f : IRFunction) (index : Int64) (source : Nat) (x : Nat) : Prop where
  reachable : x < f.instructions.length → ∃ nodes, Onward f source nodes x
  tainted : ∀ j, x = f.instructions.length + j →
    ∃ nodes, Onward f source nodes j ∧ ∃ k ∈ nodes, stores f index k = true

theorem taintMeaning_closed : (taint f index).Closed (TaintMeaning f index source) := by
  intro marks hmarks node hnode x hx
  obtain ⟨hmem, hx⟩ := mem_taintPushes.mp hx
  obtain ⟨nodes, hpath⟩ := (hmarks node hmem).reachable hnode
  rcases hx with hx | ⟨hout, j, hj, rfl⟩
  · refine ⟨fun _ => ⟨_, hpath.step hx⟩, fun j hj => ?_⟩
    have := successors_lt hx
    omega
  · refine ⟨fun hlt => ?_, fun j' hj' => ?_⟩
    · omega
    · obtain rfl : j = j' := by omega
      rcases hout with htainted | hstores
      · obtain ⟨nodes', hpath', k, hk, hstores⟩ := (hmarks _ htainted).tainted node rfl
        exact ⟨_, hpath'.step hj, k, List.mem_cons_of_mem _ hk, hstores⟩
      · exact ⟨_, hpath.step hj, node, List.mem_cons_self, hstores⟩

variable (hs : source < f.instructions.length)
include hs

theorem seeds_lt : ∀ x ∈ ({source} : Finset Nat), x < (taint f index).size := by
  intro x hx
  rw [Finset.mem_singleton.mp hx]
  change source < 2 * f.instructions.length
  omega

theorem Onward.marked (h : Onward f source nodes j) :
    j ∈ (taint f index).solve {source} ∧
      ((∃ k ∈ nodes, stores f index k = true) →
          f.instructions.length + j ∈ (taint f index).solve {source}) := by
  induction h with
  | here =>
    refine ⟨Marking.seeds_subset_solve (seeds_lt hs) (Finset.mem_singleton_self source), ?_⟩
    rintro ⟨k, hk, -⟩
    cases hk
  | @step nodes i j hpath hj ih =>
    have hpushes : taintPushes f index ((taint f index).solve {source}) i ⊆ (taint f index).solve
      {source} :=
      Marking.pushes_solve (seeds_lt hs) (hpath.lt hs)
    refine ⟨hpushes (mem_taintPushes.mpr ⟨ih.1, .inl hj⟩), ?_⟩
    rintro ⟨k, hk, hstores⟩
    refine hpushes (mem_taintPushes.mpr ⟨ih.1, .inr ⟨?_, j, hj, rfl⟩⟩)
    rcases List.mem_cons.mp hk with rfl | hk
    · exact .inr hstores
    · exact .inl (ih.2 ⟨k, hk, hstores⟩)

theorem assignedBefore_iff :
    assignedBefore f source index j = true ↔
      ∃ nodes, Onward f source nodes j ∧ ∃ k ∈ nodes, stores f index k = true := by
  unfold assignedBefore
  rw [decide_eq_true_iff]
  constructor
  · intro h
    have hseed : ∀ x ∈ ({source} : Finset Nat), TaintMeaning f index source x := by
      intro x hx
      rw [Finset.mem_singleton.mp hx]
      refine ⟨fun _ => ⟨[], .here⟩, fun j hj => ?_⟩
      omega
    exact (Marking.solve_least (seeds_lt hs) taintMeaning_closed hseed _ h).tainted j rfl
  · rintro ⟨nodes, hpath, hstores⟩
    exact (hpath.marked hs).2 hstores

end Taint

/-! ## 3. The handles -/

/-- `r` is read from the storage of global `g`; its one definition is the load at `i`. -/
structure HandleAt (f : IRFunction) (count : Nat) (r : Int) (g : Int64) (i : Nat) : Prop where
  load : f.instructions[i]?.bind loadedGlobal = some (r, g)
  range : 0 ≤ g ∧ g.toInt.toNat < count
  notReturn : r ≠ 0
  one : definitions f r = 1
  direct : onlyDirect f r = true
  -- no path over a store leads to a read
  untainted : ∀ nodes j, Onward f i nodes j → (∃ k ∈ nodes, stores f g k = true) → readsAt f j r = false

section Handles

variable {f : IRFunction} {count : Nat} {r : Int} {g : Int64} {i : Nat} {instr : IRInstruction}

theorem loadedGlobal_spec (h : loadedGlobal instr = some (r, g)) :
    instr.opcode = .loadGlobal ∧ instr.destinationRegister = r := by
  unfold loadedGlobal at h
  split at h
  · rename_i dst index rest hop hops
    cases h
    exact ⟨hop, destination_of_index (j := 0) (by rw [hop]; rfl) (by rw [hops]; rfl)⟩
  · cases h

theorem candidate_iff (hi : f.instructions[i]? = some instr) (hdirect : onlyDirect f r = true) :
    candidate f count i instr = some (r, g) ↔ HandleAt f count r g i := by
  have hlt := (List.getElem?_eq_some_iff.mp hi).1
  have hall : (List.range f.instructions.length).all
    (fun j => !(assignedBefore f i g j && readsAt f j r)) = true ↔
      ∀ nodes j, Onward f i nodes j → (∃ k ∈ nodes, stores f g k = true) → readsAt f j r = false := by
    rw [List.all_eq_true]
    constructor
    · intro h nodes j hpath hstores
      have hj := h j (List.mem_range.mpr (hpath.lt hlt))
      rw [(assignedBefore_iff hlt).mpr ⟨nodes, hpath, hstores⟩] at hj
      simpa using hj
    · intro h j _
      rw [Bool.not_eq_true', Bool.and_eq_false_iff]
      cases htainted : assignedBefore f i g j with
      | false => exact .inl rfl
      | true =>
        obtain ⟨nodes, hpath, hstores⟩ := (assignedBefore_iff hlt).mp htainted
        exact .inr (h nodes j hpath hstores)
  constructor
  · intro h
    unfold candidate at h
    split at h
    · rename_i dst index hload
      split at h
      · cases h
      rename_i hrange
      split at h
      · cases h
      rename_i hdst
      split at h
      · rename_i hsafe
        cases h
        rw [not_or, not_not] at hdst
        rw [not_or] at hrange
        refine ⟨by rw [hi]; exact hload, ⟨Int64.not_lt.mp hrange.1, Nat.lt_of_not_le hrange.2⟩,
          hdst.1, hdst.2, hdirect, ?_⟩
        exact hall.mp hsafe
      · cases h
    · cases h
  · intro h
    have hload : loadedGlobal instr = some (r, g) := by
      have := h.load
      rwa [hi] at this
    unfold candidate
    rw [hload]
    dsimp only
    rw [if_neg (not_or.mpr ⟨Int64.not_lt.mpr h.range.1, Nat.not_le.mpr h.range.2⟩),
      if_neg (not_or.mpr ⟨h.notReturn, not_not.mpr h.one⟩), if_pos (hall.mpr h.untainted)]

theorem globalHandles_iff : globalHandles f count r = some g ↔ ∃ i, HandleAt f count r g i := by
  unfold globalHandles
  constructor
  · intro h
    split at h
    · rename_i hdirect
      obtain ⟨⟨instr, i⟩, hmem, hsome⟩ := List.exists_of_findSome?_eq_some h
      have hi := List.mem_zipIdx_iff_getElem?.mp (List.mem_reverse.mp hmem)
      dsimp only at hsome
      split at hsome
      · rename_i dst index hcandidate
        split at hsome
        · rename_i hdst
          cases hdst
          cases hsome
          exact ⟨i, (candidate_iff hi hdirect).mp hcandidate⟩
        · cases hsome
      · cases hsome
    · cases h
  · rintro ⟨i, h⟩
    rw [if_pos h.direct]
    obtain ⟨instr, hi, hload⟩ := Option.bind_eq_some_iff.mp h.load
    cases hfind : f.instructions.zipIdx.reverse.findSome? (fun (instr, i) =>
        match candidate f count i instr with
        | some (dst, index) => if dst = r then some index else none
        | none => none) with
    | none =>
      have hnone := List.findSome?_eq_none_iff.mp hfind (instr, i)
        (List.mem_reverse.mpr (List.mem_zipIdx_iff_getElem?.mpr hi))
      dsimp only at hnone
      rw [(candidate_iff hi h.direct).mpr h] at hnone
      simp at hnone
    | some g' =>
      -- the load found is the same one
      obtain ⟨⟨instr', i'⟩, hmem, hsome⟩ := List.exists_of_findSome?_eq_some hfind
      have hi' := List.mem_zipIdx_iff_getElem?.mp (List.mem_reverse.mp hmem)
      dsimp only at hsome
      split at hsome
      · rename_i dst index hcandidate
        split at hsome
        · rename_i hdst
          cases hdst
          cases hsome
          obtain ⟨instr'', hi'', hload'⟩ :=
            Option.bind_eq_some_iff.mp ((candidate_iff hi' h.direct).mp hcandidate).load
          have hpc := definition_unique h.one hi (loadedGlobal_spec hload).2 hi''
            (loadedGlobal_spec hload').2
          rw [hpc, hi] at hi''
          cases hi''
          rw [hload] at hload'
          cases hload'
          rfl
        · cases hsome
      · cases hsome

end Handles

/-! ## 4. Globals along a run -/

/-- A global variable of the program. -/
structure GlobalVar where
  valueType : TypeHint
  holdsObject : Bool

/-- What the backend knows of the program around a function: the table of global functions and
`m_globals`. -/
structure Surroundings where
  functions : GlobalFunctions
  globals : List GlobalVar

-- `is_complex_variant_type`: RECT2, RECT2I, PLANE and OBJECT are 7, 8, 14 and 24
def isComplexVariantType (hint : TypeHint) : Bool :=
  hint ∉ [Variant.nil, Variant.bool, Variant.int, Variant.float, Variant.vector2, Variant.vector2i,
    Variant.vector3,
    Variant.vector3i, Variant.vector4, Variant.vector4i, 7, 8, 14, Variant.color, 24]

def isVectorHint (hint : TypeHint) : Bool :=
  hint ∈ [Variant.vector2, Variant.vector3, Variant.vector4, Variant.color, Variant.vector2i,
    Variant.vector3i, Variant.vector4i]

-- does `gen_store_global` make a host call?
def GlobalVar.storeCalls (v : GlobalVar) : Bool :=
  v.valueType = typeHintNone || isComplexVariantType v.valueType || v.holdsObject

def isInlineKind (kind : GlobalKind) : Bool := kind = .intOp || kind = .floatOp

def kindInline (functions : GlobalFunctions) (fn : Int64) : Bool :=
  match functions.globalFunction fn with
  | .ok info => isInlineKind info.kind
  | .error _ => false

def globalCallMayEcall (functions : GlobalFunctions) (fn : Int64) : Bool :=
  match functions.globalFunction fn with
  | .ok info =>
    if info.kind = .numeric then !(kindInline functions info.intForm &&
      kindInline functions info.floatForm)
    else !isInlineKind info.kind
  | .error _ => true

/-- Does the code emitted for an instruction go to the host or to other script code?
`instruction_may_ecall`, less what it counts although its code stays in the frame. -/
def runsScript (S : Surroundings) (instr : IRInstruction) : Bool :=
  let hint := instr.typeHint
  let bothReg := (operandRegister instr 1).isSome && (operandRegister instr 2).isSome
  match instr.opcode with
  | .loadImm | .loadFloatImm | .loadBool | .loadNil | .loadGlobal | .move | .typeTest
  | .typeTestMask | .typeOf | .makeScoped | .batchGet | .codepointGet | .label | .switch | .jump
  | .returnOp | .convert | .coerce => false
  | .makeVector2 | .makeVector3 | .makeVector4 | .makeVector2i | .makeVector3i | .makeVector4i
  | .makeColor | .makeRect2 | .makeRect2i | .makePlane | .vgetInline | .vsetInline => false
  | .add | .sub | .mul | .div | .mod | .bitAnd | .bitOr | .bitXor | .shl | .shr =>
    !(bothReg && (hint = Variant.int || hint = Variant.float || isVectorHint hint))
  | .cmpEq | .cmpNeq | .cmpLt | .cmpLte | .cmpGt | .cmpGte =>
    !(bothReg && (hint = Variant.int || hint = Variant.float))
  | .branchEq | .branchNeq | .branchLt | .branchLte | .branchGt | .branchGte | .neg =>
    hint ≠ Variant.int && hint ≠ Variant.float
  | .branchZero | .branchNotZero => hint ∉ [Variant.nil, Variant.bool, Variant.int, Variant.float]
  | .bitNot => hint ≠ Variant.int
  | .globalCall =>
    match (instr.operands[1]? : Option IRValue) with
    | some (.imm fn) => globalCallMayEcall S.functions fn
    | _ => true
  | .storeGlobal =>
    match (instr.operands[0]? : Option IRValue) with
    | some (.imm index) => (S.globals[index.toInt.toNat]?.map GlobalVar.storeCalls).getD true
    | _ => true
  | _ => true

/-- A host with globals: LOAD_GLOBAL and STORE_GLOBAL do what they say, what goes to the host or to
other script code may do anything to the globals, and nothing else touches them. -/
structure GlobalHost (S : Surroundings) (Value World : Type) extends Host Value World where
  globals : World → Int64 → Value
  loads : ∀ instr dst index values world, loadedGlobal instr = some (dst, index) →
    result instr values world = globals world index
  stored : ∀ instr value values world index, runsScript S instr = false → storesTo instr index = true →
    globals (after instr (value :: values) world) index = value
  keeps : ∀ instr values world index, runsScript S instr = false → storesTo instr index = false →
    globals (after instr values world) index = globals world index

def runsScriptAt (S : Surroundings) (f : IRFunction) (k : Nat) : Bool :=
  f.instructions[k]?.any (runsScript S)

/-- Along every run, where an instruction reads a handle the global holds what the load left in the
register. -/
def HandlesHold (V : VerifiedFunction) (S : Surroundings) : Prop :=
  ∀ (Value World : Type) (G : GlobalHost S Value World) (p : Point V G.toHost) (r : Int) (g : Int64),
    globalHandles V.function S.globals.length r = some g → readsAt V.function p.config.pc r = true →
    G.globals p.config.world g = p.config.registers r

/-- On no path does an instruction that may run script code come between the load of a handle and a
read of it. -/
def Undisturbed (V : VerifiedFunction) (S : Surroundings) : Prop :=
  ∀ r g i, HandleAt V.function S.globals.length r g i → ∀ recent older j,
    V.Reached (recent ++ i :: older) j →
    i ∉ recent → readsAt V.function j r = true → ∀ k ∈ recent, runsScriptAt S V.function k = false

variable {recent older past : List Nat} {instr : IRInstruction}

theorem storesTo_eq_false (h : instr.opcode ≠ .storeGlobal) (index : Int64) :
    storesTo instr index = false := by
  unfold storesTo
  rw [decide_eq_false h, Bool.false_and]

section Runs

variable {Value World : Type} {V : VerifiedFunction} {S : Surroundings} {count : Nat} {r : Int}
  {g : Int64} {i : Nat}

theorem onward_of_reached (h : V.Reached (recent ++ i :: older) j) :
    Onward V.function i (recent ++ [i]) j := by
  induction recent generalizing j with
  | nil =>
    cases h with
    | step _ hj => exact .step .here hj
  | cons k recent ih =>
    cases h with
    | step h hj => exact .step (ih h) hj

variable {G : GlobalHost S Value World} {start c : Config Value World} {past : List Nat}

theorem written_loadedGlobal (h : loadedGlobal instr = some (r, g)) (values : List Value)
    (world : World) :
    G.written instr values world = G.globals world g := by
  rw [← G.loads instr r g values world h]
  have hop := (loadedGlobal_spec h).1
  unfold Host.written
  rw [hop]

theorem perform_load (h : HandleAt V.function count r g i)
    (hi : V.function.instructions[i]? = some instr) (c : Config Value World) (j : Nat) :
    G.globals (G.perform instr c j).world g = (G.perform instr c j).registers r := by
  have hload : loadedGlobal instr = some (r, g) := by
    have := h.load
    rwa [hi] at this
  have hspec := loadedGlobal_spec hload
  change G.globals (G.after instr (c.values instr) c.world) g =
    if r = instr.destinationRegister then _ else _
  have hquiet : runsScript S instr = false := by
    unfold runsScript
    rw [hspec.1]
  rw [if_pos hspec.2.symm, written_loadedGlobal hload,
    G.keeps instr _ _ g hquiet (storesTo_eq_false (by rw [hspec.1]; decide) g)]

-- between the load and the next one the register is not written
theorem perform_registers (h : HandleAt V.function count r g i) {k : Nat}
    (hk : V.function.instructions[k]? = some instr) (hne : k ≠ i) (H : Host Value World)
    (c : Config Value World) (j : Nat) :
    (H.perform instr c j).registers r = c.registers r := by
  obtain ⟨load, hi, hload⟩ := Option.bind_eq_some_iff.mp h.load
  refine if_neg fun hdst => hne ?_
  exact definition_unique h.one hi (loadedGlobal_spec hload).2 hk hdst.symm

theorem stores_to {k : Nat} (hk : V.function.instructions[k]? = some instr)
    (h : stores V.function g k = false) :
    storesTo instr g = false := by
  unfold stores at h
  rw [hk] at h
  change (_ || storesTo instr g) = false at h
  rw [Bool.or_eq_false_iff] at h
  exact h.2

theorem runsScriptAt_eq {k : Nat} (hk : V.function.instructions[k]? = some instr) :
    runsScriptAt S V.function k = runsScript S instr := by
  unfold runsScriptAt
  rw [hk]
  rfl

theorem perform_globals {k : Nat} (hk : V.function.instructions[k]? = some instr)
    (hscript : runsScriptAt S V.function k = false) (hstores : stores V.function g k = false)
    (c : Config Value World) (j : Nat) :
    G.globals (G.perform instr c j).world g = G.globals c.world g := by
  rw [runsScriptAt_eq hk] at hscript
  exact G.keeps instr _ _ g hscript (stores_to hk hstores)

theorem Runs.agree (h : HandleAt V.function count r g i) (hrun : Runs V G.toHost start past c)
    (hpast : past = recent ++ i :: older) (hnot : i ∉ recent)
    (hquiet : ∀ k ∈ recent, runsScriptAt S V.function k = false ∧ stores V.function g k = false) :
    G.globals c.world g = c.registers r := by
  induction hrun generalizing recent with
  | start => cases recent <;> cases hpast
  | @step past c c' hrun hstep ih =>
    obtain ⟨instr, hinstr, -, heq⟩ := G.step_eq_some hstep
    rw [heq]
    cases recent with
    | nil =>
      obtain ⟨hpc, -⟩ := List.cons.inj hpast
      rw [hpc] at hinstr
      exact perform_load h hinstr c _
    | cons k recent =>
      obtain ⟨rfl, htail⟩ := List.cons.inj hpast
      have hk := hquiet _ List.mem_cons_self
      have hne : c.pc ≠ i := fun heq => hnot (heq ▸ List.mem_cons_self)
      rw [perform_globals hinstr hk.1 hk.2, perform_registers h hinstr hne]
      exact ih htail (fun hin => hnot (List.mem_cons_of_mem _ hin)) fun k hk => hquiet k
        (List.mem_cons_of_mem _ hk)

theorem HandleAt.loaded (h : HandleAt V.function count r g i) {H : Host Value World}
    (hrun : Runs V H start past c) (hread : readsAt V.function c.pc r = true) :
    i ∈ past := by
  unfold readsAt at hread
  obtain ⟨instr, hinstr, hr⟩ := (Option.any_eq_true _ _).mp hread
  have hr := of_decide_eq_true hr
  have hlt : c.pc < V.function.instructions.length := (List.getElem?_eq_some_iff.mp hinstr).1
  obtain ⟨load, hi, hload⟩ := Option.bind_eq_some_iff.mp h.load
  have hdst := (loadedGlobal_spec hload).2
  have hbare : instr.isBareReturn = false := by
    rw [Bool.eq_false_iff]
    intro hbare
    rw [IRInstruction.collectReadRegisters, if_pos hbare] at hr
    exact h.notReturn (List.mem_singleton.mp hr)
  have hwritten := ((hrun.reached hlt).read_written hinstr hbare hr).resolve_right
    (not_parameter h.one hi hdst)
  obtain ⟨k, hk, instr', hinstr', hdst'⟩ := hwritten
  rwa [definition_unique h.one hi hdst hinstr' hdst'] at hk

theorem handlesHold_of_undisturbed (h : Undisturbed V S) : HandlesHold V S := by
  intro Value World G p r g hhandle hread
  obtain ⟨i, hat⟩ := globalHandles_iff.mp hhandle
  obtain ⟨recent, older, hpast, hnot⟩ := List.eq_append_cons_of_mem (hat.loaded p.runs hread)
  have hlt : p.config.pc < V.function.instructions.length := by
    unfold readsAt at hread
    obtain ⟨instr, hinstr, -⟩ := (Option.any_eq_true _ _).mp hread
    exact (List.getElem?_eq_some_iff.mp hinstr).1
  have hreached := p.runs.reached hlt
  rw [hpast] at hreached
  refine p.runs.agree hat hpast hnot fun k hk =>
    ⟨h r g i hat recent older _ hreached hnot hread k hk, ?_⟩
  -- a store on the way would have tainted the read
  rw [Bool.eq_false_iff]
  intro hstores
  have hclean := hat.untainted _ _ (onward_of_reached hreached) ⟨k, List.mem_append_left _ hk, hstores⟩
  rw [hread] at hclean
  cases hclean

end Runs

/-! ## 5. A host that follows a path -/

/-- The globals and the number of steps made. -/
structure CountedWorld where
  globals : Int64 → Nat
  steps : Nat

def countedGlobals (S : Surroundings) (instr : IRInstruction) (values : List Nat)
    (globals : Int64 → Nat) (index : Int64) : Nat :=
  if storesTo instr index then values.headD 0
  else if runsScript S instr then globals index + 1
  else globals index

def countedResult (instr : IRInstruction) (globals : Int64 → Nat) : Nat :=
  match loadedGlobal instr with
  | some (_, index) => globals index
  | none => 0

/-- At step `k` the run takes the successor `choice k`. -/
def countingHost (S : Surroundings) (choice : Nat → Nat) : Host Nat CountedWorld where
  int _ := 0
  result instr _ world := countedResult instr world.globals
  after instr values world := ⟨countedGlobals S instr values world.globals, world.steps + 1⟩
  next _ _ world := choice world.steps

section Laws

variable {S : Surroundings} {instr : IRInstruction} {globals : Int64 → Nat} {index : Int64}

theorem countedResult_load {dst : Int} (h : loadedGlobal instr = some (dst, index)) :
    countedResult instr globals = globals index := by
  rw [countedResult, h]

theorem countedGlobals_keep (values : List Nat) (hscript : runsScript S instr = false)
    (hnot : storesTo instr index = false) :
    countedGlobals S instr values globals index = globals index := by
  rw [countedGlobals, hnot, hscript]
  rfl

theorem countedGlobals_stored (value : Nat) (values : List Nat) (h : storesTo instr index = true) :
    countedGlobals S instr (value :: values) globals index = value := by
  rw [countedGlobals, h]
  rfl

end Laws

def counting (S : Surroundings) (choice : Nat → Nat) : GlobalHost S Nat CountedWorld where
  toHost := countingHost S choice
  globals := CountedWorld.globals
  loads _ _ _ _ _ h := countedResult_load h
  stored _ value values _ _ _ h := countedGlobals_stored value values h
  keeps _ values _ _ hscript hnot := countedGlobals_keep values hscript hnot

section Counting

variable {V : VerifiedFunction} {S : Surroundings} {r : Int} {g : Int64} {i : Nat}
  {choice : Nat → Nat}

theorem follow (h : V.Reached past j)
    (hchoice : ∀ later y x earlier, j :: past = later ++ y :: x :: earlier →
      (successors V.function x)[choice earlier.length]? = some y) :
    ∃ c, Runs V (countingHost S choice) (entry (fun _ => 0) ⟨fun _ => 0, 0⟩) past c ∧ c.pc = j ∧
      c.world.steps = past.length := by
  induction h with
  | start => exact ⟨_, .start rfl, rfl, rfl⟩
  | @step past i j _ hj ih =>
    obtain ⟨c, hrun, rfl, hsteps⟩ := ih fun later y x earlier heq =>
      hchoice (j :: later) y x earlier (by rw [heq]; rfl)
    obtain ⟨instr, hinstr, -⟩ := mem_successors.mp hj
    have hnext := hchoice [] j c.pc past rfl
    rw [← hsteps] at hnext
    refine ⟨(countingHost S choice).perform instr c j, .step hrun ?_, rfl, congrArg (· + 1) hsteps⟩
    unfold Host.step
    rw [hinstr]
    change ((successors V.function c.pc)[choice c.world.steps]?).map _ = _
    rw [hnext]
    rfl

/-- Since the load the global has counted the instructions that ran script code. -/
theorem Runs.counted {count : Nat} (h : HandleAt V.function count r g i)
    {start c : Config Nat CountedWorld} (hrun : Runs V (countingHost S choice) start past c)
    (hpast : past = recent ++ i :: older) (hnot : i ∉ recent)
    (hquiet : ∀ k ∈ recent, stores V.function g k = false) :
    c.world.globals g = c.registers r + recent.countP (runsScriptAt S V.function) := by
  induction hrun generalizing recent with
  | start => cases recent <;> cases hpast
  | @step past c c' hrun hstep ih =>
    obtain ⟨instr, hinstr, -, heq⟩ := (countingHost S choice).step_eq_some hstep
    rw [heq]
    cases recent with
    | nil =>
      obtain ⟨hpc, -⟩ := List.cons.inj hpast
      rw [hpc] at hinstr
      exact perform_load (G := counting S choice) h hinstr c c'.pc
    | cons k recent =>
      obtain ⟨rfl, htail⟩ := List.cons.inj hpast
      have hk := hquiet _ List.mem_cons_self
      have hne : c.pc ≠ i := fun heq => hnot (heq ▸ List.mem_cons_self)
      have hsofar := ih htail (fun hin => hnot (List.mem_cons_of_mem _ hin)) fun k hk =>
        hquiet k (List.mem_cons_of_mem _ hk)
      rw [perform_registers h hinstr hne, List.countP_cons, runsScriptAt_eq hinstr]
      change countedGlobals S instr _ c.world.globals g = _
      rw [countedGlobals, stores_to hinstr hk, if_neg Bool.false_ne_true, hsofar]
      split <;> omega

/-- The choices that follow `path`, the latest instruction first. -/
def choiceOf (f : IRFunction) (path : List Nat) (k : Nat) : Nat :=
  (successors f (path.reverse.getD k 0)).idxOf (path.reverse.getD (k + 1) 0)

theorem reached_edge (h : V.Reached past j) {later earlier : List Nat} {x y : Nat}
    (heq : j :: past = later ++ y :: x :: earlier) :
    y ∈ successors V.function x := by
  induction h generalizing later with
  | start =>
    have hlen := congrArg List.length heq
    simp at hlen
    omega
  | step _ hj ih =>
    cases later with
    | nil =>
      obtain ⟨rfl, htail⟩ := List.cons.inj heq
      obtain ⟨rfl, -⟩ := List.cons.inj htail
      exact hj
    | cons _ later => exact ih (List.cons.inj heq).2

theorem choiceOf_follows (h : V.Reached past j) (later : List Nat) (y x : Nat)
    (earlier : List Nat) (heq : j :: past = later ++ y :: x :: earlier) :
    (successors V.function x)[choiceOf V.function (j :: past) earlier.length]? = some y := by
  have hrev : (j :: past).reverse = earlier.reverse ++ x :: y :: later.reverse := by
    rw [heq, List.reverse_append, List.reverse_cons, List.reverse_cons, List.append_assoc,
      List.append_assoc]
    rfl
  unfold choiceOf
  rw [hrev, List.getD_append_right _ _ _ _ (by simp), List.getD_append_right _ _ _ _ (by simp)]
  simp only [List.length_reverse, Nat.sub_self, Nat.add_sub_cancel_left, List.getD_cons_zero,
    List.getD_cons_succ]
  exact List.getElem?_idxOf (reached_edge h heq)

theorem undisturbed_of_handlesHold (h : HandlesHold V S) : Undisturbed V S := by
  intro r g i hat recent older j hreached hnot hread k hk
  rw [Bool.eq_false_iff]
  intro hscript
  obtain ⟨c, hrun, rfl, -⟩ := follow hreached (choiceOf_follows hreached)
  have hagree := h Nat CountedWorld (counting S _) ⟨_, _, c, hrun⟩ r g
    (globalHandles_iff.mpr ⟨i, hat⟩) hread
  have hquiet : ∀ k ∈ recent, stores V.function g k = false := by
    intro k hk
    rw [Bool.eq_false_iff]
    intro hstores
    have hclean := hat.untainted _ _ (onward_of_reached hreached) ⟨k, List.mem_append_left _ hk, hstores⟩
    rw [hread] at hclean
    cases hclean
  have hcounted := hrun.counted hat rfl hnot hquiet
  have hpos : 0 < recent.countP (runsScriptAt S V.function) := List.countP_pos_iff.mpr ⟨k, hk, hscript⟩
  change c.world.globals g = c.registers r at hagree
  omega

/-- Reads of handles see the loaded value along every run exactly if no script code can run in
between. -/
theorem handlesHold_iff (V : VerifiedFunction) (S : Surroundings) :
    HandlesHold V S ↔ Undisturbed V S :=
  ⟨undisturbed_of_handlesHold, handlesHold_of_undisturbed⟩

end Counting

/-! ## 6. A call on the way -/

/-- `LOAD_GLOBAL r1, 0`, a VCALL, and a branch on r1. -/
def disturbedFunction : IRFunction where
  name := "f"
  parameters := ["node"]
  instructions := [
    { opcode := .loadGlobal, operands := [.reg 1, .imm 0] },
    { opcode := .vcall, operands := [.reg 2, .reg 0, .str 1, .imm 0] },
    { opcode := .branchZero, operands := [.reg 1, .label 0] },
    { opcode := .label, operands := [.label 0] },
    { opcode := .returnOp, operands := [] }]
  maxRegisters := 3

theorem accepted_disturbed :
    irVerify (some ⟨["done", "toggle"], by decide⟩) disturbedFunction = .ok () := rfl

def disturbed : VerifiedFunction where
  function := disturbedFunction
  strings := ⟨["done", "toggle"], by decide⟩
  named := by decide
  accepted := accepted_disturbed

-- a program with one untyped global
def oneGlobal : Surroundings where
  functions := noGlobals
  globals := [⟨typeHintNone, false⟩]

/-- r1 is a handle of global 0, the method called stores to the global, and the branch sees what it
stored. -/
theorem disturbed_handle :
    globalHandles disturbedFunction 1 1 = some 0 ∧
      ∃ p : Point disturbed (counting oneGlobal fun _ => 0).toHost,
        readsAt disturbedFunction p.config.pc 1 = true ∧
      p.config.world.globals 0 = 1 ∧ p.config.registers 1 = 0 := by
  refine ⟨by decide +kernel, ?_⟩
  let start : Config Nat CountedWorld := entry (fun _ => 0) ⟨fun _ => 0, 0⟩
  have hrun : ((countingHost oneGlobal fun _ => 0).run disturbedFunction start 2).map
      (fun p => (p.2.pc, p.2.world.globals 0, p.2.registers 1)) = some (2, 1, 0) := by
    decide +kernel
  obtain ⟨⟨past, c⟩, hsome, heq⟩ := Option.map_eq_some_iff.mp hrun
  obtain ⟨hpc, heq⟩ := Prod.mk.inj heq
  obtain ⟨hglobal, hregister⟩ := Prod.mk.inj heq
  refine ⟨⟨start, past, c, runs_of_run (V := disturbed) rfl hsome⟩, ?_, hglobal, hregister⟩
  dsimp only at hpc ⊢
  rw [hpc]
  decide +kernel

end Plan
