import GdscriptCompiler.Codegen.UntypedFor

/-!
# Walks — `for` loops that take a container in batches

One shape for `gen_array_walk` and the two forms of `gen_string_walk`, with what differs as
parameters.
-/

namespace Codegen

open Ir Lib

/-! ## 1. The shape -/

structure Walk where
  indexReg : Int
  oneReg : Int
  leftReg : Int
  -- where the next element of the batch is
  cursorReg : Int
  elemReg : Int
  batchScope : Option Int64
  bodyScope : Option Int64
  -- its buffers, and its entries of `array_batch_scopes`
  buffers : List Int64
  codepoints : List Int64
  batchScopes : List (Int64 × Int64)
  refillLabel : Nat
  haveLabel : Nat
  continueLabel : Nat
  endLabel : Nat
  -- constants loaded before the loop
  loads : List (Int × Int64)
  -- the batch call, up to the number of elements it made
  fetch : List Slot
  -- the cursor set after a refill, or before the next one
  reset : Option Int64
  rewind : Option Int64
  get : Slot

namespace Walk

variable (L : Walk)

def setCursor : Option Int64 → List Slot
  | none => []
  | some v => [ins .loadImm [.reg L.cursorReg, .imm v] Variant.int]

def exit (after : List Slot) : List Slot :=
  ins .label [.label L.endLabel] :: (emitScopeRelease L.batchScope ++ after)

def turn (after : List Slot) : List Slot :=
  L.setCursor L.rewind ++ (ins .jump [.label L.refillLabel] :: L.exit after)

def latch (after : List Slot) : List Slot :=
  ins .label [.label L.continueLabel] ::
  ins .add [.reg L.indexReg, .reg L.indexReg, .reg L.oneReg] Variant.int ::
  ins .add [.reg L.cursorReg, .reg L.cursorReg, .reg L.oneReg] Variant.int ::
  ins .sub [.reg L.leftReg, .reg L.leftReg, .reg L.oneReg] Variant.int ::
  ins .branchNotZero [.reg L.leftReg, .label L.haveLabel] Variant.int :: L.turn after

def have_ (after : List Slot) : List Slot :=
  ins .label [.label L.haveLabel] :: (emitScopeRelease L.bodyScope ++ (L.get :: .body :: L.latch after))

def filled (after : List Slot) : List Slot :=
  ins .branchZero [.reg L.leftReg, .label L.endLabel] Variant.int ::
    (openScope L.bodyScope ++ (L.setCursor L.reset ++ L.have_ after))

def refill (after : List Slot) : List Slot :=
  ins .label [.label L.refillLabel] :: (emitScopeRelease L.batchScope ++ (L.fetch ++ L.filled after))

def constants : List Slot := L.loads.map fun p => ins .loadImm [.reg p.1, .imm p.2] Variant.int

def gen (after : List Slot) : List Slot := L.constants ++ (openScope L.batchScope ++ L.refill after)

-- `others` are the entries of the function's other walks
def context (E : Env) (others : List (Int64 × Int64)) : LoopContext where
  continueLabel := E.program.strings.nameOf L.continueLabel
  breakLabel := E.program.strings.nameOf L.endLabel
  scopes := L.batchScope.toList ++ L.bodyScope.toList
  buffers := L.buffers
  codepoints := L.codepoints
  batchScopes := others ++ L.batchScopes

end Walk

def walkEnter {W : Type} (elemReg : Int) (elements : List Value) (k : Nat) (s : View W) :
    Option (View W) :=
  elements[k]?.map fun v => s.assign elemReg v

/-! ## 2. What the parts have to do -/

section Parts

variable {W : Type} {own : List Int} (E : Env) (H : Host W) (B : LoopBody W own) (L : Walk)
  (others : List (Int64 × Int64)) (code : List Slot) (elements : List Value)

/-- `m` elements from number `k` on are in the batch, at the cursor. -/
structure Walk.Avail (held : Memory → Int64 → Value → Prop) (k m : Nat) (t : LoopState W) :
    Prop where
  index : t.frame.registers L.indexReg = some (.int (Int64.ofNat k))
  one : t.frame.registers L.oneReg = some (.int 1)
  left : t.frame.registers L.leftReg = some (.int (Int64.ofNat m))
  cursor : ∃ c : Int64, t.frame.registers L.cursorReg = some (.int c) ∧
    ∀ j < m, ∃ v ∈ elements[k + j]?, held t.memory (c + Int64.ofNat j) v
  bound : k + m ≤ elements.length

/-- Registers that hold the same values throughout a walk, and its outer scope. -/
structure Holds (consts : List (Int × Value)) (scope : Option Int64) (t : LoopState W) : Prop where
  registers : ∀ p ∈ consts, t.frame.registers p.1 = some p.2
  marked : t.memory.Marked scope

/-- Nothing but registers of `rs` and the batches differs. -/
structure Fetched (rs : List Int) (t t' : LoopState W) : Prop where
  registers : ∀ r, r ∉ rs → t'.frame.registers r = t.frame.registers r
  globals : t'.frame.globals = t.frame.globals
  world : t'.world = t.world
  marks : t'.memory.marks = t.memory.marks

/-- The batch call makes `m` elements from number `k` on available, from the slot `c`, to a body
whose scope is marked after it. -/
def Walk.Fetches (held : Memory → Int64 → Value → Prop) (fetchRegs : List Int) (k : Nat)
    (t : LoopState W) : Prop :=
  ∃ m c t', (∀ rest, (loopMachine E H B (L.context E others)).Runs code (L.fetch ++ rest) t [] rest t') ∧
    Fetched fetchRegs t t' ∧ t'.frame.registers L.leftReg = some (.int (Int64.ofNat m)) ∧
    k + m ≤ elements.length ∧ (k < elements.length → 0 < m) ∧
    (∀ j < m, ∃ v ∈ elements[k + j]?, held (t'.mark L.bodyScope).memory (c + Int64.ofNat j) v) ∧
    (L.reset = none → t'.frame.registers L.cursorReg = some (.int c)) ∧ ∀ v ∈ L.reset, c = v

/-- The parts that differ: `held` is a value in the batch that the releases before the next refill
leave there, `consts` what the walk keeps throughout, `container` that the container still has these
elements in a world. -/
structure Walk.Parts (held : Memory → Int64 → Value → Prop) (container : W → Prop)
    (consts : List (Int × Value)) (fetchRegs : List Int) : Prop where
  apart : [L.indexReg, L.oneReg, L.leftReg, L.cursorReg, L.elemReg].Nodup
  kept : [L.indexReg, L.oneReg, L.leftReg, L.cursorReg] ++ fetchRegs ++ consts.map Prod.fst ⊆ own
  consts_apart : ∀ r ∈ consts.map Prod.fst, r ∉ [L.indexReg, L.leftReg, L.cursorReg, L.elemReg]
  fetch_apart : ∀ r ∈ L.indexReg :: L.oneReg :: consts.map Prod.fst, r ∉ fetchRegs
  short : elements.length < 2 ^ 63
  spares : B.Spares (L.context E others)
  held_spared : ∀ {memory memory' c v}, Memory.Spares (L.context E others) memory memory' →
    held memory c v →
    held memory' c v
  held_released : ∀ {t : LoopState W} {c v}, held t.memory c v →
    held (t.release (L.context E others) L.bodyScope).memory c v
  container_kept : ∀ {s os s' x}, B.run s = some (os, s', x) → container s.world → container s'.world
  fetches : ∀ {k t}, Holds consts L.batchScope t → container t.world →
    t.frame.registers L.indexReg = some (.int (Int64.ofNat k)) →
    (∀ v ∈ L.rewind, t.frame.registers L.cursorReg = some (.int v)) → k ≤ elements.length →
    L.Fetches E H B others code elements held fetchRegs k t
  gets : ∀ {t c v}, t.frame.registers L.cursorReg = some (.int c) → held t.memory c v →
    (loopMachine E H B (L.context E others)).exec L.get t = some ([], t.assign L.elemReg v, .next)

end Parts

/-! ## 3. The iterations of a walk -/

section Lowering

variable {W : Type} {own : List Int} {E : Env} {H : Host W} {B : LoopBody W own} {L : Walk}
  {others : List (Int64 × Int64)} {code after rest : List Slot} {elements : List Value}
  {held : Memory → Int64 → Value → Prop} {container : W → Prop} {consts : List (Int × Value)}
  {fetchRegs : List Int} {s : View W} {t t' : LoopState W} {k m : Nat}

theorem ofNat_succ (k : Nat) : Int64.ofNat k + 1 = Int64.ofNat (k + 1) := (Int64.ofNat_add k 1).symm

theorem ofNat_pred (h : 0 < m) : Int64.ofNat m - 1 = Int64.ofNat (m - 1) := by
  obtain ⟨m, rfl⟩ := Nat.exists_eq_add_of_le h
  rw [Nat.add_comm 1 m, Nat.add_sub_cancel, ← ofNat_succ, Int64.add_sub_cancel]

theorem getBool_ofNat (h : m < 2 ^ 63) : (Value.int (Int64.ofNat m)).getBool = decide (m ≠ 0) := by
  change decide (Int64.ofNat m ≠ 0) = _
  rw [decide_eq_decide]
  refine not_congr ⟨fun h0 => ?_, fun h0 => by rw [h0]; rfl⟩
  have hint := congrArg Int64.toInt h0
  rw [Int64.toInt_ofNat_of_lt h] at hint
  change (m : Int) = 0 at hint
  omega

structure Walk.AtRefill (L : Walk) (own : List Int) (elements : List Value) (container : W → Prop)
    (consts : List (Int × Value)) (k : Nat) (s : View W) (t : LoopState W) : Prop where
  agree : Agree own s t.toView
  holds : Holds consts L.batchScope t
  container : container s.world
  index : t.frame.registers L.indexReg = some (.int (Int64.ofNat k))
  one : t.frame.registers L.oneReg = some (.int 1)
  rewound : ∀ v ∈ L.rewind, t.frame.registers L.cursorReg = some (.int v)
  bound : k ≤ elements.length

structure Walk.InBatch (L : Walk) (elements : List Value) (held : Memory → Int64 → Value → Prop)
    (container : W → Prop) (consts : List (Int × Value)) (k m : Nat) (s : View W) (t : LoopState W) :
    Prop where
  holds : Holds consts L.batchScope t
  container : container s.world
  marked : t.memory.Marked L.bodyScope
  avail : L.Avail elements held k m t
  some_left : 0 < m

inductive Walk.AtHead (L : Walk) (own : List Int) (after : List Slot) (elements : List Value)
    (held : Memory → Int64 → Value → Prop) (container : W → Prop) (consts : List (Int × Value))
    (k : Nat) (s : View W) : List Slot → LoopState W → Prop
  | refill {t : LoopState W} (h : L.AtRefill own elements container consts k s t) :
      AtHead L own after elements held container consts k s (L.refill after) t
  | batch {t : LoopState W} {m : Nat} (hagree : Agree own s t.toView)
      (h : L.InBatch elements held container consts k m s t) :
      AtHead L own after elements held container consts k s (L.have_ after) t

section

variable (h : L.gen after <:+ code)
include h

theorem Walk.refill_suffix : L.refill after <:+ code :=
  suffix_of_append (suffix_of_append h)

theorem Walk.have_suffix : L.have_ after <:+ code :=
  suffix_of_append (suffix_of_append (suffix_of_cons (suffix_of_append (suffix_of_append
    (suffix_of_cons (refill_suffix h))))))

theorem Walk.inside_suffix : .body :: L.latch after <:+ code :=
  suffix_of_cons (suffix_of_append (suffix_of_cons (have_suffix h)))

theorem Walk.exit_suffix : L.exit after <:+ code :=
  suffix_of_cons (suffix_of_append ((List.drop_suffix 6 (.body :: L.latch after)).trans
    (inside_suffix h)))

end

def Walk.moved (L : Walk) (t : LoopState W) : Option Int64 → LoopState W
  | none => t
  | some v => t.assign L.cursorReg (.int v)

variable {loop : LoopContext} {os : List Observation}

theorem run_setCursor {rest' : List Slot} {set : Option Int64}
    (h : (loopMachine E H B loop).Runs code rest (L.moved t set) os rest' t') :
    (loopMachine E H B loop).Runs code (L.setCursor set ++ rest) t os rest' t' := by
  cases set with
  | none => exact h
  | some v => exact .next (exec_load _ _ _) h

theorem Walk.writes_moved (L : Walk) (t : LoopState W) (set : Option Int64) :
    Writes [L.cursorReg] t (L.moved t set) := by
  cases set with
  | none => exact .refl _ t
  | some v => exact (Writes.refl _ t).assign (List.mem_singleton_self _)

theorem Walk.moved_memory (L : Walk) (t : LoopState W) (set : Option Int64) :
    (L.moved t set).memory = t.memory := by
  cases set <;> rfl

structure Walk.Apart (L : Walk) : Prop where
  index : L.indexReg ≠ L.oneReg ∧ L.indexReg ≠ L.leftReg ∧ L.indexReg ≠ L.cursorReg ∧
    L.indexReg ≠ L.elemReg
  one : L.oneReg ≠ L.leftReg ∧ L.oneReg ≠ L.cursorReg ∧ L.oneReg ≠ L.elemReg
  left : L.leftReg ≠ L.cursorReg ∧ L.leftReg ≠ L.elemReg
  cursor : L.cursorReg ≠ L.elemReg

theorem Walk.Parts.ne (P : L.Parts E H B others code elements held container consts fetchRegs) :
    L.Apart := by
  have h := P.apart
  simp only [List.nodup_cons, List.mem_cons, List.not_mem_nil, or_false, not_or] at h
  exact ⟨h.1, h.2.1, h.2.2.1, h.2.2.2.1⟩

variable {rs : List Int} {scope : Option Int64}

theorem Holds.writes (h : Holds consts scope t) (hw : Writes rs t t')
    (hrs : ∀ r ∈ consts.map Prod.fst, r ∉ rs) :
    Holds consts scope t' where
  registers p hp := (hw.registers _ (hrs _ (List.mem_map_of_mem hp))).trans (h.registers p hp)
  marked := h.marked.writes hw

theorem Holds.mark (h : Holds consts scope t) (other : Option Int64) :
    Holds consts scope (t.mark other) where
  registers p hp := by
    rw [LoopState.mark_view]
    exact h.registers p hp
  marked := LoopState.marked_mark_of h.marked

theorem Agree.fetched (h : Agree own s t.toView) (hf : Fetched rs t t') (hrs : rs ⊆ own) :
    Agree own s t'.toView where
  world := h.world.trans hf.world.symm
  globals := h.globals.trans hf.globals.symm
  registers r hr := (h.registers r hr).trans (hf.registers r fun hmem => hr (hrs hmem)).symm

theorem Holds.fetched (h : Holds consts scope t) (hf : Fetched rs t t')
    (hrs : ∀ r ∈ consts.map Prod.fst, r ∉ rs) :
    Holds consts scope t' where
  registers p hp := (hf.registers _ (hrs _ (List.mem_map_of_mem hp))).trans (h.registers p hp)
  marked id hid := hf.marks ▸ h.marked id hid

section

variable (P : L.Parts E H B others code elements held container consts fetchRegs)
include P

theorem Walk.Parts.own_registers :
    [L.indexReg, L.oneReg, L.leftReg, L.cursorReg] ⊆ own ∧ fetchRegs ⊆ own ∧
      consts.map Prod.fst ⊆ own := by
  have h := P.kept
  rw [List.append_subset, List.append_subset] at h
  exact ⟨h.1.1, h.1.2, h.2⟩

theorem Walk.Parts.fetch_consts : ∀ r ∈ consts.map Prod.fst, r ∉ fetchRegs :=
  fun r hr => P.fetch_apart r (List.mem_cons_of_mem _ (List.mem_cons_of_mem _ hr))

theorem Walk.Parts.consts_not_mem (hrs : rs ⊆ [L.indexReg, L.leftReg, L.cursorReg, L.elemReg]) :
    ∀ r ∈ consts.map Prod.fst, r ∉ rs :=
  fun r hr hmem => P.consts_apart r hr (hrs hmem)

end

theorem Walk.batchScope_mem (L : Walk) (E : Env) (others : List (Int64 × Int64)) :
    ∀ id ∈ L.batchScope, id ∈ (L.context E others).scopes :=
  fun _ hid => List.mem_append_left _ (Option.mem_toList.mpr hid)

theorem Walk.bodyScope_mem (L : Walk) (E : Env) (others : List (Int64 × Int64)) :
    ∀ id ∈ L.bodyScope, id ∈ (L.context E others).scopes :=
  fun _ hid => List.mem_append_right _ (Option.mem_toList.mpr hid)

theorem Holds.passed {s' : View W} (h : Holds consts L.batchScope t)
    (hpassed : Passed own (L.context E others) t t' s') (hown : consts.map Prod.fst ⊆ own) :
    Holds consts L.batchScope t' where
  registers p hp := (hpassed.kept _ (hown (List.mem_map_of_mem hp))).trans (h.registers p hp)
  marked := h.marked.spared hpassed.spared (L.batchScope_mem E others)

theorem Walk.AtRefill.released (h : L.AtRefill own elements container consts k s t)
    (loop : LoopContext) (scope : Option Int64) :
    L.AtRefill own elements container consts k s (t.release loop scope) := by
  have hview := t.release_view loop scope
  have hw : Writes [] t (t.release loop scope) := .release _ _ _
  exact ⟨hview ▸ h.agree, h.holds.writes hw (by simp), h.container, hview ▸ h.index, hview ▸ h.one,
    hview ▸ h.rewound, h.bound⟩

section

variable (P : L.Parts E H B others code elements held container consts fetchRegs)
include P

theorem runs_to_batch (h : L.AtRefill own elements container consts k s t)
    (hk : k < elements.length) :
    ∃ m t', (loopMachine E H B (L.context E others)).Runs code (L.refill after) t []
        (L.have_ after) t' ∧
      Agree own s t'.toView ∧ L.InBatch elements held container consts k m s t' := by
  have h₀ := h.released (L.context E others) L.batchScope
  obtain ⟨m, c, t₁, hfetch, hfetched, hleft, hbound, hsome, hheld, hfixed, hreset⟩ :=
    P.fetches h₀.holds (h₀.agree.world ▸ h.container) h₀.index h₀.rewound h.bound
  have hm := hsome hk
  have hshort := P.short
  have hbool : (Value.int (Int64.ofNat m)).getBool = true := by
    rw [getBool_ofNat (by omega)]
    exact decide_eq_true (by omega)
  let t₂ := L.moved (t₁.mark L.bodyScope) L.reset
  have hwrites : Writes [L.cursorReg] (t₁.mark L.bodyScope) t₂ := L.writes_moved _ _
  have hkept : ∀ r, r ≠ L.cursorReg → t₂.frame.registers r = t₁.frame.registers r := by
    intro r hr
    rw [hwrites.registers r (by simpa using hr), LoopState.mark_view]
  have hmemory : t₂.memory = (t₁.mark L.bodyScope).memory := L.moved_memory _ _
  have hholds := h₀.holds.fetched hfetched P.fetch_consts
  refine ⟨m, t₂, ?_, ?_, ?_, h.container, ?_, ⟨?_, ?_, ?_, ⟨c, ?_, ?_⟩, hbound⟩, hm⟩
  · refine .next (exec_label _ _) (run_release h.holds.marked ((hfetch _).trans ?_))
    exact .next (exec_branchZero_falls _ _ hleft hbool) (run_openScope (run_setCursor (.refl _ _)))
  · refine Agree.writes ?_ hwrites (fun r hr => P.own_registers.1 ?_)
    · rw [LoopState.mark_view]
      exact h₀.agree.fetched hfetched P.own_registers.2.1
    · rw [List.mem_singleton.mp hr]
      simp
  · exact (hholds.mark _).writes hwrites (P.consts_not_mem (by simp))
  · rw [hmemory]
    exact LoopState.marked_mark t₁ _
  · rw [hkept _ P.ne.index.2.2.1, hfetched.registers _ (P.fetch_apart _ (by simp)), h₀.index]
  · rw [hkept _ P.ne.one.2.1, hfetched.registers _ (P.fetch_apart _ (by simp)), h₀.one]
  · rw [hkept _ P.ne.left.1, hleft]
  · cases hcase : L.reset with
    | none =>
      simp only [t₂, hcase, Walk.moved, LoopState.mark_view]
      exact hfixed hcase
    | some v =>
      rw [hreset v hcase]
      simp only [t₂, hcase, Walk.moved, LoopState.assign_same]
  · rw [hmemory]
    exact hheld

theorem runs_out (hplace : L.gen after <:+ code)
    (h : L.AtRefill own elements container consts k s t) (hk : elements.length ≤ k) :
    ∃ t', (loopMachine E H B (L.context E others)).Runs code (L.refill after) t [] after t' ∧
      Agree own s t'.toView := by
  have h₀ := h.released (L.context E others) L.batchScope
  obtain ⟨m, c, t₁, hfetch, hfetched, hleft, hbound, -, -, -, -⟩ :=
    P.fetches h₀.holds (h₀.agree.world ▸ h.container) h₀.index h₀.rewound h.bound
  obtain rfl : m = 0 := by omega
  refine ⟨t₁.release (L.context E others) L.batchScope,
    .next (exec_label _ _) (run_release h.holds.marked ((hfetch _).trans ?_)), ?_⟩
  · exact .goto (exec_branchZero_goes _ _ hleft rfl) rfl (Walk.exit_suffix hplace)
      (.next (exec_label _ _) (run_release (h₀.holds.fetched hfetched P.fetch_consts).marked
      (.refl _ _)))
  · rw [LoopState.release_view]
    exact h₀.agree.fetched hfetched P.own_registers.2.1

-- the next element of the batch, and the body
theorem runs_batch {v : Value} (h : L.InBatch elements held container consts k m s t)
    (hv : elements[k]? = some v) :
    ∃ t', (loopMachine E H B (L.context E others)).Runs code (L.have_ after) t []
      (.body :: L.latch after) t' ∧
      t'.toView = (t.assign L.elemReg v).toView ∧
        L.InBatch elements held container consts k m s t' := by
  obtain ⟨c, hcursor, hheld⟩ := h.avail.cursor
  let t₀ := t.release (L.context E others) L.bodyScope
  have hview : t₀.toView = t.toView := t.release_view _ _
  have hheld₀ : ∀ j < m, ∃ v ∈ elements[k + j]?, held t₀.memory (c + Int64.ofNat j) v := by
    intro j hj
    obtain ⟨w, hw, hin⟩ := hheld j hj
    exact ⟨w, hw, P.held_released hin⟩
  have hget : held t₀.memory c v := by
    obtain ⟨w, hw, hin⟩ := hheld₀ 0 h.some_left
    rw [Nat.add_zero, hv] at hw
    rw [show Int64.ofNat 0 = 0 from rfl, Int64.add_zero, ← Option.some.inj hw] at hin
    exact hin
  have hcursor₀ : t₀.frame.registers L.cursorReg = some (.int c) := hview ▸ hcursor
  have hwrites : Writes [L.elemReg] t (t₀.assign L.elemReg v) :=
    (Writes.release t _ _).assign (List.mem_singleton_self _)
  have hother : ∀ r, r ≠ L.elemReg → (t₀.assign L.elemReg v).frame.registers r = t.frame.registers r :=
    fun r hr => hwrites.registers r (by simpa using hr)
  refine ⟨t₀.assign L.elemReg v, ?_, ?_, ?_⟩
  · exact .next (exec_label _ _) (run_release h.marked (.next (P.gets hcursor₀ hget) (.refl _ _)))
  · exact congrArg (View.assign · L.elemReg v) hview
  · exact ⟨h.holds.writes hwrites (P.consts_not_mem (by simp)), h.container, h.marked.writes hwrites,
      ⟨(hother _ P.ne.index.2.2.2).trans h.avail.index, (hother _ P.ne.one.2.2).trans h.avail.one,
        (hother _ P.ne.left.2).trans h.avail.left, ⟨c, (hother _ P.ne.cursor).trans hcursor, hheld₀⟩,
        h.avail.bound⟩, h.some_left⟩

theorem Walk.InBatch.passed {s' : View W} {leave : Leave Value}
    (h : L.InBatch elements held container consts k m s t) (hbody : B.Leaves s os s' leave)
    (hpassed : Passed own (L.context E others) t t' s') :
    L.InBatch elements held container consts k m s' t' := by
  have hkept : ∀ r ∈ [L.indexReg, L.oneReg, L.leftReg, L.cursorReg],
      t'.frame.registers r = t.frame.registers r := fun r hr => hpassed.kept r (P.own_registers.1 hr)
  simp only [List.forall_mem_cons] at hkept
  obtain ⟨hindex, hone, hleft, hcursor, -⟩ := hkept
  obtain ⟨c, hc, hheld⟩ := h.avail.cursor
  have hkeeps : container s.world → container s'.world := by
    obtain ⟨x, hrun, -⟩ := hbody
    exact P.container_kept hrun
  have hheld' : ∀ j < m, ∃ v ∈ elements[k + j]?, held t'.memory (c + Int64.ofNat j) v := by
    intro j hj
    obtain ⟨w, hw, hin⟩ := hheld j hj
    exact ⟨w, hw, P.held_spared hpassed.spared hin⟩
  exact ⟨h.holds.passed hpassed P.own_registers.2.2, hkeeps h.container,
    h.marked.spared hpassed.spared (L.bodyScope_mem E others),
    ⟨hindex.trans h.avail.index, hone.trans h.avail.one, hleft.trans h.avail.left,
    ⟨c, hcursor.trans hc, hheld'⟩,
      h.avail.bound⟩, h.some_left⟩

theorem runs_walk_latch (hplace : L.gen after <:+ code)
    (hagree : Agree own s t.toView) (h : L.InBatch elements held container consts k m s t) :
    ∃ rest t', (loopMachine E H B (L.context E others)).Runs code (L.latch after) t [] rest t' ∧
      L.AtHead own after elements held container consts (k + 1) s rest t' := by
  obtain ⟨c, hcursor, hheld⟩ := h.avail.cursor
  have hm := h.some_left
  have hbound := h.avail.bound
  have hshort := P.short
  let t₁ := t.assign L.indexReg (.int (Int64.ofNat k + 1))
  let t₂ := t₁.assign L.cursorReg (.int (c + 1))
  let t₃ := t₂.assign L.leftReg (.int (Int64.ofNat m - 1))
  have hone₁ : t₁.frame.registers L.oneReg = some (.int 1) := by
    rw [LoopState.assign_other P.ne.index.1.symm, h.avail.one]
  have hone₂ : t₂.frame.registers L.oneReg = some (.int 1) := by
    rw [LoopState.assign_other P.ne.one.2.1, hone₁]
  have hone₃ : t₃.frame.registers L.oneReg = some (.int 1) := by
    rw [LoopState.assign_other P.ne.one.1, hone₂]
  have hcursor₁ : t₁.frame.registers L.cursorReg = some (.int c) := by
    rw [LoopState.assign_other P.ne.index.2.2.1.symm, hcursor]
  have hleft₂ : t₂.frame.registers L.leftReg = some (.int (Int64.ofNat m)) := by
    rw [LoopState.assign_other P.ne.left.1, LoopState.assign_other P.ne.index.2.1.symm, h.avail.left]
  have hleft₃ : t₃.frame.registers L.leftReg = some (.int (Int64.ofNat (m - 1))) := by
    rw [LoopState.assign_same, ofNat_pred hm]
  have hindex₃ : t₃.frame.registers L.indexReg = some (.int (Int64.ofNat (k + 1))) := by
    rw [LoopState.assign_other P.ne.index.2.1, LoopState.assign_other P.ne.index.2.2.1,
      LoopState.assign_same, ofNat_succ]
  have hwrites : Writes [L.indexReg, L.leftReg, L.cursorReg] t t₃ :=
    (((Writes.refl _ t).assign (by simp)).assign (by simp)).assign (by simp)
  have hown : [L.indexReg, L.leftReg, L.cursorReg] ⊆ own := fun r hr => P.own_registers.1 (by
    simp only [List.mem_cons, List.not_mem_nil, or_false] at hr ⊢
    tauto)
  have hholds : Holds consts L.batchScope t₃ := h.holds.writes hwrites (P.consts_not_mem (by simp))
  have hcount : ∀ {rest t'}, (loopMachine E H B (L.context E others)).Runs code
      (ins .branchNotZero [.reg L.leftReg, .label L.haveLabel] Variant.int :: L.turn after) t₃ []
      rest t' →
      (loopMachine E H B (L.context E others)).Runs code (L.latch after) t [] rest t' := by
    intro rest t' hruns
    exact .next (exec_label _ _)
      (.next (exec_add _ h.avail.index h.avail.one) (.next (exec_add _ hcursor₁ hone₁)
      (.next (exec_binary _ (by decide) hleft₂ hone₂ rfl) hruns)))
  by_cases hlast : m - 1 = 0
  · -- the batch is used up
    have hmoved := L.writes_moved t₃ L.rewind
    have hkept : ∀ r, r ≠ L.cursorReg → (L.moved t₃ L.rewind).frame.registers r = t₃.frame.registers r :=
      fun r hr => hmoved.registers r (by simpa using hr)
    have hbool : (Value.int (Int64.ofNat (m - 1))).getBool = false := by rw [hlast]; rfl
    refine ⟨L.refill after, L.moved t₃ L.rewind,
      hcount (.next (exec_branchNotZero_falls _ _ hleft₃ hbool)
      (run_setCursor (.goto (exec_jump _ _) rfl (Walk.refill_suffix hplace) (.refl _ _)))), .refill ?_⟩
    refine ⟨(hagree.writes hwrites hown).writes hmoved ?_,
      hholds.writes hmoved (P.consts_not_mem (by simp)), h.container, ?_, ?_, ?_, by omega⟩
    · exact fun r hr => hown (by simp [List.mem_singleton.mp hr])
    · rw [hkept _ P.ne.index.2.2.1, hindex₃]
    · rw [hkept _ P.ne.one.2.1, hone₃]
    · intro v hv
      cases hcase : L.rewind with
      | none =>
        rw [hcase] at hv
        cases hv
      | some w =>
        rw [hcase] at hv
        cases hv
        exact LoopState.assign_same
  · have hbool : (Value.int (Int64.ofNat (m - 1))).getBool = true := by
      rw [getBool_ofNat (by omega)]
      exact decide_eq_true hlast
    refine ⟨L.have_ after, t₃, hcount (.goto (exec_branchNotZero_goes _ _ hleft₃ hbool) rfl
      (Walk.have_suffix hplace) (.refl _ _)), .batch (m := m - 1) (hagree.writes hwrites hown) ?_⟩
    refine ⟨hholds, h.container, h.marked.writes hwrites, ⟨hindex₃, hone₃, hleft₃, ⟨c + 1, ?_, ?_⟩,
      by omega⟩, by omega⟩
    · rw [LoopState.assign_other P.ne.left.1.symm, LoopState.assign_same]
    · intro j hj
      have hnext := hheld (j + 1) (by omega)
      rw [← ofNat_succ, Int64.add_comm (Int64.ofNat j), ← Int64.add_assoc] at hnext
      rw [Nat.add_right_comm, Nat.add_assoc]
      exact hnext

theorem Walk.lowering (hlabels : (code.filterMap (slotLabel E.program.strings)).Nodup)
    (hplace : L.gen after <:+ code) :
    Lowering E H B (L.context E others) code after (L.elemReg :: own) (L.latch after) (L.exit after)
      (walkEnter L.elemReg elements) B.Leaves (L.AtHead own after elements held container consts)
      (fun k s t => ∃ m, L.InBatch elements held container consts k m s t) where
  labels := hlabels
  inside := inside_suffix hplace
  continues := ⟨_, _, rfl, rfl⟩
  breaks := ⟨_, _, rfl, rfl⟩
  outside := exit_suffix hplace
  own_gone := List.subset_cons_self _ _
  body_runs h := h
  spares := P.spares
  head_place := by
    intro k s rest t h
    cases h with
    | refill h => exact refill_suffix hplace
    | batch h => exact have_suffix hplace
  enters := by
    intro k s s' rest t h henter
    obtain ⟨v, hv, rfl⟩ := Option.map_eq_some_iff.mp henter
    have hk : k < elements.length := (List.getElem?_eq_some_iff.mp hv).1
    have hbatch : ∃ m t₁, (loopMachine E H B (L.context E others)).Runs code rest t []
      (L.have_ after) t₁ ∧
        Agree own s t₁.toView ∧ L.InBatch elements held container consts k m s t₁ := by
      cases h with
      | refill h => exact runs_to_batch P h hk
      | batch hagree h => exact ⟨_, t, .refl _ _, hagree, h⟩
    obtain ⟨m, t₁, hruns, hagree, hin⟩ := hbatch
    obtain ⟨t₂, hget, hview, hin₂⟩ := runs_batch P hin hv
    exact ⟨t₂, hruns.trans hget, hview ▸ hagree.assign, m, { hin₂ with }⟩
  ends := by
    intro k s rest t h henter
    have hk : elements.length ≤ k := List.getElem?_eq_none_iff.mp (Option.map_eq_none_iff.mp henter)
    cases h with
    | refill h =>
      obtain ⟨t', hruns, hagree⟩ := runs_out P hplace h hk
      exact ⟨t', hruns, hagree.mono (List.subset_cons_self _ _)⟩
    | batch hagree h =>
      have hbound := h.avail.bound
      have hm := h.some_left
      omega
  again := by
    intro k s t os s' u ⟨m, hin⟩ hbody hpassed
    exact runs_walk_latch P hplace hpassed.agree (hin.passed P hbody hpassed)
  exits := by
    intro k s t s' u ⟨m, hin⟩ hpassed
    have hholds := hin.holds.passed hpassed P.own_registers.2.2
    refine ⟨u.release (L.context E others) L.batchScope, ?_, ?_⟩
    · exact .next (exec_label _ _) (run_release hholds.marked (.refl _ _))
    · rw [LoopState.release_view]
      exact hpassed.agree.mono (List.subset_cons_self _ _)

end

theorem runs_constants {loads : List (Int × Int64)} (hnodup : (loads.map Prod.fst).Nodup)
    (t : LoopState W) (rest : List Slot) :
    ∃ t', (loopMachine E H B loop).Runs code
        (loads.map (fun p => ins .loadImm [.reg p.1, .imm p.2] Variant.int) ++ rest) t [] rest t' ∧
      Writes (loads.map Prod.fst) t t' ∧ ∀ p ∈ loads, t'.frame.registers p.1 = some (.int p.2) := by
  induction loads generalizing t with
  | nil => exact ⟨t, .refl _ _, .refl _ t, by simp⟩
  | cons p loads ih =>
    rw [List.map_cons, List.nodup_cons] at hnodup
    obtain ⟨t', hruns, hwrites, hloads⟩ := ih hnodup.2 (t.assign p.1 (.int p.2))
    refine ⟨t', .next (exec_load _ _ _) hruns, ?_, ?_⟩
    · exact ((Writes.refl _ t).assign (List.mem_cons_self ..)).trans
        (hwrites.mono (List.subset_cons_self ..))
    · rw [List.forall_mem_cons]
      exact ⟨(hwrites.registers _ hnodup.1).trans LoopState.assign_same, hloads⟩

structure Walk.Loads (L : Walk) (own : List Int) (consts : List (Int × Value)) (t : LoopState W) :
    Prop where
  nodup : (L.loads.map Prod.fst).Nodup
  own : L.loads.map Prod.fst ⊆ own
  index : (L.indexReg, 0) ∈ L.loads
  one : (L.oneReg, 1) ∈ L.loads
  cursor : ∀ v ∈ L.rewind, (L.cursorReg, v) ∈ L.loads
  consts : ∀ p ∈ consts, (p.1 ∉ L.loads.map Prod.fst ∧ t.frame.registers p.1 = some p.2) ∨
    ∃ v, (p.1, v) ∈ L.loads ∧ p.2 = .int v

theorem Walk.follows (P : L.Parts E H B others code elements held container consts fetchRegs)
    (hlabels : (code.filterMap (slotLabel E.program.strings)).Nodup) (hplace : L.gen after <:+ code)
    {t₀ : LoopState W} (h : L.Loads own consts t₀) (hcontainer : container t₀.world) :
    Follows E H B (L.context E others) code after (L.elemReg :: own) (L.gen after) (L.latch after)
      (walkEnter L.elemReg elements) B.Leaves t₀.toView t₀ := by
  obtain ⟨t, hruns, hwrites, hloads⟩ : ∃ t, (loopMachine E H B (L.context E others)).Runs code
    (L.gen after) t₀ []
      (openScope L.batchScope ++ L.refill after) t ∧ Writes (L.loads.map Prod.fst) t₀ t ∧
      ∀ p ∈ L.loads, t.frame.registers p.1 = some (.int p.2) := runs_constants h.nodup t₀ _
  refine (Walk.lowering P hlabels hplace).follows hplace (hruns.trans (run_openScope (.refl _ _)))
    (.refill ⟨?_, ⟨?_, t.marked_mark _⟩, hcontainer, ?_, ?_, ?_, Nat.zero_le _⟩)
  · rw [LoopState.mark_view]
    exact (Agree.refl _).writes hwrites h.own
  · intro p hp
    rw [LoopState.mark_view]
    obtain ⟨hout, hheld⟩ | ⟨v, hv, heq⟩ := h.consts p hp
    · exact (hwrites.registers _ hout).trans hheld
    · exact (hloads _ hv).trans (congrArg some heq.symm)
  · rw [LoopState.mark_view]
    exact hloads _ h.index
  · rw [LoopState.mark_view]
    exact hloads _ h.one
  · intro v hv
    rw [LoopState.mark_view]
    exact hloads _ (h.cursor v hv)

end Lowering

end Codegen
