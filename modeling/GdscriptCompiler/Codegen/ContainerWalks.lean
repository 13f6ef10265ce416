import GdscriptCompiler.Codegen.Walks

/-!
# ContainerWalks — arrays and strings in batches

`gen_array_walk` and `gen_string_walk` as walks.
-/

namespace Codegen

open Ir Lib

/-! ## 1. Batches -/

section Batch

variable {W : Type} (H : Host W) (w : W) {elements : List Value} {k : Nat}

theorem toNat_ofNat (h : k < 2 ^ 63) : (Int64.ofNat k).toInt.toNat = k := by
  rw [Int64.toInt_ofNat_of_lt h, Int.toNat_natCast]

theorem batch_spec (size : Int64) (hsize : 0 < size.toInt.toNat) (hk : k ≤ elements.length) :
    k + (H.batch w size (elements.drop k)).length ≤ elements.length ∧
      (k < elements.length → 0 < (H.batch w size (elements.drop k)).length) ∧
      (H.batch w size (elements.drop k)).length ≤ size.toInt.toNat ∧
        ∀ j < (H.batch w size (elements.drop k)).length,
        (H.batch w size (elements.drop k))[j]? = elements[k + j]? := by
  have hle := H.count_le w size.toInt.toNat (elements.drop k).length
  have hpos := H.count_pos w size.toInt.toNat (elements.drop k).length hsize
  unfold Host.batch
  rw [List.length_take]
  rw [List.length_drop] at hle hpos ⊢
  refine ⟨by omega, fun hlt => ?_, by omega, fun j hj => ?_⟩
  · have := hpos (by omega)
    omega
  · rw [List.getElem?_take_of_lt (by omega), List.getElem?_drop]

theorem packBatch_shift {first : Int} {count : Nat} (hf : -2 ^ 31 ≤ first ∧ first < 2 ^ 31)
    (hc : count < 2 ^ 32) :
    packBatch first count >>> 32 = Int64.ofInt first := by
  apply Int64.toInt_inj.mp
  rw [Int64.toInt_ofInt_of_le (by omega) (by omega), ← Int64.toInt_toBitVec, Int64.toBitVec_shiftRight]
  change ((packBatch first count).toBitVec.sshiftRight 32).toInt = first
  rw [BitVec.toInt_sshiftRight, Int64.toInt_toBitVec, packBatch,
    Int64.toInt_ofInt_of_le (by omega) (by omega), Int.shiftRight_eq_div_pow]
  omega

theorem packBatch_mask (first : Int) {count : Nat} (hc : count < 2 ^ 32) :
    packBatch first count &&& 0xffffffff = Int64.ofNat count := by
  apply Int64.toBitVec_inj.mp
  apply BitVec.eq_of_toNat_eq
  rw [Int64.toBitVec_and, packBatch, Int64.toBitVec_ofInt, BitVec.toNat_and, BitVec.toNat_ofInt]
  change _ &&& (2 ^ 32 - 1) = (BitVec.ofNat 64 count).toNat
  rw [Nat.and_two_pow_sub_one_eq_mod, BitVec.toNat_ofNat]
  omega

end Batch

/-! ## 2. `gen_array_walk` -/

structure ArrayWalk where
  arrayReg : Int
  nextRegister : Int
  -- `next_array_batch_id`
  bufferBase : Int64
  -- `next_scope_id`, none in a coroutine
  scope : Option Int64
  refillLabel : Nat
  haveLabel : Nat
  continueLabel : Nat
  endLabel : Nat
  fresh : arrayReg < nextRegister

def arrayBatchSize : Int64 := 16

namespace ArrayWalk

variable (A : ArrayWalk)

def indexReg : Int := A.nextRegister
def batchIndexReg : Int := A.nextRegister + 1
def oneReg : Int := A.nextRegister + 2
def leftReg : Int := A.nextRegister + 3
def elemReg : Int := A.nextRegister + 4

def batchScope : Option Int64 := A.scope
def bodyScope : Option Int64 := A.scope.map (· + 1)

def own : List Int := [A.arrayReg, A.indexReg, A.batchIndexReg, A.oneReg, A.leftReg]

def walk : Walk where
  indexReg := A.indexReg
  oneReg := A.oneReg
  leftReg := A.leftReg
  cursorReg := A.batchIndexReg
  elemReg := A.elemReg
  batchScope := A.batchScope
  bodyScope := A.bodyScope
  buffers := [A.bufferBase]
  codepoints := []
  batchScopes := [(A.batchScope.getD (-1), A.bufferBase)]
  refillLabel := A.refillLabel
  haveLabel := A.haveLabel
  continueLabel := A.continueLabel
  endLabel := A.endLabel
  loads := [(A.indexReg, 0), (A.batchIndexReg, 0), (A.oneReg, 1)]
  fetch :=
    [ins .callSyscall [.reg A.leftReg, .imm ecallArrayBatch, .reg A.arrayReg, .reg A.indexReg,
    .imm arrayBatchSize,
      .imm A.bufferBase] Variant.int]
  reset := none
  rewind := some 0
  get := ins .batchGet [.reg A.elemReg, .imm A.bufferBase, .reg A.batchIndexReg]

end ArrayWalk

/-- `gen_array_walk`, followed by `after`. -/
def genArrayWalk (A : ArrayWalk) (after : List Slot) : List Slot := A.walk.gen after

theorem exec_readInto {W : Type} {dst cursor : Int} {c : Int64} {v : Value} {t : LoopState W}
    (read : Int64 → Option Value) (hcursor : t.frame.registers cursor = some (.int c))
    (hread : read c = some v) :
    readInto dst (read (t.frame.value cursor).getInt) t = some ([], t.assign dst v, .next) := by
  have hvalue : t.frame.value cursor = .int c := value_of_held hcursor
  rw [hvalue, Value.getInt, hread]
  rfl

variable {k : Nat}

-- a value in a buffer of the frame
def InBuffer (buffer : Memory → List Value) (memory : Memory) (c : Int64) (v : Value) : Prop :=
  (buffer memory)[c.toInt.toNat]? = some v

theorem InBuffer.of_eq {buffer : Memory → List Value} {memory memory' : Memory} {c : Int64}
    {v : Value} (h : InBuffer buffer memory c v) (heq : buffer memory' = buffer memory) :
    InBuffer buffer memory' c v := by
  unfold InBuffer
  rw [heq]
  exact h

theorem fetches_buffer {W : Type} {own : List Int} {E : Env} {H : Host W} {B : LoopBody W own}
    {L : Walk} {others : List (Int64 × Int64)} {code : List Slot} {elements : List Value}
    {buffer : Memory → List Value} {t : LoopState W} {call : Slot} (size : Int64) (u : LoopState W)
    (hfetch : L.fetch = [call]) (hne : L.cursorReg ≠ L.leftReg)
    (hexec : (loopMachine E H B (L.context E others)).exec call t = some ([], u.assign L.leftReg
      (.int (Int64.ofNat (H.batch t.world size (elements.drop k)).length)), .next))
    (hsize : 0 < size.toInt.toNat) (hk : k ≤ elements.length) (hshort : elements.length < 2 ^ 63)
    (hview : u.toView = t.toView) (hmarks : u.memory.marks = t.memory.marks)
    (hbuffer : buffer (u.mark L.bodyScope).memory = H.batch t.world size (elements.drop k))
    (hcursor : L.reset = none → t.frame.registers L.cursorReg = some (.int 0))
    (hreset : ∀ v ∈ L.reset, 0 = v) :
    L.Fetches E H B others code elements (InBuffer buffer) [L.leftReg] k t := by
  obtain ⟨hbound, hsome, -, hbatch⟩ := batch_spec H t.world size hsize hk
  refine ⟨_, 0, u.assign L.leftReg (.int (Int64.ofNat (H.batch t.world size (elements.drop k)).length)),
    fun rest => ?_, ⟨fun r hr => ?_, ?_, ?_, hmarks⟩, LoopState.assign_same, hbound, hsome,
    fun j hj => ?_, fun hnone => ?_, hreset⟩
  · rw [hfetch]
    exact .next hexec (.refl _ _)
  · rw [LoopState.assign_other (by simpa using hr), hview]
  · exact congrArg (·.frame.globals) hview
  · exact congrArg (·.world) hview
  · have hj' : (Int64.ofNat j).toInt.toNat = j := toNat_ofNat (by omega)
    have hlt : k + j < elements.length := by omega
    have hmemory : ((u.assign L.leftReg
      (.int (Int64.ofNat (H.batch t.world size (elements.drop k)).length))).mark
        L.bodyScope).memory = (u.mark L.bodyScope).memory := by
      cases L.bodyScope <;> rfl
    refine ⟨elements[k + j], List.getElem?_eq_getElem hlt, ?_⟩
    unfold InBuffer
    rw [hmemory, hbuffer, Int64.zero_add, hj', hbatch j hj, List.getElem?_eq_getElem hlt]
  · rw [LoopState.assign_other hne, hview]
    exact hcursor hnone

section Array

variable {W : Type} {E : Env} {H : Host W} {A : ArrayWalk} {B : LoopBody W A.own}
  {code after : List Slot} {others : List (Int64 × Int64)} {elements : List Value} {array : Value}
  {t : LoopState W}

def ArrayWalk.buffer (A : ArrayWalk) (memory : Memory) : List Value := memory.buffers A.bufferBase

-- the scope of the body owns no buffer of this walk
theorem ArrayWalk.not_owned (hothers : ∀ p ∈ others, p.2 ≠ A.bufferBase) {scope : Int64}
    (hscope : scope ∈ A.bodyScope) :
    A.bufferBase ∉ (A.walk.context E others).owned scope := by
  intro hmem
  obtain ⟨p, hp, htoken⟩ := List.mem_map.mp hmem
  obtain ⟨hin, hid⟩ := List.mem_filter.mp hp
  rcases List.mem_append.mp hin with hin | hin
  · exact hothers p hin htoken
  · obtain ⟨first, hfirst, rfl⟩ := Option.map_eq_some_iff.mp hscope
    obtain rfl := List.mem_singleton.mp hin
    have hbatch : A.batchScope = some first := hfirst
    rw [hbatch, decide_eq_true_eq] at hid
    exact absurd (Int64.left_eq_add.mp hid) (by decide)

theorem ArrayWalk.buffer_released (hothers : ∀ p ∈ others, p.2 ≠ A.bufferBase) :
    A.buffer (t.release (A.walk.context E others) A.bodyScope).memory = A.buffer t.memory := by
  cases hscope : A.bodyScope with
  | none => rfl
  | some scope => exact if_neg (not_owned hothers hscope)

theorem ArrayWalk.parts (hshort : elements.length < 2 ^ 63)
    (hspares : B.Spares (A.walk.context E others)) (hothers : ∀ p ∈ others, p.2 ≠ A.bufferBase)
    (hbody : ∀ {s os s' x}, B.run s = some (os, s', x) →
        H.elements s'.world array = H.elements s.world array) :
    A.walk.Parts E H B others code elements (InBuffer A.buffer)
      (fun w => H.elements w array = elements) [(A.arrayReg, array)]
      [A.leftReg] where
  apart := by simp [walk, indexReg, oneReg, leftReg, batchIndexReg, elemReg]
  kept := by simp [walk, own]
  consts_apart := by
    have hfresh := A.fresh
    simp only [walk, indexReg, leftReg, batchIndexReg, elemReg, List.map_cons, List.map_nil,
      List.mem_cons, List.not_mem_nil, or_false, forall_eq]
    omega
  fetch_apart := by
    have hfresh := A.fresh
    simp only [walk, indexReg, oneReg, leftReg, List.map_cons, List.map_nil, List.mem_cons,
      List.not_mem_nil, or_false]
    omega
  short := hshort
  spares := hspares
  held_spared hs h := h.of_eq (hs.buffers _ (List.mem_singleton_self _))
  held_released h := h.of_eq (buffer_released hothers)
  container_kept hrun h := (hbody hrun).trans h
  fetches := by
    intro k t hholds helements hindex hrewound hk
    have harray : t.frame.value A.arrayReg = array :=
      value_of_held (hholds.registers _ (List.mem_singleton_self _))
    have hat : t.frame.value A.indexReg = .int (Int64.ofNat k) := value_of_held hindex
    refine fetches_buffer arrayBatchSize
      (t.putBuffer A.bufferBase (H.batch t.world arrayBatchSize (elements.drop k)))
      rfl (by simp [walk, batchIndexReg, leftReg]) ?_ (by decide) hk hshort rfl rfl ?_
      (fun _ => hrewound 0 rfl) nofun
    · change (hostCall H ecallArrayBatch [.val (t.frame.value A.arrayReg),
        .val (t.frame.value A.indexReg), .imm arrayBatchSize, .imm A.bufferBase] t).map _ = _
      rw [harray, hat, hostCall, if_pos rfl, toNat_ofNat (by omega), ← helements]
      rfl
    · unfold buffer
      rw [LoopState.mark_buffers]
      exact setAt_same _ _ _
  gets hcursor hheld := exec_readInto (fun c => (_ : List Value)[c.toInt.toNat]?) hcursor hheld

theorem ArrayWalk.loaded (harray : t.frame.registers A.arrayReg = some array) :
    A.walk.Loads A.own [(A.arrayReg, array)] t where
  nodup := by simp [walk, indexReg, batchIndexReg, oneReg]
  own := by simp [walk, own]
  index := by simp [walk]
  one := by simp [walk]
  cursor := by simp [walk]
  consts := by
    have hfresh := A.fresh
    simp only [List.mem_singleton, forall_eq]
    refine .inl ⟨?_, harray⟩
    simp only [walk, indexReg, batchIndexReg, oneReg, List.map_cons, List.map_nil, List.mem_cons,
      List.not_mem_nil, or_false]
    omega

end Array

/-! ## 3. `gen_string_walk` over code points -/

structure CodepointWalk where
  stringReg : Int
  nextRegister : Int
  -- `next_codepoint_batch_id`
  bufferToken : Int64
  refillLabel : Nat
  haveLabel : Nat
  continueLabel : Nat
  endLabel : Nat
  fresh : stringReg < nextRegister

def codepointBatchSize : Int64 := 256

namespace CodepointWalk

variable (C : CodepointWalk)

def indexReg : Int := C.nextRegister
def oneReg : Int := C.nextRegister + 1
def leftReg : Int := C.nextRegister + 2
def batchIndexReg : Int := C.nextRegister + 3
def elemReg : Int := C.nextRegister + 4

def own : List Int := [C.stringReg, C.indexReg, C.oneReg, C.leftReg, C.batchIndexReg]

def walk : Walk where
  indexReg := C.indexReg
  oneReg := C.oneReg
  leftReg := C.leftReg
  cursorReg := C.batchIndexReg
  elemReg := C.elemReg
  batchScope := none
  bodyScope := none
  buffers := []
  codepoints := [C.bufferToken]
  batchScopes := []
  refillLabel := C.refillLabel
  haveLabel := C.haveLabel
  continueLabel := C.continueLabel
  endLabel := C.endLabel
  loads := [(C.indexReg, 0), (C.oneReg, 1)]
  fetch :=
    [ins .callSyscall [.reg C.leftReg, .imm ecallStringCodepointBatch, .reg C.stringReg, .reg C.indexReg,
      .imm codepointBatchSize, .imm C.bufferToken] Variant.int]
  reset := some 0
  rewind := none
  get := ins .codepointGet [.reg C.elemReg, .imm C.bufferToken, .reg C.batchIndexReg]

end CodepointWalk

section Codepoint

variable {W : Type} {E : Env} {H : Host W} {C : CodepointWalk} {B : LoopBody W C.own}
  {code after : List Slot} {others : List (Int64 × Int64)} {text : String} {t : LoopState W}

def CodepointWalk.buffer (C : CodepointWalk) (memory : Memory) : List Value :=
  memory.codepoints C.bufferToken

theorem CodepointWalk.parts (hshort : (codepointsOf text).length < 2 ^ 63)
    (hspares : B.Spares (C.walk.context E others)) :
    C.walk.Parts E H B others code (codepointsOf text) (InBuffer C.buffer) (fun _ => True)
      [(C.stringReg, .string text)] [C.leftReg] where
  apart := by simp [walk, indexReg, oneReg, leftReg, batchIndexReg, elemReg]
  kept := by simp [walk, own]
  consts_apart := by
    have hfresh := C.fresh
    simp only [walk, indexReg, leftReg, batchIndexReg, elemReg, List.map_cons, List.map_nil,
      List.mem_cons, List.not_mem_nil, or_false, forall_eq]
    omega
  fetch_apart := by
    have hfresh := C.fresh
    simp only [walk, indexReg, oneReg, leftReg, List.map_cons, List.map_nil, List.mem_cons,
      List.not_mem_nil, or_false]
    omega
  short := hshort
  spares := hspares
  held_spared hs h := h.of_eq (hs.codepoints _ (List.mem_singleton_self _))
  held_released h := h
  container_kept _ h := h
  fetches := by
    intro k t hholds _ hindex _ hk
    have hstring : t.frame.value C.stringReg = .string text :=
      value_of_held (hholds.registers _ (List.mem_singleton_self _))
    have hat : t.frame.value C.indexReg = .int (Int64.ofNat k) := value_of_held hindex
    refine fetches_buffer codepointBatchSize (t.putCodepoints C.bufferToken
      (H.batch t.world codepointBatchSize ((codepointsOf text).drop k))) rfl
      (by simp [walk, batchIndexReg, leftReg]) ?_
      (by decide) hk hshort rfl rfl ?_ nofun (fun v hv => Option.some.inj hv)
    · change (hostCall H ecallStringCodepointBatch [.val (t.frame.value C.stringReg),
        .val (t.frame.value C.indexReg), .imm codepointBatchSize, .imm C.bufferToken] t).map _ = _
      rw [hstring, hat, hostCall, if_neg (by decide), if_pos ⟨rfl, rfl⟩, toNat_ofNat (by omega)]
      rfl
    · exact setAt_same _ _ _
  gets hcursor hheld := exec_readInto (fun c => (_ : List Value)[c.toInt.toNat]?) hcursor hheld

theorem CodepointWalk.loaded (hstring : t.frame.registers C.stringReg = some (.string text)) :
    C.walk.Loads C.own [(C.stringReg, .string text)] t where
  nodup := by simp [walk, indexReg, oneReg]
  own := by simp [walk, own]
  index := by simp [walk]
  one := by simp [walk]
  cursor := by simp [walk]
  consts := by
    have hfresh := C.fresh
    simp only [List.mem_singleton, forall_eq]
    refine .inl ⟨?_, hstring⟩
    simp only [walk, indexReg, oneReg, List.map_cons, List.map_nil, List.mem_cons, List.not_mem_nil,
      or_false]
    omega

end Codepoint

/-! ## 4. `gen_string_walk` over scoped Strings -/

structure StringWalk where
  stringReg : Int
  nextRegister : Int
  -- `next_scope_id`, none in a coroutine
  scope : Option Int64
  refillLabel : Nat
  haveLabel : Nat
  continueLabel : Nat
  endLabel : Nat
  fresh : stringReg < nextRegister

def stringBatchSize : Int64 := 16

namespace StringWalk

variable (S : StringWalk)

def indexReg : Int := S.nextRegister
def oneReg : Int := S.nextRegister + 1
def shiftReg : Int := S.nextRegister + 2
def maskReg : Int := S.nextRegister + 3
def handleReg : Int := S.nextRegister + 4
def leftReg : Int := S.nextRegister + 5
def packedReg : Int := S.nextRegister + 6
def elemReg : Int := S.nextRegister + 7

def batchScope : Option Int64 := S.scope
def bodyScope : Option Int64 := S.scope.map (· + 1)

def own : List Int :=
  [S.stringReg, S.indexReg, S.oneReg, S.shiftReg, S.maskReg, S.handleReg, S.leftReg, S.packedReg]

def refillCall : Slot :=
  ins .callSyscall [.reg S.packedReg, .imm ecallStringBatch, .reg S.stringReg, .reg S.indexReg,
    .imm stringBatchSize]
    Variant.int

def walk : Walk where
  indexReg := S.indexReg
  oneReg := S.oneReg
  leftReg := S.leftReg
  cursorReg := S.handleReg
  elemReg := S.elemReg
  batchScope := S.batchScope
  bodyScope := S.bodyScope
  buffers := []
  codepoints := []
  batchScopes := []
  refillLabel := S.refillLabel
  haveLabel := S.haveLabel
  continueLabel := S.continueLabel
  endLabel := S.endLabel
  loads := [(S.indexReg, 0), (S.oneReg, 1), (S.shiftReg, 32), (S.maskReg, 0xffffffff)]
  fetch :=
    [S.refillCall, ins .shr [.reg S.handleReg, .reg S.packedReg, .reg S.shiftReg] Variant.int,
      ins .bitAnd [.reg S.leftReg, .reg S.packedReg, .reg S.maskReg] Variant.int]
  reset := none
  rewind := none
  get := ins .makeScoped [.reg S.elemReg, .reg S.handleReg, .imm 4]

-- what the registers hold throughout
def consts (text : String) : List (Int × Value) :=
  [(S.stringReg, .string text), (S.shiftReg, .int 32), (S.maskReg, .int 0xffffffff)]

end StringWalk

/-- `gen_string_walk`, followed by `after`: for a body that uses code points only, and for any
other. -/
def genStringWalk : CodepointWalk ⊕ StringWalk → List Slot → List Slot
  | .inl C, after => C.walk.gen after
  | .inr S, after => S.walk.gen after

section Scoped

variable {W : Type} {E : Env} {H : Host W} {S : StringWalk} {B : LoopBody W S.own}
  {code after : List Slot} {others : List (Int64 × Int64)} {text : String} {t : LoopState W}

/-- A scoped String made before the scope of the body was marked. -/
def StringWalk.held (S : StringWalk) (memory : Memory) (c : Int64) (v : Value) : Prop :=
  ∃ born, memory.scopedValues c = some (born, v) ∧
    ∀ scope ∈ S.bodyScope, ∃ mark, memory.marks scope = some mark ∧ born < mark

theorem exec_stringBatch (E : Env) (H : Host W) (B : LoopBody W S.own)
    (others : List (Int64 × Int64)) (hshort : k < 2 ^ 63)
    (hstring : t.frame.registers S.stringReg = some (.string text))
    (hindex : t.frame.registers S.indexReg = some (.int (Int64.ofNat k))) :
    (loopMachine E H B (S.walk.context E others)).exec S.refillCall t =
      some ([], (t.putScoped (H.first t.world)
          (H.batch t.world stringBatchSize ((characters text).drop k))).assign S.packedReg
        (.int (packBatch (H.first t.world)
          (H.batch t.world stringBatchSize ((characters text).drop k)).length)), .next) := by
  change (hostCall H ecallStringBatch [.val (t.frame.value S.stringReg), .val (t.frame.value S.indexReg),
    .imm stringBatchSize] t).map _ = _
  rw [value_of_held hstring, value_of_held hindex, hostCall, if_pos ⟨rfl, rfl⟩, toNat_ofNat hshort]
  rfl

-- the slots of a batch, from its first
theorem setSlots_at {α : Type} {slots : Int64 → Option α} {first : Int} {values : List α} {j : Nat}
    (hfirst : -2 ^ 31 ≤ first ∧ first < 2 ^ 31) (hlength : values.length ≤ 16)
    (hj : j < values.length) :
    setSlots slots first values (Int64.ofInt first + Int64.ofNat j) = values[j]? := by
  have hslot : (Int64.ofInt first + Int64.ofNat j).toInt = first + j := by
    rw [← Int64.ofInt_eq_ofNat, ← Int64.ofInt_add, Int64.toInt_ofInt_of_le (by omega) (by omega)]
  rw [setSlots, hslot, if_pos (by omega), add_sub_cancel_left, Int.toNat_natCast]

theorem StringWalk.held_spared {memory memory' : Memory} {c : Int64} {v : Value}
    (hs : Memory.Spares (S.walk.context E others) memory memory') (h : S.held memory c v) :
    S.held memory' c v := by
  obtain ⟨born, hc, hmark⟩ := h
  refine ⟨born, hs.scopedValues _ _ hc, fun scope hscope => ?_⟩
  rw [hs.marks scope (S.walk.bodyScope_mem E others scope hscope)]
  exact hmark scope hscope

theorem StringWalk.held_released {c : Int64} {v : Value} (loop : LoopContext)
    (h : S.held t.memory c v) :
    S.held (t.release loop S.bodyScope).memory c v := by
  obtain ⟨born, hc, hmark⟩ := h
  cases hscope : S.bodyScope with
  | none => exact ⟨born, hc, hmark⟩
  | some scope =>
    obtain ⟨mark, hat, hlt⟩ := hmark scope hscope
    refine ⟨born, ?_, hmark⟩
    change (t.memory.scopedValues c).filter (·.1 < (t.memory.marks scope).getD 0) = _
    rw [hc, hat]
    exact if_pos (decide_eq_true hlt)

-- a batch lasts until the body's scope, marked after it, is opened again
theorem StringWalk.held_marked {born : Nat} {c : Int64} {v : Value}
    (hc : t.memory.scopedValues c = some (born, v)) (hborn : born < t.memory.clock) :
    S.held (t.mark S.bodyScope).memory c v := by
  cases hscope : S.bodyScope with
  | none => exact ⟨born, hc, by simp [hscope]⟩
  | some scope =>
    refine ⟨born, hc, fun id hid => ?_⟩
    rw [hscope] at hid
    cases hid
    exact ⟨t.memory.clock, setAt_same _ _ _, hborn⟩

theorem StringWalk.parts (hshort : (characters text).length < 2 ^ 63)
    (hspares : B.Spares (S.walk.context E others)) :
    S.walk.Parts E H B others code (characters text) S.held (fun _ => True) (S.consts text)
      [S.packedReg, S.handleReg, S.leftReg] where
  apart := by simp [walk, indexReg, oneReg, leftReg, handleReg, elemReg]
  kept := by simp [walk, own, consts]
  consts_apart := by
    have hfresh := S.fresh
    simp only [walk, consts, indexReg, leftReg, handleReg, elemReg, shiftReg, maskReg,
      List.map_cons, List.map_nil, List.mem_cons, List.not_mem_nil, or_false]
    omega
  fetch_apart := by
    have hfresh := S.fresh
    simp only [walk, consts, indexReg, oneReg, leftReg, handleReg, packedReg, shiftReg, maskReg,
      List.map_cons, List.map_nil, List.mem_cons, List.not_mem_nil, or_false]
    omega
  short := hshort
  spares := hspares
  held_spared := held_spared
  held_released := held_released _
  container_kept _ h := h
  fetches := by
    intro k t hholds _ hindex _ hk
    have hconsts := hholds.registers
    simp only [consts, List.forall_mem_cons] at hconsts
    obtain ⟨hstring, hshift, hmask, -⟩ := hconsts
    obtain ⟨hbound, hsome, hsize, hread⟩ := batch_spec H t.world stringBatchSize (by decide) hk
    have hcall := exec_stringBatch E H B others (by omega) hstring hindex
    have hfirst := H.first_bounds t.world
    let batch := H.batch t.world stringBatchSize ((characters text).drop k)
    have hlength : batch.length ≤ 16 := hsize
    let t₁ := (t.putScoped (H.first t.world) batch).assign S.packedReg
      (.int (packBatch (H.first t.world) batch.length))
    let t₂ := t₁.assign S.handleReg (.int (Int64.ofInt (H.first t.world)))
    let t₃ := t₂.assign S.leftReg (.int (Int64.ofNat batch.length))
    have hpacked₁ : t₁.frame.registers S.packedReg =
      some (.int (packBatch (H.first t.world) batch.length)) :=
      LoopState.assign_same
    have hpacked₂ : t₂.frame.registers S.packedReg =
      some (.int (packBatch (H.first t.world) batch.length)) :=
      (LoopState.assign_other (by simp [packedReg, handleReg])).trans hpacked₁
    have hshift₁ : t₁.frame.registers S.shiftReg = some (.int 32) :=
      (LoopState.assign_other (by simp [packedReg, shiftReg])).trans hshift
    have hmask₂ : t₂.frame.registers S.maskReg = some (.int 0xffffffff) :=
      (LoopState.assign_other (by simp [maskReg, handleReg])).trans
        ((LoopState.assign_other (by simp [packedReg, maskReg])).trans hmask)
    have hhandle₃ : t₃.frame.registers S.handleReg = some (.int (Int64.ofInt (H.first t.world))) :=
      (LoopState.assign_other (by simp [leftReg, handleReg])).trans LoopState.assign_same
    have hshr : binaryOp E.table.fmod (.int (packBatch (H.first t.world) batch.length)) (.int 32) .shr =
        .ok (.int (Int64.ofInt (H.first t.world))) := by
      rw [← packBatch_shift hfirst (show batch.length < 2 ^ 32 by omega)]
      rfl
    have hand : binaryOp E.table.fmod (.int (packBatch (H.first t.world) batch.length))
      (.int 0xffffffff) .bitAnd =
        .ok (.int (Int64.ofNat batch.length)) := by
      rw [← packBatch_mask (H.first t.world) (show batch.length < 2 ^ 32 by omega)]
      rfl
    refine ⟨batch.length, Int64.ofInt (H.first t.world), t₃, fun rest => .next hcall (.next
      (exec_binary _ (by decide) hpacked₁ hshift₁ hshr)
      (.next (exec_binary _ (by decide) hpacked₂ hmask₂ hand)
        (.refl _ _))), ⟨fun r hr => ?_, rfl, rfl, rfl⟩, LoopState.assign_same, hbound, hsome,
        fun j hj => ?_,
      fun _ => hhandle₃, nofun⟩
    · simp only [List.mem_cons, List.not_mem_nil, or_false, not_or] at hr
      rw [LoopState.assign_other hr.2.2, LoopState.assign_other hr.2.1, LoopState.assign_other hr.1]
      rfl
    · have hlt : k + j < (characters text).length := Nat.lt_of_lt_of_le (Nat.add_lt_add_left hj k) hbound
      have hslot : t₃.memory.scopedValues (Int64.ofInt (H.first t.world) + Int64.ofNat j) =
          (batch.map (t.memory.clock, ·))[j]? :=
        setSlots_at hfirst (by rwa [List.length_map]) (by rwa [List.length_map])
      rw [List.getElem?_map, hread j hj, List.getElem?_eq_getElem hlt] at hslot
      exact ⟨_, List.getElem?_eq_getElem hlt, held_marked hslot (Nat.lt_succ_self _)⟩
  gets := by
    intro t c v hcursor hheld
    obtain ⟨born, hc, -⟩ := hheld
    exact exec_readInto (fun c => (t.memory.scopedValues c).map Prod.snd) hcursor (by rw [hc]; rfl)

theorem StringWalk.loaded (hstring : t.frame.registers S.stringReg = some (.string text)) :
    S.walk.Loads S.own (S.consts text) t where
  nodup := by simp [walk, indexReg, oneReg, shiftReg, maskReg]
  own := by simp [walk, own]
  index := by simp [walk]
  one := by simp [walk]
  cursor := by simp [walk]
  consts := by
    have hfresh := S.fresh
    simp only [consts, List.forall_mem_cons]
    refine ⟨.inl ⟨?_, hstring⟩, .inr ⟨32, by simp [walk], rfl⟩,
      .inr ⟨0xffffffff, by simp [walk], rfl⟩, nofun⟩
    simp only [walk, indexReg, oneReg, shiftReg, maskReg, List.map_cons, List.map_nil, List.mem_cons,
      List.not_mem_nil, or_false]
    omega

end Scoped

/-! ## 5. All walks -/

inductive ContainerLoop where
  | array (A : ArrayWalk) (container : Value)
  | codepoints (C : CodepointWalk) (text : String)
  | strings (S : StringWalk) (text : String)

namespace ContainerLoop

def walk : ContainerLoop → Walk
  | array A _ => A.walk
  | codepoints C _ => C.walk
  | strings S _ => S.walk

def own : ContainerLoop → List Int
  | array A _ => A.own
  | codepoints C _ => C.own
  | strings S _ => S.own

def containerReg : ContainerLoop → Int
  | array A _ => A.arrayReg
  | codepoints C _ => C.stringReg
  | strings S _ => S.stringReg

def container : ContainerLoop → Value
  | array _ container => container
  | codepoints _ text => .string text
  | strings _ text => .string text

def elements {W : Type} (H : Host W) (w : W) : ContainerLoop → List Value
  | array _ container => H.elements w container
  | codepoints _ text => codepointsOf text
  | strings _ text => characters text

def gen : ContainerLoop → List Slot → List Slot
  | array A _ => genArrayWalk A
  | codepoints C _ => genStringWalk (.inl C)
  | strings S _ => genStringWalk (.inr S)

end ContainerLoop

/-- Whatever the sizes of the batches, the body runs with the elements of the container, each once
and in order, and no scope is released that was not marked. -/
theorem container_walks_visit_in_order {W : Type} {E : Env} {H : Host W} (L : ContainerLoop)
    (B : LoopBody W L.own) {others : List (Int64 × Int64)} {code after : List Slot}
    {t₀ : LoopState W} (hlabels : (code.filterMap (slotLabel E.program.strings)).Nodup)
    (hplace : L.gen after <:+ code) (hspares : B.Spares (L.walk.context E others))
    (hothers : ∀ p ∈ others, p.2 ∉ L.walk.buffers)
    (hcontainer : t₀.frame.registers L.containerReg = some L.container)
    (hlength : (L.elements H t₀.world).length < 2 ^ 63)
    (hbody : ∀ {s os s' x}, B.run s = some (os, s', x) →
        L.elements H s'.world = L.elements H s.world) :
    Follows E H B (L.walk.context E others) code after (L.walk.elemReg :: L.own) (L.gen after)
      (L.walk.latch after)
      (walkEnter L.walk.elemReg (L.elements H t₀.world)) B.Leaves t₀.toView t₀ := by
  cases L with
  | array A container =>
    have hother : ∀ p ∈ others, p.2 ≠ A.bufferBase := fun p hp heq => hothers p hp
      (List.mem_singleton.mpr heq)
    exact Walk.follows (ArrayWalk.parts hlength hspares hother hbody) hlabels hplace
      (ArrayWalk.loaded hcontainer) rfl
  | codepoints C text =>
    exact Walk.follows (CodepointWalk.parts hlength hspares) hlabels hplace
      (CodepointWalk.loaded hcontainer) trivial
  | strings S text =>
    exact Walk.follows (StringWalk.parts hlength hspares) hlabels hplace
      (StringWalk.loaded hcontainer) trivial

/-- `for c in text`, with the String in register 0. -/
def stringLoop : StringWalk where
  stringReg := 0
  nextRegister := 1
  scope := some 0
  refillLabel := 0
  haveLabel := 1
  continueLabel := 2
  endLabel := 3
  fresh := Int.zero_lt_one

def stringNames : StringTable :=
  ⟨["for_refill_0", "for_have_1", "for_continue_2", "for_end_3"], by decide⟩

def twentyLetters : String := "aaaaaaaaaaaaaaaaaaaa"

-- the body makes scoped values; 20 characters take a batch of 16 and one of 4
theorem container_walks_visit_twenty :
    Follows (labelEnv stringNames) (plainHost []) (noteAndAdd 8 stringLoop.own (by decide) 1)
      (stringLoop.walk.context (labelEnv stringNames) []) (genStringWalk (.inr stringLoop) []) []
      (8 :: stringLoop.own) (genStringWalk (.inr stringLoop) []) (stringLoop.walk.latch [])
      (walkEnter 8 (characters twentyLetters)) (noteAndAdd 8 stringLoop.own (by decide) 1).Leaves
      (rangeTwoLoaded.assign 0 (.string twentyLetters)).toView
        (rangeTwoLoaded.assign 0 (.string twentyLetters)) :=
  container_walks_visit_in_order (.strings stringLoop twentyLetters)
    (noteAndAdd 8 stringLoop.own (by decide) 1)
    (by decide) (List.suffix_refl _) (noteAndAdd_spares _ _ _ _ _) (fun _ h => absurd h List.not_mem_nil)
    LoopState.assign_same (by decide) (fun _ => rfl)

end Codegen
