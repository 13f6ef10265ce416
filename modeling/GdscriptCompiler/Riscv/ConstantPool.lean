import GdscriptCompiler.Lib.Numbered
import GdscriptCompiler.Riscv.Emission
import GdscriptCompiler.Riscv.LoadImmediate
import Mathlib.Data.BitVec

/-!
# ConstantPool — constants no pair of instructions holds

A load from the pool is an AUIPC/LD pair that `resolve_labels` points at its entry.
-/

namespace Riscv

open Lib Hart

/-! ## 1. Numbering -/

/-- `m_constant_pool` and `m_constant_pool_map`. -/
structure ConstantPool where
  values : List (BitVec 64)
  index : BitVec 64 → Option Nat

namespace ConstantPool

def empty : ConstantPool := ⟨[], fun _ => none⟩

def addConstant (p : ConstantPool) (value : BitVec 64) : ConstantPool × Nat :=
  match p.index value with
  | some i => (p, i)
  | none => (⟨p.values ++ [value], fun v => if v = value then some p.values.length else p.index v⟩,
              p.values.length)

/-- The calls of a whole program, with the index each returned. -/
def addConstants (p : ConstantPool) : List (BitVec 64) → ConstantPool × List Nat
  | [] => (p, [])
  | value :: rest =>
    let (p, i) := p.addConstant value
    let (p, indices) := addConstants p rest
    (p, i :: indices)

/-- The map inverts the pool. -/
def Inverse (p : ConstantPool) : Prop := ∀ v i, p.index v = some i ↔ p.values[i]? = some v

theorem addConstant_spec {p : ConstantPool} (hp : p.Inverse) (value : BitVec 64) :
    (p.addConstant value).1.Inverse ∧ (p.addConstant value).1.index value =
      some (p.addConstant value).2 ∧
      ∀ {v i}, p.index v = some i → (p.addConstant value).1.index v = some i := by
  unfold addConstant
  cases hvalue : p.index value with
  | some i => exact ⟨hp, hvalue, id⟩
  | none =>
    refine ⟨fun v i => ?_, if_pos rfl, fun {v i} hv => ?_⟩
    · have hfresh : p.values[i]? ≠ some value := fun h => by
        rw [(hp value i).mpr h] at hvalue
        cases hvalue
      dsimp only
      rw [List.getElem?_append]
      have := hp v i
      grind
    · dsimp only
      rw [if_neg fun heq => by grind, hv]

theorem addConstants_spec (calls : List (BitVec 64)) :
    ∀ {p : ConstantPool}, p.Inverse →
      (p.addConstants calls).1.Inverse ∧
        (∀ {v i}, p.index v = some i → (p.addConstants calls).1.index v = some i) ∧
      ∀ {k : Nat} {v}, calls[k]? = some v →
        ∃ i, (p.addConstants calls).2[k]? = some i ∧ (p.addConstants calls).1.index v = some i := by
  induction calls with
  | nil => exact fun hp => ⟨hp, id, fun h => by cases h⟩
  | cons value rest ih =>
    intro p hp
    obtain ⟨hinverse, hvalue, hkept⟩ := addConstant_spec hp value
    obtain ⟨hinverse', hkept', hrest⟩ := ih hinverse
    refine ⟨hinverse', fun h => hkept' (hkept h), fun {k v} hk => ?_⟩
    cases k with
    | zero =>
      cases hk
      exact ⟨_, rfl, hkept' hvalue⟩
    | succ k => exact hrest hk

end ConstantPool

/-! ## 2. Reading the pool -/

-- little-endian, as `generate` appends a constant
def constantBytes (value : BitVec 64) : List Byte :=
  (List.range 8).map fun i => value.extractLsb' (8 * i) 8

theorem load_eq (mem : BitVec 64 → Byte) (n : Nat) :
    ∀ (a : BitVec 64) {w : Nat} (v : BitVec w),
      (∀ k < n, mem (a + BitVec.ofNat 64 k) = v.extractLsb' (8 * k) 8) →
        load mem n a = v.extractLsb' 0 (8 * n) := by
  induction n with
  | zero => exact fun a w v _ => BitVec.eq_of_getLsbD_eq fun i hi => absurd hi (by omega)
  | succ n ih =>
    intro a w v hbytes
    have hrest : load mem n (a + 1) = (v >>> 8).extractLsb' 0 (8 * n) := by
      refine ih (a + 1) (v >>> 8) fun k hk => ?_
      have hnext := hbytes (k + 1) (by omega)
      rw [BitVec.ofNat_add, BitVec.add_comm (BitVec.ofNat 64 k), ← BitVec.add_assoc] at hnext
      refine hnext.trans (BitVec.eq_of_getLsbD_eq fun i hi => ?_)
      simp [hi, Nat.mul_add, Nat.add_assoc, Nat.add_left_comm]
    have hfirst := hbytes 0 (by omega)
    rw [BitVec.add_zero] at hfirst
    refine BitVec.eq_of_getLsbD_eq fun i hi => ?_
    rw [load, BitVec.getLsbD_cast, BitVec.getLsbD_append, hrest, hfirst]
    have hback : ¬ i < 8 → 8 + (i - 8) = i := by omega
    have hlast : ¬ i < 8 → i - 8 < 8 * n := by omega
    by_cases hlow : i < 8 <;> simp [hlow, hi, hback, hlast]

/-! ## 3. The load, resolved -/

/-- The code with the pool behind it, as it is when `resolve_labels` runs. -/
structure PoolPlaced (b : CodeBuffer) (text rest : List Byte) (pool : List (BitVec 64)) : Prop where
  placed : b.Placed
  code : b.code = text ++ pool.flatMap constantBytes ++ rest
  uses : ∀ use ∈ b.labelUses, ∀ shape, b.shapeOf use = some shape →
    use.codeOffset + shape.size ≤ text.length

/-- The load of entry `i` that `emit_li` left at a use of the entry's label. -/
structure LoadsEntry (b : CodeBuffer) (text : List Byte) (use : LabelUse) (rd : BitVec 5)
    (i : Nat) : Prop where
  mem : use ∈ b.labelUses
  addend : use.addend = 0
  label : b.labelOffset use.label = some (text.length + 8 * i)
  auipc : emitUType 0x17 rd 0 = .ok (loadWord b.code use.codeOffset)
  ld : emitIType 0x03 rd rd 3 0 = .ok (loadWord b.code (use.codeOffset + 4))

/-- The memory holds the code from `base` on. -/
def HoldsCode (h : Hart) (base : BitVec 64) (code : List Byte) : Prop :=
  ∀ k < code.length, h.mem (base + BitVec.ofNat 64 k) = byteAt code k

theorem byteAt_of_loadWord {code code' : List Byte} {p k : Nat} (hk : k < 4)
    (h : loadWord code' p = loadWord code p) :
    byteAt code' (p + k) = byteAt code (p + k) := by
  have hbyte : ∀ code, byteAt code (p + k) = (loadWord code p).extractLsb' (8 * k) 8 := fun code => by
    unfold loadWord
    refine BitVec.eq_of_getLsbD_eq fun i hi => ?_
    interval_cases k <;> simp <;> grind
  rw [hbyte, hbyte, h]

theorem length_pool (pool : List (BitVec 64)) :
    (pool.flatMap constantBytes).length = 8 * pool.length := by
  induction pool with
  | nil => rfl
  | cons value pool ih =>
    rw [List.flatMap_cons, List.length_append, ih, List.length_cons, Nat.mul_succ, Nat.add_comm]
    rfl

theorem byteAt_pool {rest : List Byte} {k : Nat} {v : BitVec 64} (hk : k < 8)
    (pool : List (BitVec 64)) :
    ∀ {text : List Byte} {i : Nat}, pool[i]? = some v →
      byteAt (text ++ pool.flatMap constantBytes ++ rest) (text.length + 8 * i + k) =
        v.extractLsb' (8 * k) 8 := by
  induction pool with
  | nil => exact fun hv => by cases hv
  | cons value pool ih =>
    intro text i hv
    cases i with
    | zero =>
      cases hv
      unfold byteAt
      simp [List.getElem?_append, constantBytes, hk]
    | succ i =>
      have hnext := @ih (text ++ constantBytes value) i hv
      have hlength : (text ++ constantBytes value).length = text.length + 8 := List.length_append
      rw [hlength] at hnext
      rw [List.flatMap_cons, ← List.append_assoc, show text.length + 8 * (i + 1) + k = text.length +
        8 + 8 * i + k by omega]
      exact hnext

theorem opcodeOf_eq (w : Word) : opcodeOf w = (w.extractLsb' 0 7).setWidth 32 := by
  unfold opcodeOf
  exact BitVec.eq_of_getLsbD_eq fun i hi => by interval_cases i <;> simp

section Load

variable {b b' : CodeBuffer} {text rest : List Byte} {pool : List (BitVec 64)} {use : LabelUse}
  {rd : BitVec 5} {i : Nat} (hload : LoadsEntry b text use rd i) (hb : PoolPlaced b text rest pool)
  (hreach : InPairRange (CodeBuffer.displacement (text.length + 8 * i) use))
  (hresolved : b.resolveLabels = .ok b')
include hload hb hreach hresolved

theorem LoadsEntry.resolved :
    (∃ imm imm', decode (loadWord b'.code use.codeOffset) = some (.u 0x17 rd imm) ∧
      decode (loadWord b'.code (use.codeOffset + 4)) = some (.i 0x03 rd 3 rd imm') ∧
      imm.signExtend 64 + imm'.signExtend 64 = CodeBuffer.displacement (text.length + 8 * i) use) ∧
      b'.code.length = b.code.length ∧ ∀ p, text.length ≤ p →
        loadWord b'.code p = loadWord b.code p := by
  have hnot : ∀ use ∈ b.labelUses, ¬ b.Rejected use := fun use hu hrejected => by
    obtain ⟨e, he⟩ := resolve_error b.labelUses b.code (Pending.start hb.placed.toApart)
      ⟨use, hu, hrejected⟩
    rw [CodeBuffer.resolveLabels, he] at hresolved
    cases hresolved
  obtain ⟨code', hcode', hpatched, hlength, hframe⟩ :=
    resolve_ok b.labelUses b.code (Pending.start hb.placed.toApart) hnot
  rw [CodeBuffer.resolveLabels, hcode'] at hresolved
  cases hresolved
  have houtside : ∀ p, text.length ≤ p → b.Outside b.labelUses p := fun p hp use hu => by
    obtain ⟨shape, hs, -⟩ := hb.placed.inside use hu
    rw [span_of_shapeOf hs]
    exact .inr ((hb.uses use hu shape hs).trans hp)
  refine ⟨?_, hlength, fun p hp => hframe p (houtside p hp)⟩
  obtain ⟨hop, hrd, -⟩ := Encoding.decodes_of_encode (e := .u 0x17 rd 0) hload.auipc
  obtain ⟨hop', hrd', hfunct3, hrs1, -⟩ := Encoding.decodes_of_encode (e := .i 0x03 rd 3 rd 0) hload.ld
  have hlow : ∀ x : BitVec 12, x.signExtend 64 = (x.signExtend 32).signExtend 64 := fun x =>
    BitVec.eq_of_toInt_eq (by
      rw [BitVec.toInt_signExtend_of_le (by decide), BitVec.toInt_signExtend_of_le (by decide),
        BitVec.toInt_signExtend_of_le (by decide)])
  have hshape : b.shapeOf use = some .load := by
    unfold CodeBuffer.shapeOf UseShape.of
    rw [opcodeOf_eq, opcodeOf_eq, hop, hop']
    rfl
  obtain ⟨target, shape, htarget, hs, hdistance, hsame⟩ :=
    (PatchedUse.resolved_iff (hpatched use hload.mem _ hshape)).mpr
    fun target htarget _ => by
      rw [hload.label] at htarget
      cases htarget
      exact hreach
  rw [hload.label] at htarget
  rw [hshape] at hs
  cases htarget
  cases hs
  obtain ⟨hsop, hsrd, hsop', hsrd', hsfunct3, hsrs1⟩ := hsame
  refine ⟨(immU (loadWord code' use.codeOffset)).setWidth 32,
    ((loadWord code' (use.codeOffset + 4)).extractLsb' 20 12).signExtend 32, ?_, ?_, ?_⟩
  · exact decode_of_decodes (.inr rfl) ⟨(extract_eq_of_opcodeOf hsop).trans hop, hsrd.trans hrd,
      (congrArg (BitVec.signExtend 64) (setWidth_signExtend _)).symm⟩
  · exact decode_of_decodes (.inr (.inr (.inl rfl))) ⟨(extract_eq_of_opcodeOf hsop').trans hop',
      hsrd'.trans hrd', hsfunct3.trans hfunct3, hsrs1.trans hrs1, hlow _⟩
  · rw [← hlow]
    refine Eq.trans ?_ hdistance
    exact congrArg (· + _) (congrArg (BitVec.signExtend 64) (setWidth_signExtend _))

theorem LoadsEntry.run (hrd : rd ≠ 0) {v : BitVec 64} (hv : pool[i]? = some v) {h : Hart}
    {base : BitVec 64} (hcode : HoldsCode h base b'.code)
    (hpc : h.pc = base + BitVec.ofNat 64 use.codeOffset) :
    ∃ h', Hart.run h [.ok (loadWord b'.code use.codeOffset),
        .ok (loadWord b'.code (use.codeOffset + 4))] = some h' ∧
      Sets h h' rd v := by
  obtain ⟨⟨imm, imm', hauipc, hld, hdistance⟩, hlength, hframe⟩ := hload.resolved hb hreach hresolved
  generalize htarget : text.length + 8 * i = target at *
  have hinside : target + 8 ≤ b.code.length := by
    have hlt := (List.getElem?_eq_some_iff.mp hv).1
    rw [hb.code, List.length_append, List.length_append, length_pool]
    omega
  have haddress : imm.signExtend 64 + h.pc + imm'.signExtend 64 = base + BitVec.ofNat 64 target := by
    rw [CodeBuffer.displacement, hload.addend] at hdistance
    rw [hpc]
    grind
  have hconstant : load h.mem 8 (base + BitVec.ofNat 64 target) = v := by
    refine (load_eq h.mem 8 _ v fun k hk => ?_).trans BitVec.extractLsb'_eq_self
    have hbyte : byteAt b'.code (target + k) = byteAt b.code (target + k) := by
      by_cases hlow : k < 4
      · exact byteAt_of_loadWord hlow (hframe target (by omega))
      · have hhigh := byteAt_of_loadWord (k := k - 4) (by omega) (hframe (target + 4) (by omega))
        rwa [show target + 4 + (k - 4) = target + k by omega] at hhigh
    rw [BitVec.add_assoc, ← BitVec.ofNat_add, hcode _ (by omega), hbyte, hb.code, ← htarget]
    exact byteAt_pool hk pool hv
  let h₁ := h.write rd (imm.signExtend 64 + h.pc)
  have hget : h₁.get rd = imm.signExtend 64 + h.pc := by rw [get_write, if_pos ⟨rfl, hrd⟩]
  refine ⟨h₁.write rd v, ?_, (Sets.write ..).trans (.write ..)⟩
  have hsecond : h₁.exec (.i 0x03 rd 3 rd imm') =
    some (h₁.write rd (load h.mem 8 (h₁.get rd + imm'.signExtend 64))) := rfl
  rw [hget, haddress, hconstant] at hsecond
  rw [Hart.run, hauipc]
  change Hart.run h₁ _ = _
  rw [Hart.run, hld, Option.bind_some, hsecond]
  rfl

end Load

/-! ## 4. The pool behind the code -/

/-- The label of an entry. -/
def poolLabel (i : Nat) : LabelName where
  name := numbered ".LC" i
  notSkip k h := by
    have hsecond := congrArg (·.toList[1]?) h
    unfold numbered skipLabel at hsecond
    rw [String.toList_append, String.toList_append] at hsecond
    simp at hsecond

/-- The labels of the first `n` entries, set in order. -/
def CodeBuffer.labelPool (b : CodeBuffer) (base : Nat) : Nat → CodeBuffer
  | 0 => b
  | n + 1 =>
    let (named, id) := (b.labelPool base n).labelId (poolLabel n).name
    named.setLabel id (base + 8 * n)

/-- What `generate` does with the pool once the branches are relaxed. -/
def CodeBuffer.appendPool (b : CodeBuffer) (pool : List (BitVec 64)) : CodeBuffer :=
  let labelled := b.labelPool b.code.length pool.length
  { labelled with code := labelled.code ++ pool.flatMap constantBytes }

section Append

variable {b : CodeBuffer}

theorem labelPool_frame (base n : Nat) :
    (b.labelPool base n).code = b.code ∧ (b.labelPool base n).labelUses = b.labelUses ∧
      b.labelNames.Extends (b.labelPool base n).labelNames := by
  induction n with
  | zero => exact ⟨rfl, rfl, fun _ _ h => h⟩
  | succ n ih =>
    obtain ⟨hcode, huses, hnames⟩ := ih
    exact ⟨hcode, huses, fun id s h => (Ir.StringTable.intern_spec _ _).2 id s (hnames id s h)⟩

theorem labelOffset_labelPool {base id i : Nat}
    (hid : b.labelNames.names[id]? = some (poolLabel i).name) (n : Nat) :
    (b.labelPool base n).labelOffset id =
      if i < n then some (base + 8 * i) else b.labelOffset id := by
  induction n with
  | zero => rfl
  | succ n ih =>
    let before := b.labelPool base n
    obtain ⟨hnew, hkept⟩ := Ir.StringTable.intern_spec before.labelNames (poolLabel n).name
    have hold := hkept id _ ((labelPool_frame base n).2.2 id _ hid)
    -- an entry's label has one id, and no other entry has it
    have hsame : id = (before.labelNames.intern (poolLabel n).name).2 ↔ i = n := by
      constructor
      · intro heq
        rw [← heq, hold] at hnew
        exact (numbered_inj rfl rfl (Option.some.inj hnew)).2
      · intro heq
        rw [heq] at hold
        exact (List.getElem?_inj (List.getElem?_eq_some_iff.mp hold).1
          (before.labelNames.intern _).1.nodup).mp (hold.trans hnew.symm)
    refine (CodeBuffer.labelOffset_setLabel _ _ _ _).trans ?_
    by_cases hin : i = n
    · rw [if_pos (hsame.mpr hin), if_pos (by omega), hin]
    · rw [if_neg fun heq => hin (hsame.mp heq)]
      refine ih.trans ?_
      by_cases hlt : i < n
      · rw [if_pos hlt, if_pos (by omega)]
      · rw [if_neg hlt, if_neg (by omega)]

variable {pool : List (BitVec 64)}

theorem appendPool_code : (b.appendPool pool).code = b.code ++ pool.flatMap constantBytes :=
  congrArg (· ++ _) (labelPool_frame _ _).1

theorem appendPool_labelUses : (b.appendPool pool).labelUses = b.labelUses :=
  (labelPool_frame _ _).2.1

theorem appendPool_word {off : Nat} (hin : off + 4 ≤ b.code.length) :
    loadWord (b.appendPool pool).code off = loadWord b.code off := by
  rw [appendPool_code]
  exact loadWord_append_left _ _ _ hin

theorem appendPool_shapeOf (hb : b.Placed) {use : LabelUse} (hmem : use ∈ b.labelUses) :
    (b.appendPool pool).shapeOf use = b.shapeOf use := by
  obtain ⟨shape, hs, hin⟩ := hb.inside use hmem
  have hsize := shape.size_cases
  rw [CodeBuffer.shapeOf, appendPool_word (by omega)]
  by_cases hwide : shape.size = 8
  · rw [appendPool_word (by omega)]
    rfl
  · -- the word behind a branch or a JAL is not read
    rw [hs]
    unfold CodeBuffer.shapeOf UseShape.of at hs
    unfold UseShape.of
    grind [UseShape.size]

theorem appendPool_placed (hb : b.Placed) : PoolPlaced (b.appendPool pool) b.code [] pool where
  placed := by
    refine ⟨fun use hmem => ?_, ?_⟩
    · rw [appendPool_labelUses] at hmem
      obtain ⟨shape, hs, hin⟩ := hb.inside use hmem
      rw [appendPool_shapeOf hb hmem, appendPool_code, List.length_append]
      exact ⟨shape, hs, by omega⟩
    · rw [appendPool_labelUses]
      refine hb.apart.imp_of_mem fun {u v} hu hv happart s t hs ht => ?_
      rw [appendPool_shapeOf hb hu] at hs
      rw [appendPool_shapeOf hb hv] at ht
      exact happart s t hs ht
  code := by rw [appendPool_code, List.append_nil]
  uses use hmem shape hs := by
    rw [appendPool_labelUses] at hmem
    obtain ⟨shape', hs', hin⟩ := hb.inside use hmem
    rw [appendPool_shapeOf hb hmem, hs'] at hs
    cases hs
    exact hin

theorem emit_poolLoad (rd : BitVec 5) :
    emitUType 0x17 rd 0 = .ok (auipcWord rd) ∧ emitIType 0x03 rd rd 3 0 = .ok (ldWord rd) := by
  revert rd
  decide

theorem appendPool_loadsEntry {use : LabelUse} {rd : BitVec 5} {i : Nat}
    (hmem : use ∈ b.labelUses) (haddend : use.addend = 0)
    (hlabel : b.labelNames.names[use.label]? = some (poolLabel i).name) (hi : i < pool.length)
    (hin : use.codeOffset + 8 ≤ b.code.length)
    (hauipc : loadWord b.code use.codeOffset = auipcWord rd)
    (hld : loadWord b.code (use.codeOffset + 4) = ldWord rd) :
    LoadsEntry (b.appendPool pool) b.code use rd i where
  mem := by rwa [appendPool_labelUses]
  addend := haddend
  label := (labelOffset_labelPool hlabel pool.length).trans (if_pos hi)
  auipc := by rw [appendPool_word (by omega), hauipc, (emit_poolLoad rd).1]
  ld := by rw [appendPool_word (by omega), hld, (emit_poolLoad rd).2]

end Append

/-! ## 5. What the register gets -/

/-- In any program, the load of the entry leaves the constant, once resolved within the reach of its
pair. -/
def EntryLoads (pool : List (BitVec 64)) (rd : BitVec 5) (value : BitVec 64) (i : Nat) : Prop :=
  ∀ {b b' : CodeBuffer} {text rest : List Byte} {use : LabelUse}, PoolPlaced b text rest pool →
    LoadsEntry b text use rd i → InPairRange (CodeBuffer.displacement (text.length + 8 * i) use) →
    b.resolveLabels = .ok b' → ∀ {h : Hart} {base : BitVec 64}, HoldsCode h base b'.code →
    h.pc = base + BitVec.ofNat 64 use.codeOffset →
    ∃ h', Hart.run h [.ok (loadWord b'.code use.codeOffset),
      .ok (loadWord b'.code (use.codeOffset + 4))] = some h' ∧
      Sets h h' rd value

/-- The register ends up with the constant, from the instructions alone or through an entry of the
pool that only this constant has. -/
theorem emitLi_exact {rd : BitVec 5} (hrd : rd ≠ 0) (imm : BitVec 64) :
    (match emitLi rd imm with
      | (code, none) => ∀ h, ∃ h', Hart.run h code = some h' ∧ Sets h h' rd imm
      | (code, some v) => v = imm ∧ code = [emitUType 0x17 rd 0, emitIType 0x03 rd rd 3 0]) ∧
    ∀ calls : List (BitVec 64), let (pool, indices) := ConstantPool.empty.addConstants calls
      ∀ {k : Nat} {v}, calls[k]? = some v → ∃ i, indices[k]? = some i ∧ EntryLoads pool.values rd v i ∧
        ∀ {j : Nat} {w}, calls[j]? = some w → (indices[j]? = some i ↔ w = v) := by
  refine ⟨?_, fun calls => ?_⟩
  · by_cases hword : fitsInSigned imm.toInt 32 = true
    · have hnone : emitLi rd imm = ((emitLi rd imm).1, none) :=
        Prod.ext rfl (emitLi_sets ⟨0, 0, 0, 0⟩ rd hword).1
      rw [hnone]
      exact fun h => (emitLi_sets h rd hword).2
    · have hshort : ¬ fitsInSigned imm.toInt iTypeImmBits = true := by grind [fitsInSigned, iTypeImmBits]
      rw [emitLi, if_neg hshort, if_neg hword]
      exact ⟨rfl, rfl⟩
  · obtain ⟨hinverse, -, hindices⟩ := ConstantPool.addConstants_spec calls (p := .empty) fun v i => by
      constructor <;> intro h <;> cases h
    intro k v hk
    obtain ⟨i, hi, hv⟩ := hindices hk
    refine ⟨i, hi, fun {_ _ _ _ _} hb hload hreach hresolved {_ _} hcode hpc =>
      hload.run hb hreach hresolved hrd ((hinverse v i).mp hv) hcode hpc, fun {j w} hj => ?_⟩
    obtain ⟨i', hi', hw⟩ := hindices hj
    rw [hi']
    constructor
    · intro heq
      rw [heq] at hw
      exact Option.some.inj (((hinverse w i).mp hw).symm.trans ((hinverse v i).mp hv))
    · intro heq
      rw [heq] at hw
      exact hw.symm.trans hv

/-- A load of each of two constants, with the pool behind them. -/
def twoLoads : CodeBuffer :=
  (CodeBuffer.generated ⟨[], List.nodup_nil⟩
    [.poolLoad 11 (poolLabel 0), .poolLoad 10 (poolLabel 1)]).appendPool [2 ^ 40, 2 ^ 41]

/-- At the second load, with the code at address 0x1000. -/
def atSecondLoad (code : List Byte) : Hart :=
  ⟨0x1010, fun _ => 0, fun _ => 0, fun a => byteAt code (a - 0x1000).toNat⟩

/-- The largest word takes the ADDIW, a constant asked for twice its first entry again, and the load
of an entry leaves the constant. -/
theorem emitLi_exact_carry :
    (10 : BitVec 5) ≠ 0 ∧
      (∀ h, ∃ h', Hart.run h (emitLi 10 0x7FFFFFFF).1 = some h' ∧ Sets h h' 10 0x7FFFFFFF) ∧
      (ConstantPool.empty.addConstants [2 ^ 40, 2 ^ 41, 2 ^ 40]).2 = [0, 1, 0] ∧
      ∃ b', twoLoads.resolveLabels = .ok b' ∧
      ∃ h', Hart.run (atSecondLoad b'.code) [.ok (loadWord b'.code 16), .ok (loadWord b'.code 20)] =
          some h' ∧
        Sets (atSecondLoad b'.code) h' 10 (2 ^ 41) := by
  refine ⟨by decide, (emitLi_exact (by decide) 0x7FFFFFFF).1, by decide, ?_⟩
  have hload : LoadsEntry twoLoads _ ⟨1, 16, 0⟩ 10 1 :=
    appendPool_loadsEntry (by decide) rfl (by decide) (by decide) (by decide) (by decide) (by decide)
  have hb : PoolPlaced twoLoads _ [] [2 ^ 40, 2 ^ 41] := appendPool_placed (generated_laid _ _).placed
  obtain ⟨i, hi, hloads, -⟩ :=
    (emitLi_exact (by decide : (10 : BitVec 5) ≠ 0) 0).2 [2 ^ 40, 2 ^ 41] (k := 1) rfl
  cases hi
  obtain ⟨b', hb'⟩ : ∃ b', twoLoads.resolveLabels = .ok b' := ⟨_, rfl⟩
  have hlength : b'.code.length = 40 := by
    cases hb'
    rfl
  have hcode : HoldsCode (atSecondLoad b'.code) 0x1000 b'.code := fun k hk => by
    have haddress : (0x1000 + BitVec.ofNat 64 k - 0x1000).toNat = k := by
      rw [BitVec.add_comm, BitVec.add_sub_cancel, BitVec.toNat_ofNat]
      omega
    exact congrArg (byteAt b'.code) haddress
  exact ⟨b', hb', hloads hb hload ⟨by decide, by decide⟩ hb' hcode rfl⟩

end Riscv
