import GdscriptCompiler.Riscv.RelaxRound
import Mathlib.Data.List.Basic
import Mathlib.Order.Monotone.Basic
import Mathlib.Tactic.Common

/-!
# RelaxInvariant — what every round of `relax_branches` keeps

Between rounds the buffer is the emitted one moved by a single strictly monotone map.
-/

namespace Riscv

open Lib

/-! ## 1. What the emitter hands over -/

/-- `auipc t1, 0`. -/
def auipcTable : Word := opAuipc ||| ((6 : Word) <<< 7)

/-- `jalr zero, 12(t0)`. -/
def jalrTable : Word := opJalr ||| ((5 : Word) <<< 15) ||| ((12 : Word) <<< 20)

/-- `shNadd t0, index, t1`: funct3 is 4 for N = 2 and 6 for N = 3. -/
def shAdd (funct3 : Word) (index : BitVec 5) : Word :=
  (0x33 : Word) ||| ((5 : Word) <<< 7) ||| (funct3 <<< 12) ||| (index.setWidth 32 <<< 15) |||
    ((6 : Word) <<< 20) ||| ((0x10 : Word) <<< 25)

theorem widenDispatch_shAdd (index : BitVec 5) : widenDispatch (shAdd 4 index) = shAdd 6 index := by
  revert index
  decide

def CodeBuffer.useWord (b : CodeBuffer) (i : Nat) : Word := loadWord b.code (b.useOffset i)

/-- What `emit_dense_jump_table` lays down around a table's entries. -/
structure TableEmitted (b : CodeBuffer) (table : DenseJumpTable) : Prop where
  entry : ∀ k < table.count,
    b.useOffset (table.firstUse + k) = b.useOffset table.firstUse + 4 * k
  jump : ∀ k < table.count, opcodeOf (b.useWord (table.firstUse + k)) = opJal
  room : 12 ≤ b.useOffset table.firstUse
  lead : ∀ i < b.labelUses.length, ∀ d ∈ [4, 8, 12], b.useOffset i + d ≠ b.useOffset table.firstUse
  auipc : loadWord b.code (b.useOffset table.firstUse - 12) = auipcTable
  scale : ∃ index, loadWord b.code (b.useOffset table.firstUse - 8) = shAdd 4 index
  jalr : loadWord b.code (b.useOffset table.firstUse - 4) = jalrTable

/-- A name of `m_label_names` that relaxation does not take for a skip label. -/
def CodeBuffer.NamedLabel (b : CodeBuffer) (id : Nat) : Prop :=
  ∃ s : String, b.labelNames.names[id]? = some s ∧ ∀ k, s ≠ skipLabel k

/-- The buffer as `generate` has it when it calls `relax_branches`: whole words, each label use on a
branch, a JAL or the AUIPC of a pair, labels on word boundaries, dense tables as emitted. -/
structure Emitted (b : CodeBuffer) : Prop where
  words : b.code.length % 4 = 0
  aligned : ∀ i < b.labelUses.length, b.useOffset i % 4 = 0
  inside : ∀ i < b.labelUses.length, b.useOffset i + 4 ≤ b.code.length
  distinct : ∀ i < b.labelUses.length, ∀ j < b.labelUses.length,
    b.useOffset i = b.useOffset j → i = j
  opcode : ∀ i < b.labelUses.length, opcodeOf (b.useWord i) = opBranch ∨
    opcodeOf (b.useWord i) = opJal ∨ opcodeOf (b.useWord i) = opAuipc
  -- only `emit_la` passes an addend
  addend : ∀ (i : Nat) (use : LabelUse), b.labelUses[i]? = some use →
    opcodeOf (b.useWord i) ≠ opAuipc → use.addend = 0
  pair : ∀ i < b.labelUses.length, opcodeOf (b.useWord i) = opAuipc →
    b.useOffset i + 8 ≤ b.code.length ∧
      opcodeOf (loadWord b.code (b.useOffset i + 4)) ≠ opJalr ∧
      ∀ j < b.labelUses.length, b.useOffset j ≠ b.useOffset i + 4
  named : ∀ use ∈ b.labelUses, b.NamedLabel use.label
  label : ∀ id off, b.labelOffset id = some off →
    off % 4 = 0 ∧ off ≤ b.code.length ∧ b.NamedLabel id
  tableRange : ∀ t ∈ b.denseJumpTables, t.firstUse + t.count ≤ b.labelUses.length
  tableApart : b.denseJumpTables.Pairwise DenseJumpTable.Apart
  table : ∀ t ∈ b.denseJumpTables, 0 < t.count → TableEmitted b t
  -- the fast exit's `jal zero, -4` is the one jump emitted with its displacement filled in
  fixed : ∀ off, off % 4 = 0 → off + 4 ≤ b.code.length →
    (∀ i < b.labelUses.length, off ≠ b.useOffset i) →
    opcodeOf (loadWord b.code off) ≠ opBranch ∧
      (opcodeOf (loadWord b.code off) = opJal → off = 4 ∧ loadWord b.code off = 0xFFDFF06F)
  entryWord : ∀ i < b.labelUses.length, b.useOffset i ≠ 0
  line : ∀ e ∈ b.lineTable, e.address ≤ b.code.length

/-! ## 2. The forms a use goes through -/

/-- A use as emitted, rewritten once (a branch over a JAL), or reaching anywhere (AUIPC/JALR). -/
inductive UseForm where
  | kept
  | near
  | far
  deriving DecidableEq, Repr

def formWords (instr : Word) : UseForm → List Word
  | .kept => [instr]
  | .near => [invertBranch instr, opJal]
  | .far =>
    if opcodeOf instr = opBranch then
      [invertBranch instr, auipcScratch, jalrScratch (rdField opJal)]
    else [auipcScratch, jalrScratch (rdField instr)]

def formSlot (instr : Word) (form : UseForm) : Nat :=
  if opcodeOf instr = opBranch ∧ form ≠ .kept then 1 else 0

def formCarrier (instr : Word) : UseForm → Word
  | .kept => instr
  | .near => opJal
  | .far => auipcScratch

def formNext (instr : Word) : UseForm → UseForm
  | .kept => if opcodeOf instr = opBranch then .near else .far
  | .near => .far
  | .far => .far

theorem formSlot_lt (instr : Word) (form : UseForm) :
    formSlot instr form < (formWords instr form).length := by
  unfold formSlot
  cases form with
  | kept => simp [formWords]
  | near =>
    change _ < 2
    split <;> omega
  | far =>
    by_cases hb : opcodeOf instr = opBranch
    · simp [formWords, hb]
    · simp [formWords, hb]

variable {instr : Word} {form : UseForm}

theorem formWords_slot (h : form = .near → opcodeOf instr = opBranch) :
    (formWords instr form)[formSlot instr form]? = some (formCarrier instr form) := by
  cases form with
  | kept => simp [formWords, formSlot, formCarrier]
  | near => simp [formWords, formSlot, formCarrier, h rfl]
  | far =>
    by_cases hb : opcodeOf instr = opBranch
    · simp [formWords, formSlot, formCarrier, hb]
    · simp [formWords, formSlot, formCarrier, hb]

theorem opcodeOf_invertBranch (instr : Word) : opcodeOf (invertBranch instr) = opcodeOf instr := by
  unfold opcodeOf invertBranch
  rw [xor_and_mask, BitVec.and_assoc]
  simp

theorem opcodeOf_opJal : opcodeOf opJal = opJal := by decide

theorem opcodeOf_auipcScratch : opcodeOf auipcScratch = opAuipc := by decide

/-! ## 3. The invariant -/

/-- `b` is `b₀` moved by `φ`, with each use of `b₀` in its form. -/
structure Relaxing (b₀ b : CodeBuffer) (φ : Nat → Nat) (form : Nat → UseForm) : Prop where
  mono : StrictMono φ
  zero : φ 0 = 0
  mod : ∀ off, φ off % 4 = off % 4
  length : b.code.length = φ b₀.code.length
  gap : ∀ off, off % 4 = 0 → (∀ i < b₀.labelUses.length, off ≠ b₀.useOffset i) →
    φ (off + 4) = φ off + 4
  useGap : ∀ i < b₀.labelUses.length, φ (b₀.useOffset i + 4) =
    φ (b₀.useOffset i) + 4 * (formWords (b₀.useWord i) (form i)).length
  useWords : ∀ i < b₀.labelUses.length, ∀ k w, (formWords (b₀.useWord i) (form i))[k]? = some w →
    loadWord b.code (φ (b₀.useOffset i) + 4 * k) = w
  nearBranch : ∀ i < b₀.labelUses.length, form i = .near → opcodeOf (b₀.useWord i) = opBranch
  auipcKept : ∀ i < b₀.labelUses.length, opcodeOf (b₀.useWord i) = opAuipc → form i = .kept
  word : ∀ off, off % 4 = 0 → off + 4 ≤ b₀.code.length →
    (∀ i < b₀.labelUses.length, off ≠ b₀.useOffset i) →
    (∀ t ∈ b₀.denseJumpTables, 0 < t.count → form t.firstUse ≠ .kept →
      off + 8 ≠ b₀.useOffset t.firstUse) →
    loadWord b.code (φ off) = loadWord b₀.code off
  dispatch : ∀ t ∈ b₀.denseJumpTables, 0 < t.count → form t.firstUse ≠ .kept →
    loadWord b.code (φ (b₀.useOffset t.firstUse - 8)) =
      widenDispatch (loadWord b₀.code (b₀.useOffset t.firstUse - 8))
  tableForm : ∀ t ∈ b₀.denseJumpTables, ∀ k, t.Holds k → form k = form t.firstUse
  uses : ∀ (i : Nat) (use : LabelUse), b₀.labelUses[i]? = some use → b.labelUses[i]? = some
    ⟨use.label, φ use.codeOffset + 4 * formSlot (b₀.useWord i) (form i), use.addend⟩
  skipOf : ∀ i < b₀.labelUses.length, opcodeOf (b₀.useWord i) = opBranch → form i ≠ .kept →
    ∃ j id, b₀.labelUses.length ≤ j ∧ b.labelUses[j]? = some ⟨id, φ (b₀.useOffset i), 0⟩
  skips : ∀ j use, b₀.labelUses.length ≤ j → b.labelUses[j]? = some use →
    ∃ i < b₀.labelUses.length, opcodeOf (b₀.useWord i) = opBranch ∧ form i ≠ .kept ∧
      use.codeOffset = φ (b₀.useOffset i) ∧ use.addend = 0 ∧
      b.labelNames.names[use.label]? = some (skipLabel i) ∧
      b.labelOffset use.label = some (φ (b₀.useOffset i + 4))
  names : b₀.labelNames.Extends b.labelNames
  labels : ∀ id, b₀.NamedLabel id → b.labelOffset id = (b₀.labelOffset id).map φ
  tables : b.denseJumpTables = b₀.denseJumpTables
  functions : b.functions = b₀.functions.map fun entry => (entry.1, φ entry.2)
  instanceInit : b.instanceInitOffset = φ b₀.instanceInitOffset
  lines : b.code.length < 2 ^ 32 →
    b.lineTable = b₀.lineTable.map fun e => { e with address := φ e.address }

theorem Relaxing.start (b : CodeBuffer) : Relaxing b b id fun _ => .kept where
  mono := strictMono_id
  zero := rfl
  mod := fun _ => rfl
  length := rfl
  gap := fun _ _ _ => rfl
  useGap := fun _ _ => rfl
  useWords := fun i _ k w h => by
    obtain rfl := List.mem_singleton.mp (List.mem_of_getElem? h)
    have hk : k < 1 := (List.getElem?_eq_some_iff.mp h).1
    obtain rfl : k = 0 := by omega
    rfl
  nearBranch := fun _ _ h => by cases h
  auipcKept := fun _ _ _ => rfl
  word := fun _ _ _ _ _ => rfl
  dispatch := fun _ _ _ h => absurd rfl h
  tableForm := fun _ _ _ _ => rfl
  uses := fun i use h => by
    rw [formSlot, if_neg fun h => h.2 rfl]
    exact h
  skipOf := fun _ _ _ h => absurd rfl h
  skips := fun j use hj h => by
    rw [List.getElem?_eq_none hj] at h
    cases h
  names := fun _ _ h => h
  labels := fun id _ => by simp
  tables := rfl
  functions := by simp
  instanceInit := rfl
  lines := fun _ => by simp

/-! ## 4. Reading a buffer that satisfies it -/

variable {off i k : Nat} {t : DenseJumpTable}

section Reading

variable {b₀ b : CodeBuffer} {φ : Nat → Nat} {form : Nat → UseForm}

section

variable (h : Relaxing b₀ b φ form)
include h

theorem Relaxing.aligned_lt {x y : Nat} (hx : x % 4 = 0) (hy : y % 4 = 0) (hlt : x < y) :
    φ x + 4 ≤ φ y := by
  have h1 := h.mono hlt
  have h2 := h.mod x
  have h3 := h.mod y
  omega

/-- A moved word never lands inside the words a use has become. -/
theorem Relaxing.off_eq (he : Emitted b₀) (hoff : off % 4 = 0) (hi : i < b₀.labelUses.length)
    (hk : k < (formWords (b₀.useWord i) (form i)).length)
    (heq : φ off = φ (b₀.useOffset i) + 4 * k) :
    off = b₀.useOffset i ∧ k = 0 := by
  have hal := he.aligned i hi
  have hge : b₀.useOffset i ≤ off := h.mono.le_iff_le.mp (by omega)
  have hlt : off < b₀.useOffset i + 4 := h.mono.lt_iff_lt.mp (by rw [h.useGap i hi]; omega)
  have hoff' : off = b₀.useOffset i := by omega
  subst hoff'
  exact ⟨rfl, by omega⟩

theorem Relaxing.slot_eq (he : Emitted b₀) {j l : Nat} (hi : i < b₀.labelUses.length)
    (hj : j < b₀.labelUses.length) (hk : k < (formWords (b₀.useWord i) (form i)).length)
    (hl : l < (formWords (b₀.useWord j) (form j)).length)
    (heq : φ (b₀.useOffset i) + 4 * k = φ (b₀.useOffset j) + 4 * l) :
    i = j ∧ k = l := by
  have hai := he.aligned i hi
  have haj := he.aligned j hj
  have hgi := h.useGap i hi
  have hgj := h.useGap j hj
  have hle : b₀.useOffset i < b₀.useOffset j + 4 := h.mono.lt_iff_lt.mp (by omega)
  have hge : b₀.useOffset j < b₀.useOffset i + 4 := h.mono.lt_iff_lt.mp (by omega)
  obtain rfl := he.distinct i hi j hj (by omega)
  exact ⟨rfl, by omega⟩

theorem Relaxing.useOffset_eq (hi : i < b₀.labelUses.length) :
    b.useOffset i = φ (b₀.useOffset i) + 4 * formSlot (b₀.useWord i) (form i) := by
  have hu := List.getElem?_eq_getElem hi
  rw [useOffset_of_get (h.uses i _ hu), useOffset_of_get hu]

theorem Relaxing.uses_le : b₀.labelUses.length ≤ b.labelUses.length := by
  by_contra hlt
  have hi : b.labelUses.length < b₀.labelUses.length := by omega
  have hu := h.uses _ _ (List.getElem?_eq_getElem hi)
  rw [List.getElem?_eq_none (Nat.le_refl _)] at hu
  cases hu

theorem Relaxing.carrier (hi : i < b₀.labelUses.length) :
    b.useWord i = formCarrier (b₀.useWord i) (form i) := by
  rw [CodeBuffer.useWord, h.useOffset_eq hi]
  exact h.useWords i hi _ _ (formWords_slot (h.nearBranch i hi))

/-- Words that hold no use stay three apart from their table's first entry. -/
theorem Relaxing.lead (he : Emitted b₀) (ht : t ∈ b₀.denseJumpTables) (hc : 0 < t.count) :
    φ (b₀.useOffset t.firstUse) = φ (b₀.useOffset t.firstUse - 12) + 12 ∧
      φ (b₀.useOffset t.firstUse - 8) = φ (b₀.useOffset t.firstUse - 12) + 4 ∧
      φ (b₀.useOffset t.firstUse - 4) = φ (b₀.useOffset t.firstUse - 12) + 8 := by
  have hT := he.table t ht hc
  have hr := he.tableRange t ht
  have hal := he.aligned t.firstUse (by omega)
  have hroom := hT.room
  set o := b₀.useOffset t.firstUse with ho
  have hfree : ∀ d ∈ [4, 8, 12], ∀ i < b₀.labelUses.length, o - d ≠ b₀.useOffset i := by
    intro d hd i hi heq
    have hd' : d ≤ 12 := by
      simp only [List.mem_cons, List.not_mem_nil, or_false] at hd
      omega
    exact hT.lead i hi d hd (by omega)
  have h12 := h.gap (o - 12) (by omega) (hfree 12 (by simp))
  have h8 := h.gap (o - 8) (by omega) (hfree 8 (by simp))
  have h4 := h.gap (o - 4) (by omega) (hfree 4 (by simp))
  rw [show o - 12 + 4 = o - 8 by omega] at h12
  rw [show o - 8 + 4 = o - 4 by omega] at h8
  rw [show o - 4 + 4 = o by omega] at h4
  omega

theorem Relaxing.firstUse_offset (he : Emitted b₀) (ht : t ∈ b₀.denseJumpTables)
    (hc : 0 < t.count) :
    b.useOffset t.firstUse = φ (b₀.useOffset t.firstUse) := by
  have hr := he.tableRange t ht
  have hop := (he.table t ht hc).jump 0 hc
  rw [Nat.add_zero] at hop
  rw [h.useOffset_eq (by omega), formSlot, if_neg, Nat.mul_zero, Nat.add_zero]
  rw [hop]
  exact fun hb => absurd hb.1 (by decide)

theorem Relaxing.tablesApart (he : Emitted b₀) : b.TablesApart where
  inRange := fun t ht => Nat.le_trans (he.tableRange t (h.tables ▸ ht)) h.uses_le
  apart := h.tables ▸ he.tableApart
  dispatch := by
    rw [h.tables]
    refine List.Pairwise.imp_of_mem ?_ he.tableApart
    intro s t hs ht hap hcs hct d e hd hd'
    have hrs := he.tableRange s hs
    have hrt := he.tableRange t ht
    have hos := h.firstUse_offset he hs hcs
    have hot := h.firstUse_offset he ht hct
    obtain ⟨us, hus, rfl⟩ := Option.map_eq_some_iff.mp hd
    obtain ⟨ut, hut, rfl⟩ := Option.map_eq_some_iff.mp hd'
    rw [useOffset_of_get hus] at hos
    rw [useOffset_of_get hut] at hot
    -- different tables start at different uses, so at different words
    have hne : b₀.useOffset s.firstUse ≠ b₀.useOffset t.firstUse := by
      intro heq
      have hsame := he.distinct _ (by omega) _ (by omega) heq
      exact hap s.firstUse ⟨Nat.le_refl _, by omega⟩ ⟨by omega, by omega⟩
    have has := he.aligned s.firstUse (by omega)
    have hat := he.aligned t.firstUse (by omega)
    have h12s := (h.lead he hs hcs).1
    have h12t := (h.lead he ht hct).1
    rcases Nat.lt_or_gt_of_ne hne with hlt | hlt
    · have := h.aligned_lt has hat hlt
      omega
    · have := h.aligned_lt hat has hlt
      omega

end

end Reading

/-! ## 5. Which uses a round marks -/

theorem fitsInSigned_iff (value : Int) (bits : Nat) :
    fitsInSigned value bits = true ↔ -(2 ^ (bits - 1) : Int) ≤ value ∧ value < 2 ^ (bits - 1) := by
  unfold fitsInSigned
  rw [Bool.and_eq_true, decide_eq_true_iff, decide_eq_true_iff]

variable {use : LabelUse}

theorem outOfReach_cases {b : CodeBuffer} (h : outOfReach b use = true) :
    ∃ target, b.labelOffset use.label = some target ∧
      ((opcodeOf (loadWord b.code use.codeOffset) = opBranch ∧
          fitsInSigned ((target : Int) - use.codeOffset + use.addend) bTypeImmBits = false) ∨
        (opcodeOf (loadWord b.code use.codeOffset) = opJal ∧
          fitsInSigned ((target : Int) - use.codeOffset + use.addend) jTypeImmBits = false)) := by
  unfold outOfReach at h
  split at h
  · cases h
  · split at h
    · cases h
    · rename_i target htarget
      refine ⟨target, htarget, ?_⟩
      dsimp only at h
      split at h
      · cases h
      · rename_i hop
        by_cases hb : opcodeOf (loadWord b.code use.codeOffset) = opBranch
        · rw [if_pos hb] at h
          exact Or.inl ⟨hb, by simpa using h⟩
        · rw [if_neg hb] at h
          exact Or.inr ⟨by simpa [hb] using hop, by simpa using h⟩

instance : Std.Symm DenseJumpTable.Apart := ⟨fun _ _ h i hi hj => h i hj hi⟩

section Marking

variable {b₀ b : CodeBuffer} {φ : Nat → Nat} {form : Nat → UseForm}

/-- A skip branch spans the one or two words behind it, so it is never out of reach. -/
theorem Relaxing.skip_reaches (h : Relaxing b₀ b φ form) {j : Nat} (hj : b₀.labelUses.length ≤ j) :
    ¬ b.Unreachable j := by
  rintro ⟨use, hu, hout⟩
  obtain ⟨i, hi, hop, hf, hoff, hadd, -, hlab⟩ := h.skips j use hj hu
  obtain ⟨target, htarget, hcases⟩ := outOfReach_cases hout
  rw [hlab, Option.some.injEq] at htarget
  have hgap := h.useGap i hi
  have hword : loadWord b.code (φ (b₀.useOffset i)) = invertBranch (b₀.useWord i) := by
    apply h.useWords i hi 0
    cases hform : form i with
    | kept => exact absurd hform hf
    | near => rfl
    | far => simp [formWords, hop]
  have hlen : (formWords (b₀.useWord i) (form i)).length ≤ 3 := by
    unfold formWords
    split
    · simp
    · simp
    · split <;> simp
  have hbr : opcodeOf (loadWord b.code use.codeOffset) = opBranch := by
    rw [hoff, hword, opcodeOf_invertBranch, hop]
  rcases hcases with ⟨-, hfit⟩ | ⟨hjal, -⟩
  · rw [hoff, hadd, ← htarget, hgap] at hfit
    have hfits : fitsInSigned (((φ (b₀.useOffset i) + 4 *
        (formWords (b₀.useWord i) (form i)).length : Nat) : Int) - (φ (b₀.useOffset i) : Nat) + 0)
        bTypeImmBits = true := by
      rw [fitsInSigned_iff, show (2 : Int) ^ (bTypeImmBits - 1) = 4096 from rfl]
      omega
    rw [hfits] at hfit
    cases hfit
  · rw [hbr] at hjal
    exact absurd hjal (by decide)

/-- The uses a round can find out of reach: a branch or a JAL as emitted, or the JAL a branch has
become. -/
def CanRelax (instr : Word) (form : UseForm) : Prop :=
  (opcodeOf instr = opBranch ∧ form ≠ .far) ∨ (opcodeOf instr = opJal ∧ form = .kept)

theorem Relaxing.unreachable_canRelax (h : Relaxing b₀ b φ form) (hu : b.Unreachable i) :
    i < b₀.labelUses.length ∧ CanRelax (b₀.useWord i) (form i) := by
  have hi : i < b₀.labelUses.length := by
    by_contra hge
    exact h.skip_reaches (by omega) hu
  refine ⟨hi, ?_⟩
  obtain ⟨use, huse, hout⟩ := hu
  obtain ⟨target, -, hcases⟩ := outOfReach_cases hout
  rw [← useOffset_of_get huse] at hcases
  have hcar : loadWord b.code (b.useOffset i) = formCarrier (b₀.useWord i) (form i) := h.carrier hi
  rw [hcar] at hcases
  cases hform : form i with
  | kept =>
    rw [hform] at hcases
    rcases hcases with ⟨hop, -⟩ | ⟨hop, -⟩
    · exact Or.inl ⟨hop, by simp⟩
    · exact Or.inr ⟨hop, rfl⟩
  | near => exact Or.inl ⟨h.nearBranch i hi hform, by simp⟩
  | far =>
    rw [hform, formCarrier, opcodeOf_auipcScratch] at hcases
    rcases hcases with ⟨hop, -⟩ | ⟨hop, -⟩
    · exact absurd hop (by decide)
    · exact absurd hop (by decide)

theorem TableEmitted.jump_of_holds (hT : TableEmitted b₀ t) (hk : t.Holds k) :
    opcodeOf (b₀.useWord k) = opJal := by
  have := hT.jump (k - t.firstUse) (by have := hk.2; have := hk.1; omega)
  rwa [show t.firstUse + (k - t.firstUse) = k by have := hk.1; omega] at this

section

variable (h : Relaxing b₀ b φ form) (he : Emitted b₀)
include h he

theorem Relaxing.overflows_kept (ht : t ∈ b₀.denseJumpTables) (ho : b.Overflows t) :
    0 < t.count ∧ form t.firstUse = .kept := by
  obtain ⟨k, hk, hu⟩ := ho
  have hc : 0 < t.count := by have := hk.1; have := hk.2; omega
  obtain ⟨-, hcan⟩ := h.unreachable_canRelax hu
  have hop := (he.table t ht hc).jump_of_holds hk
  refine ⟨hc, ?_⟩
  rw [← h.tableForm t ht k hk]
  rcases hcan with ⟨hb, -⟩ | ⟨-, hf⟩
  · rw [hop] at hb
    exact absurd hb (by decide)
  · exact hf

theorem Relaxing.marked_canRelax (hi : i ∈ b.marked) :
    i < b₀.labelUses.length ∧ CanRelax (b₀.useWord i) (form i) := by
  rw [(h.tablesApart he).mem_marked] at hi
  rcases hi with hu | ⟨t, ht, hh, ho⟩
  · exact h.unreachable_canRelax hu
  · rw [h.tables] at ht
    obtain ⟨hc, hf⟩ := h.overflows_kept he ht ho
    have hr := he.tableRange t ht
    refine ⟨by have := hh.2; omega, Or.inr ⟨(he.table t ht hc).jump_of_holds hh, ?_⟩⟩
    rw [h.tableForm t ht i hh, hf]

/-- A table is relaxed as a whole. -/
theorem Relaxing.marked_iff_overflows (ht : t ∈ b₀.denseJumpTables) (hk : t.Holds k) :
    k ∈ b.marked ↔ b.Overflows t := by
  rw [(h.tablesApart he).mem_marked]
  constructor
  · rintro (hu | ⟨s, hs, hsk, ho⟩)
    · exact ⟨k, hk, hu⟩
    · rw [h.tables] at hs
      have hst : s = t := by
        by_contra hne
        have hap := he.tableApart.forall hs ht hne
        exact hap k hsk hk
      exact hst ▸ ho
  · intro ho
    exact Or.inr ⟨t, h.tables ▸ ht, hk, ho⟩

theorem Relaxing.usesApart : UsesApart b.widened b.marked where
  bound := fun i hi => Nat.lt_of_lt_of_le (h.marked_canRelax he hi).1 h.uses_le
  aligned := fun i hi => by
    have hlt := (h.marked_canRelax he hi).1
    change b.useOffset i % 4 = 0
    have := he.aligned i hlt
    have := h.mod (b₀.useOffset i)
    rw [h.useOffset_eq hlt]
    omega
  inside := fun i hi => by
    have hlt := (h.marked_canRelax he hi).1
    change b.useOffset i + 4 ≤ (markRelaxed b).2.length
    rw [(h.tablesApart he).length_marks.2, h.length, h.useOffset_eq hlt]
    have hmono := h.mono.monotone (he.inside i hlt)
    have hslot := formSlot_lt (b₀.useWord i) (form i)
    rw [h.useGap i hlt] at hmono
    omega
  distinct := fun i hi j hj heq => by
    have hli := (h.marked_canRelax he hi).1
    have hlj := (h.marked_canRelax he hj).1
    change b.useOffset i = b.useOffset j at heq
    rw [h.useOffset_eq hli, h.useOffset_eq hlj] at heq
    exact (h.slot_eq he hli hlj (formSlot_lt _ _) (formSlot_lt _ _) heq).1

end

end Marking

/-! ## 6. A round keeps it -/

section Step

variable {b₀ b : CodeBuffer} {φ : Nat → Nat} {form : Nat → UseForm}

theorem formCarrier_branch_iff (instr : Word) (form : UseForm) :
    opcodeOf (formCarrier instr form) = opBranch ↔ form = .kept ∧ opcodeOf instr = opBranch := by
  cases form with
  | kept => simp [formCarrier]
  | near => simp [formCarrier, opcodeOf_opJal]; decide
  | far => simp [formCarrier, opcodeOf_auipcScratch]; decide

theorem Relaxing.dispatch_offset (h : Relaxing b₀ b φ form) (he : Emitted b₀)
    (ht : t ∈ b₀.denseJumpTables) (hc : 0 < t.count) :
    dispatchOf b.labelUses t = some (φ (b₀.useOffset t.firstUse - 8)) := by
  have hr := he.tableRange t ht
  have hlt : t.firstUse < b.labelUses.length := Nat.lt_of_lt_of_le (by omega) h.uses_le
  have hoff := h.firstUse_offset he ht hc
  have hlead := h.lead he ht hc
  rw [useOffset_of_get (List.getElem?_eq_getElem hlt)] at hoff
  rw [dispatchOf, List.getElem?_eq_getElem hlt, Option.map_some, hoff]
  congr 1
  omega

/-- Rescaling leaves every word alone but the dispatch words of the tables that overflow. -/
theorem Relaxing.widened_word (h : Relaxing b₀ b φ form) (he : Emitted b₀) {p : Nat}
    (hp : p % 4 = 0)
    (hne : ∀ t ∈ b₀.denseJumpTables, 0 < t.count → b.Overflows t →
      p ≠ φ (b₀.useOffset t.firstUse - 8)) :
    loadWord b.widened.code p = loadWord b.code p := by
  apply (h.tablesApart he).word_of_ne
  intro t ht ho d hd
  rw [h.tables] at ht
  have hc := (h.overflows_kept he ht ho).1
  have hroom := (he.table t ht hc).room
  have hal := he.aligned t.firstUse (by have := he.tableRange t ht; omega)
  rw [h.dispatch_offset he ht hc, Option.some.injEq] at hd
  have hmod := h.mod (b₀.useOffset t.firstUse - 8)
  have := hne t ht hc ho
  omega

theorem Relaxing.lead_ne_use (he : Emitted b₀) (ht : t ∈ b₀.denseJumpTables) (hc : 0 < t.count)
    (hi : i < b₀.labelUses.length) :
    b₀.useOffset t.firstUse - 8 ≠ b₀.useOffset i := by
  have hT := he.table t ht hc
  have hroom := hT.room
  have := hT.lead i hi 8 (by simp)
  omega

section

variable (h : Relaxing b₀ b φ form) (he : Emitted b₀)
include h he

section

variable (hi : i < b₀.labelUses.length)
include hi

theorem Relaxing.widened_useWords {w : Word}
    (hw : (formWords (b₀.useWord i) (form i))[k]? = some w) :
    loadWord b.widened.code (φ (b₀.useOffset i) + 4 * k) = w := by
  have hk : k < (formWords (b₀.useWord i) (form i)).length := (List.getElem?_eq_some_iff.mp hw).1
  have hmod := h.mod (b₀.useOffset i)
  have hal := he.aligned i hi
  rw [h.widened_word he (by omega), h.useWords i hi k w hw]
  intro t ht hc _ heq
  have hroom := (he.table t ht hc).room
  have hat := he.aligned t.firstUse (by have := he.tableRange t ht; omega)
  exact Relaxing.lead_ne_use he ht hc hi (h.off_eq he (by omega) hi hk heq.symm).1

theorem Relaxing.widened_carrier :
    loadWord b.widened.code (b.widened.useOffset i) = formCarrier (b₀.useWord i) (form i) := by
  change loadWord b.widened.code (b.useOffset i) = _
  rw [h.useOffset_eq hi]
  exact h.widened_useWords he hi (formWords_slot (h.nearBranch i hi))

theorem Relaxing.relaxes_branch_iff :
    opcodeOf (loadWord b.widened.code (b.widened.useOffset i)) = opBranch ↔
      form i = .kept ∧ opcodeOf (b₀.useWord i) = opBranch := by
  rw [h.widened_carrier he hi, formCarrier_branch_iff]

/-- Where a round puts the words of one use: those behind the slot make room for one more if the use
is marked. -/
theorem Relaxing.shift_slot (k : Nat) (hk : k ≤ (formWords (b₀.useWord i) (form i)).length) :
    roundShift b.widened b.marked (φ (b₀.useOffset i) + 4 * k) =
      roundShift b.widened b.marked (φ (b₀.useOffset i)) + 4 * k +
        if i ∈ b.marked ∧ formSlot (b₀.useWord i) (form i) < k then 4 else 0 := by
  have hap := h.usesApart he
  have hmod := h.mod (b₀.useOffset i)
  have hal := he.aligned i hi
  induction k with
  | zero => simp
  | succ k ih =>
    have ih := ih (by omega)
    rw [show φ (b₀.useOffset i) + 4 * (k + 1) = φ (b₀.useOffset i) + 4 * k + 4 by omega]
    by_cases hpt : i ∈ b.marked ∧ formSlot (b₀.useWord i) (form i) = k
    · obtain ⟨hm, hs⟩ := hpt
      have hpoint := roundShift_point hap b.nodup_marked hm
      rw [show b.widened.useOffset i = φ (b₀.useOffset i) + 4 * k by
        rw [← hs]; exact h.useOffset_eq hi] at hpoint
      rw [if_neg (by omega), Nat.add_zero] at ih
      rw [hpoint, ih, if_pos ⟨hm, by omega⟩]
      omega
    · have hgap : roundShift b.widened b.marked (φ (b₀.useOffset i) + 4 * k + 4) =
          roundShift b.widened b.marked (φ (b₀.useOffset i) + 4 * k) + 4 :=
        roundShift_gap hap (by omega) ?_
      · have hiff : (i ∈ b.marked ∧ formSlot (b₀.useWord i) (form i) < k) ↔
            (i ∈ b.marked ∧ formSlot (b₀.useWord i) (form i) < k + 1) := by
          constructor
          · rintro ⟨hm, hs⟩
            exact ⟨hm, by omega⟩
          · rintro ⟨hm, hs⟩
            have hne : formSlot (b₀.useWord i) (form i) ≠ k := fun heq => hpt ⟨hm, heq⟩
            exact ⟨hm, by omega⟩
        rw [hgap, ih, if_congr hiff rfl rfl]
        omega
      · intro j hj heq
        change _ = b.useOffset j at heq
        have hjl := (h.marked_canRelax he hj).1
        rw [h.useOffset_eq hjl] at heq
        obtain ⟨rfl, hkl⟩ := h.slot_eq he hi hjl (by omega) (formSlot_lt _ _) heq
        exact hpt ⟨hj, hkl.symm⟩

end

theorem Relaxing.shift_gap (hoff : off % 4 = 0)
    (hne : ∀ i < b₀.labelUses.length, off ≠ b₀.useOffset i) :
    (∀ i ∈ b.marked, φ off ≠ b.widened.useOffset i) ∧
      roundShift b.widened b.marked (φ (off + 4)) = roundShift b.widened b.marked (φ off) + 4 := by
  have hfree : ∀ i ∈ b.marked, φ off ≠ b.widened.useOffset i := by
    intro i hi heq
    have hil := (h.marked_canRelax he hi).1
    change φ off = b.useOffset i at heq
    rw [h.useOffset_eq hil] at heq
    exact hne i hil (h.off_eq he hoff hil (formSlot_lt _ _) heq).1
  refine ⟨hfree, ?_⟩
  rw [h.gap off hoff hne]
  exact roundShift_gap (h.usesApart he) (by rw [h.mod]; exact hoff) hfree

end

/-- A marked use's words after the round: those before its slot, then the rewritten word and the
inserted one. -/
theorem formWords_next {form : UseForm} (h : CanRelax instr form) :
    formWords instr (formNext instr form) = (formWords instr form).take (formSlot instr form) ++
      [rewrittenWord (formCarrier instr form), insertedWord (formCarrier instr form)] := by
  have hj : opJal ≠ opBranch := by decide
  cases form with
  | kept =>
    rcases h with ⟨hb, -⟩ | ⟨hb, -⟩
    · simp [formNext, formWords, formSlot, formCarrier, rewrittenWord, insertedWord, hb]
    · simp [formNext, formWords, formSlot, formCarrier, rewrittenWord, insertedWord, hb, hj]
  | near =>
    rcases h with ⟨hb, -⟩ | ⟨-, hf⟩
    · simp [formNext, formWords, formSlot, formCarrier, rewrittenWord, insertedWord, hb,
        opcodeOf_opJal, hj]
    · cases hf
  | far =>
    rcases h with ⟨-, hf⟩ | ⟨-, hf⟩
    · exact absurd rfl hf
    · cases hf

theorem CanRelax.length_eq {form : UseForm} (h : CanRelax instr form) :
    (formWords instr form).length = formSlot instr form + 1 := by
  cases form with
  | kept => simp [formWords, formSlot]
  | near =>
    rcases h with ⟨hb, -⟩ | ⟨-, hf⟩
    · simp [formWords, formSlot, hb]
    · cases hf
  | far =>
    rcases h with ⟨-, hf⟩ | ⟨-, hf⟩
    · exact absurd rfl hf
    · cases hf

theorem CanRelax.slot_next {form : UseForm} (h : CanRelax instr form) :
    formSlot instr (formNext instr form) = formSlot instr form +
      if form = .kept ∧ opcodeOf instr = opBranch then 1 else 0 := by
  cases form with
  | kept =>
    by_cases hb : opcodeOf instr = opBranch
    · simp [formNext, formSlot, hb]
    · simp [formNext, formSlot, hb]
  | near =>
    rcases h with ⟨hb, -⟩ | ⟨-, hf⟩
    · simp [formNext, formSlot, hb]
    · cases hf
  | far => simp [formNext]

def nextForm (b₀ b : CodeBuffer) (form : Nat → UseForm) (i : Nat) : UseForm :=
  if i ∈ b.marked then formNext (b₀.useWord i) (form i) else form i

variable {b' : CodeBuffer}

theorem Relaxing.next_useGap (h : Relaxing b₀ b φ form) (he : Emitted b₀)
    (hi : i < b₀.labelUses.length) :
    roundShift b.widened b.marked (φ (b₀.useOffset i + 4)) = roundShift b.widened b.marked
      (φ (b₀.useOffset i)) +
        4 * (formWords (b₀.useWord i) (nextForm b₀ b form i)).length := by
  have hslot := formSlot_lt (b₀.useWord i) (form i)
  rw [h.useGap i hi, h.shift_slot he hi _ (Nat.le_refl _), nextForm]
  by_cases hm : i ∈ b.marked
  · have hcan := (h.marked_canRelax he hm).2
    have hlen := hcan.length_eq
    rw [if_pos ⟨hm, hslot⟩, if_pos hm, formWords_next hcan, List.length_append, List.length_take]
    simp only [List.length_cons, List.length_nil]
    omega
  · rw [if_neg fun hc => hm hc.1, if_neg hm, Nat.add_zero]

theorem Relaxing.next_useWords (h : Relaxing b₀ b φ form) (he : Emitted b₀)
    (hr : Round b.widened b.marked b') (hi : i < b₀.labelUses.length) {w : Word}
    (hw : (formWords (b₀.useWord i) (nextForm b₀ b form i))[k]? = some w) :
    loadWord b'.code (roundShift b.widened b.marked (φ (b₀.useOffset i)) + 4 * k) = w := by
  have hal := he.aligned i hi
  have hmod := h.mod (b₀.useOffset i)
  have hslot := formSlot_lt (b₀.useWord i) (form i)
  -- a word the round does not rewrite is found where the map puts it
  have hold : ∀ k v, (formWords (b₀.useWord i) (form i))[k]? = some v →
      (i ∈ b.marked → k < formSlot (b₀.useWord i) (form i)) →
      loadWord b'.code (roundShift b.widened b.marked (φ (b₀.useOffset i)) + 4 * k) = v := by
    intro k v hv hbefore
    have hk := (List.getElem?_eq_some_iff.mp hv).1
    have hpos := h.shift_slot he hi k (by omega)
    rw [if_neg fun hc => by have := hbefore hc.1; omega, Nat.add_zero] at hpos
    rw [← hpos, hr.frame _ (by omega), h.widened_useWords he hi hv]
    · change _ ≤ (markRelaxed b).2.length
      rw [(h.tablesApart he).length_marks.2, h.length]
      have hmono := h.mono.monotone (he.inside i hi)
      rw [h.useGap i hi] at hmono
      omega
    · intro j hj heq
      have hjl := (h.marked_canRelax he hj).1
      change _ = b.useOffset j at heq
      rw [h.useOffset_eq hjl] at heq
      obtain ⟨rfl, hkl⟩ := h.slot_eq he hi hjl hk (formSlot_lt _ _) heq
      have := hbefore hj
      omega
  by_cases hm : i ∈ b.marked
  · have hcan := (h.marked_canRelax he hm).2
    have hlen := hcan.length_eq
    have hpos := h.shift_slot he hi (formSlot (b₀.useWord i) (form i)) (by omega)
    rw [if_neg (by omega), Nat.add_zero] at hpos
    have hcur : b.widened.useOffset i = φ (b₀.useOffset i) + 4 * formSlot (b₀.useWord i) (form i) :=
      h.useOffset_eq hi
    have hrew := hr.rewritten i hm
    have hins := hr.inserted i hm
    rw [h.widened_carrier he hi, hcur, hpos] at hrew hins
    have htake : ((formWords (b₀.useWord i) (form i)).take
        (formSlot (b₀.useWord i) (form i))).length = formSlot (b₀.useWord i) (form i) := by
      rw [List.length_take]
      omega
    rw [nextForm, if_pos hm, formWords_next hcan] at hw
    rcases Nat.lt_trichotomy k (formSlot (b₀.useWord i) (form i)) with hlt | heq | hgt
    · rw [List.getElem?_append_left (by omega), List.getElem?_take, if_pos hlt] at hw
      exact hold k w hw fun _ => hlt
    · rw [List.getElem?_append_right (by omega), htake, heq, Nat.sub_self] at hw
      rw [heq, hrew]
      exact Option.some.inj hw
    · have hk : k = formSlot (b₀.useWord i) (form i) + 1 := by
        have := (List.getElem?_eq_some_iff.mp hw).1
        rw [List.length_append, htake] at this
        simp only [List.length_cons, List.length_nil] at this
        omega
      rw [List.getElem?_append_right (by omega), htake, hk, Nat.add_sub_cancel_left] at hw
      rw [hk, Nat.mul_add, Nat.mul_one, ← Nat.add_assoc, hins]
      exact Option.some.inj hw
  · rw [nextForm, if_neg hm] at hw
    exact hold k w hw fun hmem => absurd hmem hm

theorem formNext_ne_kept (instr : Word) (form : UseForm) : formNext instr form ≠ .kept := by
  cases form with
  | kept =>
    change (if opcodeOf instr = opBranch then UseForm.near else UseForm.far) ≠ _
    split <;> simp
  | near => simp [formNext]
  | far => simp [formNext]

section

variable (h : Relaxing b₀ b φ form) (he : Emitted b₀)
include h he

theorem Relaxing.next_wide_iff (ht : t ∈ b₀.denseJumpTables) (hc : 0 < t.count) :
    nextForm b₀ b form t.firstUse ≠ .kept ↔ form t.firstUse ≠ .kept ∨ b.Overflows t := by
  have hm := h.marked_iff_overflows he ht (k := t.firstUse) ⟨Nat.le_refl _, by omega⟩
  unfold nextForm
  split
  · rename_i hmem
    exact ⟨fun _ => Or.inr (hm.mp hmem), fun _ => formNext_ne_kept _ _⟩
  · rename_i hmem
    exact ⟨Or.inl, fun hor => hor.resolve_right fun ho => hmem (hm.mpr ho)⟩

section

variable (hr : Round b.widened b.marked b')
include hr

theorem Relaxing.next_word (hoff : off % 4 = 0)
    (hlen : off + 4 ≤ b₀.code.length) (hne : ∀ i < b₀.labelUses.length, off ≠ b₀.useOffset i) :
    loadWord b'.code (roundShift b.widened b.marked (φ off)) = loadWord b.widened.code (φ off) := by
  apply hr.frame
  · rw [h.mod]
    exact hoff
  · change _ ≤ (markRelaxed b).2.length
    rw [(h.tablesApart he).length_marks.2, h.length, ← h.gap off hoff hne]
    exact h.mono.monotone hlen
  · exact (h.shift_gap he hoff hne).1

theorem Relaxing.next_frame (hoff : off % 4 = 0)
    (hlen : off + 4 ≤ b₀.code.length) (hne : ∀ i < b₀.labelUses.length, off ≠ b₀.useOffset i)
    (hd : ∀ t ∈ b₀.denseJumpTables, 0 < t.count → nextForm b₀ b form t.firstUse ≠ .kept →
      off + 8 ≠ b₀.useOffset t.firstUse) :
    loadWord b'.code (roundShift b.widened b.marked (φ off)) = loadWord b₀.code off := by
  rw [h.next_word he hr hoff hlen hne, h.widened_word he (by rw [h.mod]; exact hoff)]
  · apply h.word off hoff hlen hne
    intro t ht hc hw
    exact hd t ht hc ((h.next_wide_iff he ht hc).mpr (Or.inl hw))
  · intro t ht hc ho heq
    have hroom := (he.table t ht hc).room
    have := h.mono.injective heq
    exact hd t ht hc ((h.next_wide_iff he ht hc).mpr (Or.inr ho)) (by omega)

theorem Relaxing.next_dispatch (ht : t ∈ b₀.denseJumpTables)
    (hc : 0 < t.count) (hwide : nextForm b₀ b form t.firstUse ≠ .kept) :
    loadWord b'.code (roundShift b.widened b.marked (φ (b₀.useOffset t.firstUse - 8))) =
      widenDispatch (loadWord b₀.code (b₀.useOffset t.firstUse - 8)) := by
  have hT := he.table t ht hc
  have hroom := hT.room
  have hrange := he.tableRange t ht
  have hal := he.aligned t.firstUse (by omega)
  have hin := he.inside t.firstUse (by omega)
  have hne : ∀ i < b₀.labelUses.length, b₀.useOffset t.firstUse - 8 ≠ b₀.useOffset i :=
    fun i hi => Relaxing.lead_ne_use he ht hc hi
  rw [h.next_word he hr (by omega) (by omega) hne]
  by_cases hwas : form t.firstUse = .kept
  · -- the table overflows in this round
    have ho : b.Overflows t := ((h.next_wide_iff he ht hc).mp hwide).resolve_left fun hk => hk hwas
    rw [(h.tablesApart he).word_of_overflows (h.tables ▸ ht) ho (h.dispatch_offset he ht hc),
      h.word _ (by omega) (by omega) hne]
    · intro s hs hcs hws heq
      have hsr := he.tableRange s hs
      have hroom' := (he.table s hs hcs).room
      have hidx := he.distinct s.firstUse (by omega) t.firstUse (by omega) (by omega)
      rw [hidx] at hws
      exact hws hwas
    · rw [h.length, ← h.gap _ (by omega) hne]
      exact h.mono.monotone (by omega)
  · -- it was widened before, and a wide table does not overflow again
    rw [h.widened_word he (by rw [h.mod]; omega), h.dispatch t ht hc hwas]
    intro s hs hcs ho heq
    have hsr := he.tableRange s hs
    have hroom' := (he.table s hs hcs).room
    have hoff := h.mono.injective heq
    have hidx := he.distinct s.firstUse (by omega) t.firstUse (by omega) (by omega)
    have hkept := (h.overflows_kept he hs ho).2
    rw [hidx] at hkept
    exact hwas hkept

theorem Relaxing.next_uses (hu : b₀.labelUses[i]? = some use) :
    b'.labelUses[i]? = some ⟨use.label, roundShift b.widened b.marked (φ use.codeOffset) +
      4 * formSlot (b₀.useWord i) (nextForm b₀ b form i), use.addend⟩ := by
  have hi := (List.getElem?_eq_some_iff.mp hu).1
  have hoff := useOffset_of_get hu
  have hpos := h.shift_slot he hi _ (Nat.le_of_lt (formSlot_lt (b₀.useWord i) (form i)))
  rw [if_neg (by omega), Nat.add_zero] at hpos
  have hnew := hr.uses i _ (h.uses i use hu)
  dsimp only at hnew
  rw [hnew, ← hoff, hpos, if_congr (and_congr_right fun _ => h.relaxes_branch_iff he hi) rfl rfl,
    nextForm]
  by_cases hm : i ∈ b.marked
  · rw [if_pos hm, (h.marked_canRelax he hm).2.slot_next]
    by_cases hb : form i = .kept ∧ opcodeOf (b₀.useWord i) = opBranch
    · rw [if_pos ⟨hm, hb⟩, if_pos hb, Nat.mul_add, Nat.mul_one, Nat.add_assoc]
    · rw [if_neg fun hc => hb hc.2, if_neg hb, Nat.add_zero, Nat.add_zero]
  · rw [if_neg hm, if_neg fun hc => hm hc.1, Nat.add_zero]

end

end

theorem nextForm_ne_kept (h : form i ≠ .kept) : nextForm b₀ b form i ≠ .kept := by
  unfold nextForm
  split
  · exact formNext_ne_kept _ _
  · exact h

section

variable (h : Relaxing b₀ b φ form)
include h

theorem Relaxing.next_labels (hr : Round b.widened b.marked b') {id : Nat}
    (hid : b₀.NamedLabel id) :
    b'.labelOffset id = ((b₀.labelOffset id).map φ).map (roundShift b.widened b.marked) := by
  obtain ⟨s, hs, hnot⟩ := hid
  rw [hr.offsets id, ← h.labels id ⟨s, hs, hnot⟩]
  · rfl
  · intro i _ _ heq
    rw [hr.names id s (h.names id s hs), Option.some.injEq] at heq
    exact hnot i heq

section

variable (he : Emitted b₀) (hr : Round b.widened b.marked b')
include he hr

theorem Relaxing.next_skipOf (hi : i < b₀.labelUses.length)
    (hop : opcodeOf (b₀.useWord i) = opBranch) (hf : nextForm b₀ b form i ≠ .kept) :
    ∃ j id, b₀.labelUses.length ≤ j ∧
      b'.labelUses[j]? = some ⟨id, roundShift b.widened b.marked (φ (b₀.useOffset i)), 0⟩ := by
  by_cases hwas : form i = .kept
  · -- relaxed in this round
    have hm : i ∈ b.marked := by
      by_contra hm
      rw [nextForm, if_neg hm] at hf
      exact hf hwas
    obtain ⟨j, id, hj, hu⟩ := hr.skipOf i hm ((h.relaxes_branch_iff he hi).mpr ⟨hwas, hop⟩)
    have hcur : b.widened.useOffset i = φ (b₀.useOffset i) := by
      have := h.useOffset_eq hi
      rw [hwas, formSlot, if_neg fun hc => hc.2 rfl, Nat.mul_zero, Nat.add_zero] at this
      exact this
    rw [hcur] at hu
    exact ⟨j, id, Nat.le_trans h.uses_le hj, hu⟩
  · obtain ⟨j, id, hj, hu⟩ := h.skipOf i hi hop hwas
    have hnew := hr.uses j _ hu
    rw [if_neg fun hc => by have := (h.marked_canRelax he hc.1).1; omega, Nat.add_zero] at hnew
    exact ⟨j, id, hj, hnew⟩

theorem Relaxing.next_skips {j : Nat} (hj : b₀.labelUses.length ≤ j)
    (hu : b'.labelUses[j]? = some use) :
    ∃ i < b₀.labelUses.length, opcodeOf (b₀.useWord i) = opBranch ∧ nextForm b₀ b form i ≠ .kept ∧
      use.codeOffset = roundShift b.widened b.marked (φ (b₀.useOffset i)) ∧ use.addend = 0 ∧
      b'.labelNames.names[use.label]? = some (skipLabel i) ∧
      b'.labelOffset use.label = some (roundShift b.widened b.marked (φ (b₀.useOffset i + 4))) := by
  by_cases hjl : j < b.labelUses.length
  · have hold := List.getElem?_eq_getElem hjl
    obtain ⟨i, hi, hop, hf, hoff, hadd, hname, hlab⟩ := h.skips j _ hj hold
    have hnew := hr.uses j _ hold
    rw [if_neg fun hc => by have := (h.marked_canRelax he hc.1).1; omega, Nat.add_zero, hu,
      Option.some.injEq] at hnew
    subst hnew
    refine ⟨i, hi, hop, nextForm_ne_kept hf, by rw [hoff], hadd, hr.names _ _ hname, ?_⟩
    rw [hr.offsets]
    · exact congrArg (Option.map _) hlab
    · -- the names this round gives out belong to branches that were still as emitted
      intro k hk hbr heq
      have hkl := (h.marked_canRelax he hk).1
      rw [hr.names _ _ hname, Option.some.injEq] at heq
      obtain rfl := skipLabel_injective heq
      exact hf ((h.relaxes_branch_iff he hkl).mp hbr).1
  · obtain ⟨i, hm, hbr, hoff, hadd, hname, hlab⟩ := hr.skips j use (Nat.not_lt.mp hjl) hu
    have hi := (h.marked_canRelax he hm).1
    obtain ⟨hwas, hop⟩ := (h.relaxes_branch_iff he hi).mp hbr
    have hcur : b.widened.useOffset i = φ (b₀.useOffset i) := by
      have := h.useOffset_eq hi
      rw [hwas, formSlot, if_neg fun hc => hc.2 rfl, Nat.mul_zero, Nat.add_zero] at this
      exact this
    have hgap := h.useGap i hi
    rw [hwas] at hgap
    rw [hcur] at hoff hlab
    refine ⟨i, hi, hop, ?_, hoff, hadd, hname, ?_⟩
    · rw [nextForm, if_pos hm]
      exact formNext_ne_kept _ _
    · rw [hlab, hgap]
      rfl

theorem Relaxing.next_lines (hlen : b'.code.length < 2 ^ 32) :
    b'.lineTable = b₀.lineTable.map fun e =>
      { e with address := roundShift b.widened b.marked (φ e.address) } := by
  have hgrow : b'.code.length = roundShift b.widened b.marked (φ b₀.code.length) := by
    rw [hr.length, ← h.length]
    exact congrArg _ (h.tablesApart he).length_marks.2
  have hle : b.code.length ≤ b'.code.length := by
    rw [hgrow, h.length]
    exact le_shiftBy _ _ _
  rw [hr.lines]
  change b.lineTable.map _ = _
  rw [h.lines (by omega), List.map_map]
  apply List.map_congr_left
  intro e hmem
  have hbound : roundShift b.widened b.marked (φ e.address) ≤ b'.code.length := by
    rw [hgrow]
    exact (roundShift_strictMono _ _).monotone (h.mono.monotone (he.line e hmem))
  simp only [Function.comp, shiftLine]
  rw [Nat.mod_eq_of_lt (by omega)]

theorem Relaxing.next :
    Relaxing b₀ b' (roundShift b.widened b.marked ∘ φ) (nextForm b₀ b form) where
  mono := (roundShift_strictMono _ _).comp h.mono
  zero := by
    change roundShift b.widened b.marked (φ 0) = 0
    rw [h.zero, roundShift_zero]
  mod := fun off => by
    change roundShift b.widened b.marked (φ off) % 4 = off % 4
    rw [roundShift_mod, h.mod]
  length := by
    rw [hr.length, Function.comp, ← h.length]
    exact congrArg _ (h.tablesApart he).length_marks.2
  gap := fun off hoff hne => (h.shift_gap he hoff hne).2
  useGap := fun i hi => h.next_useGap he hi
  useWords := fun i hi k w hw => h.next_useWords he hr hi hw
  nearBranch := fun i hi hn => by
    unfold nextForm at hn
    split at hn
    · rename_i hm
      rcases (h.marked_canRelax he hm).2 with ⟨hb, -⟩ | ⟨hj, hk⟩
      · exact hb
      · rw [hk, formNext, if_neg (by rw [hj]; decide)] at hn
        cases hn
    · exact h.nearBranch i hi hn
  auipcKept := fun i hi ha => by
    unfold nextForm
    split
    · rename_i hm
      rcases (h.marked_canRelax he hm).2 with ⟨hb, -⟩ | ⟨hj, -⟩
      · exact absurd (ha.symm.trans hb) (by decide)
      · exact absurd (ha.symm.trans hj) (by decide)
    · exact h.auipcKept i hi ha
  word := fun off hoff hlen hne hd => h.next_frame he hr hoff hlen hne hd
  dispatch := fun t ht hc hw => h.next_dispatch he hr ht hc hw
  tableForm := fun t ht k hk => by
    have hc : 0 < t.count := by
      have := hk.1
      have := hk.2
      omega
    have hfirst : t.Holds t.firstUse := ⟨Nat.le_refl _, by omega⟩
    have hT := he.table t ht hc
    have hmk := h.marked_iff_overflows he ht hk
    have hmf := h.marked_iff_overflows he ht hfirst
    unfold nextForm
    rw [h.tableForm t ht k hk]
    by_cases ho : b.Overflows t
    · -- every entry is a JAL, so they all move on to the same form
      rw [if_pos (hmk.mpr ho), if_pos (hmf.mpr ho), (h.overflows_kept he ht ho).2, formNext, formNext,
        hT.jump_of_holds hk, hT.jump_of_holds hfirst]
    · rw [if_neg fun hm => ho (hmk.mp hm), if_neg fun hm => ho (hmf.mp hm)]
  uses := fun i use hu => h.next_uses he hr hu
  skipOf := fun i hi hop hf => h.next_skipOf he hr hi hop hf
  skips := fun j use hj hu => h.next_skips he hr hj hu
  names := fun id s hs => hr.names id s (h.names id s hs)
  labels := fun id hid => by
    rw [h.next_labels hr hid, Option.map_map]
  tables := hr.tables.trans h.tables
  functions := by
    rw [hr.functions]
    change b.functions.map _ = _
    rw [h.functions, List.map_map]
    rfl
  instanceInit := by
    rw [hr.instanceInit]
    change (if b.instanceInitOffset ≠ 0 then _ else _) = _
    have hi := h.instanceInit
    split
    · exact congrArg _ hi
    · rename_i hz
      have hz' : b.instanceInitOffset = 0 := by omega
      change b.instanceInitOffset = roundShift b.widened b.marked (φ b₀.instanceInitOffset)
      rw [← hi, hz', roundShift_zero]
  lines := fun hlen => h.next_lines he hr hlen

end

end

end Step

end Riscv
