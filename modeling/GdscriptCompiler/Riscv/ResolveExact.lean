import GdscriptCompiler.Riscv.PatchFields

/-!
# ResolveExact — when `resolve_labels` writes the displacement it was asked for

AUIPC/LD and AUIPC/ADDI pairs do not check their displacement.
-/

namespace Riscv

open Lib

/-! ## 1. One use -/

inductive UseShape where
  | branch
  | jal
  | jalr
  | load
  | addi
  deriving DecidableEq, Repr

namespace UseShape

def size : UseShape → Nat
  | .branch => 4
  | .jal => 4
  | .jalr => 8
  | .load => 8
  | .addi => 8

/-- The shape of an instruction word and the word behind it. -/
def of (instr next : Word) : Option UseShape :=
  if opcodeOf instr = opBranch then some .branch
  else if opcodeOf instr = opJal then some .jal
  else if opcodeOf instr = opAuipc then
    if opcodeOf next = opJalr then some .jalr
    else if opcodeOf next = opLoad then some .load
    else if opcodeOf next = opImm ∧ instrField next 15 0x1F = instrField instr 7 0x1F ∧
        instrField next 12 0x7 = 0 then some .addi
    else none
  else none

def decoded (instr next : Word) : UseShape → BitVec 64
  | .branch => immB instr
  | .jal => immJ instr
  | .jalr => immU instr + immI next
  | .load => immU instr + immI next
  | .addi => immU instr + immI next

/-- Register and function fields, before and after. -/
def SameFields (instr next instr' next' : Word) : UseShape → Prop
  | .branch => opcodeOf instr' = opcodeOf instr ∧ funct3Of instr' = funct3Of instr ∧
      rs1Of instr' = rs1Of instr ∧ rs2Of instr' = rs2Of instr
  | .jal => opcodeOf instr' = opcodeOf instr ∧ rdOf instr' = rdOf instr
  | _ => opcodeOf instr' = opcodeOf instr ∧ rdOf instr' = rdOf instr ∧
      opcodeOf next' = opcodeOf next ∧ rdOf next' = rdOf next ∧
      funct3Of next' = funct3Of next ∧ rs1Of next' = rs1Of next

/-- The check `resolve_labels` makes on a displacement. -/
def Accepts (d : BitVec 64) : UseShape → Prop
  | .branch => d &&& 1 = 0 ∧ fitsInSigned d.toInt bTypeImmBits = true
  | .jal => d &&& 1 = 0 ∧ fitsInSigned d.toInt jTypeImmBits = true
  | .jalr => d &&& 1 = 0 ∧ fitsInSigned d.toInt 32 = true ∧
      fitsInSigned (upperPart d).toInt 20 = true
  | .load => True
  | .addi => True

def patched (instr next : Word) (d : BitVec 64) : UseShape → Word × Word
  | .branch => (patchBranch instr d, next)
  | .jal => (patchJal instr d, next)
  | .jalr => (patchAuipc instr d, patchJalr next d)
  | .load => (patchAuipc instr d, patchLow opLoad next d)
  | .addi => (patchAuipc instr d, patchLow opImm next d)

end UseShape

variable {instr : Word} {d : BitVec 64}

theorem pair_decodes {next' : Word} (hlow : next'.extractLsb' 20 12 = d.extractLsb' 0 12) :
    immU (patchAuipc instr d) + immI next' = pairValue ((upperPart d).extractLsb' 0 20)
      (d.extractLsb' 0 12) := by
  unfold immU immI pairValue
  rw [imm_patchAuipc, hlow]

-- A displacement that fits with its upper part is one the pair reaches.
theorem inPairRange_of_fits (hfit : fitsInSigned d.toInt 32 = true)
    (hup : fitsInSigned (upperPart d).toInt 20 = true) :
    InPairRange d := by
  simp only [fitsInSigned, Bool.and_eq_true, decide_eq_true_eq] at hfit hup
  have hupper := toInt_upperPart (d := d) (by omega) (by omega)
  unfold InPairRange
  rw [hupper] at hup
  omega

def UseShape.Reads (instr next : Word) : UseShape → Prop
  | .branch => opcodeOf instr = opBranch
  | .jal => opcodeOf instr = opJal
  | .jalr => opcodeOf instr = opAuipc ∧ opcodeOf next = opJalr
  | .load => opcodeOf instr = opAuipc ∧ opcodeOf next = opLoad
  | .addi => opcodeOf instr = opAuipc ∧ opcodeOf next = opImm ∧
      instrField next 15 0x1F = instrField instr 7 0x1F ∧ instrField next 12 0x7 = 0

variable {shape : UseShape} {next : Word}

theorem UseShape.reads_of (h : UseShape.of instr next = some shape) : shape.Reads instr next := by
  unfold UseShape.of at h
  split at h
  · obtain rfl := Option.some.inj h
    assumption
  · split at h
    · obtain rfl := Option.some.inj h
      assumption
    · split at h
      · rename_i hauipc
        split at h
        · obtain rfl := Option.some.inj h
          exact ⟨hauipc, by assumption⟩
        · split at h
          · obtain rfl := Option.some.inj h
            exact ⟨hauipc, by assumption⟩
          · split at h
            · obtain rfl := Option.some.inj h
              exact ⟨hauipc, by assumption⟩
            · cases h
      · cases h

theorem patched_sameFields (d : BitVec 64) (h : UseShape.of instr next = some shape) :
    shape.SameFields instr next (shape.patched instr next d).1 (shape.patched instr next d).2 := by
  have hauipc := And.intro (opcodeOf_patchAuipc instr d) (rdOf_patchAuipc instr d)
  cases shape with
  | branch =>
    exact ⟨opcodeOf_patchBranch instr d, funct3Of_patchBranch instr d, rs1Of_patchBranch instr d,
      rs2Of_patchBranch instr d⟩
  | jal => exact ⟨opcodeOf_patchJal instr d, rdOf_patchJal instr d⟩
  | jalr => exact ⟨hauipc.1, hauipc.2, fields_of_low (low_patchJalr next d)⟩
  | load =>
    have hlow := low_patchLow next d
    rw [(UseShape.reads_of h).2] at hlow
    exact ⟨hauipc.1, hauipc.2, fields_of_low hlow⟩
  | addi =>
    have hlow := low_patchLow next d
    rw [(UseShape.reads_of h).2.1] at hlow
    exact ⟨hauipc.1, hauipc.2, fields_of_low hlow⟩

/-- An accepted use decodes to its displacement exactly if the two unchecked shapes are in range. -/
theorem decoded_patched_iff (instr next : Word) (hacc : shape.Accepts d) :
    shape.decoded (shape.patched instr next d).1 (shape.patched instr next d).2 = d ↔
      (shape = .load ∨ shape = .addi → InPairRange d) := by
  -- an unchecked pair decodes to some sum of immediates, so to `d` only when `d` is in range
  have hpair : ∀ next' : Word, next'.extractLsb' 20 12 = d.extractLsb' 0 12 →
      (immU (patchAuipc instr d) + immI next' = d ↔ InPairRange d) := by
    intro next' hlow
    rw [pair_decodes hlow]
    constructor
    · intro heq
      rw [← heq]
      exact inPairRange_pairValue _ _
    · exact pairValue_split
  cases shape with
  | branch =>
    have hexact := immB_patchBranch instr hacc.1 hacc.2
    simp [UseShape.decoded, UseShape.patched, hexact]
  | jal =>
    have hexact := immJ_patchJal instr hacc.1 hacc.2
    simp [UseShape.decoded, UseShape.patched, hexact]
  | jalr =>
    have hexact := (hpair _ (imm_patchJalr next d)).mpr (inPairRange_of_fits hacc.2.1 hacc.2.2)
    simp [UseShape.decoded, UseShape.patched, hexact]
  | load =>
    have hiff := hpair _ (imm_patchLow next d (Or.inl rfl))
    simp [UseShape.decoded, UseShape.patched, hiff]
  | addi =>
    have hiff := hpair _ (imm_patchLow next d (Or.inr rfl))
    simp [UseShape.decoded, UseShape.patched, hiff]

/-! ## 2. The loop -/

namespace CodeBuffer

/-- The shape of a use, read off the code as it was handed over. -/
def shapeOf (b : CodeBuffer) (use : LabelUse) : Option UseShape :=
  UseShape.of (loadWord b.code use.codeOffset) (loadWord b.code (use.codeOffset + 4))

/-- The bytes `resolve_labels` reads at a use. -/
def span (b : CodeBuffer) (use : LabelUse) : Nat :=
  if opcodeOf (loadWord b.code use.codeOffset) = opAuipc then 8 else 4

/-- No two uses share a byte. -/
structure Apart (b : CodeBuffer) : Prop where
  inside : ∀ use ∈ b.labelUses, use.codeOffset + b.span use ≤ b.code.length
  apart : b.labelUses.Pairwise fun u v =>
    u.codeOffset + b.span u ≤ v.codeOffset ∨ v.codeOffset + b.span v ≤ u.codeOffset

/-- The uses the emitter leaves: each on one of the five shapes, inside the code, and no two
patching a common byte. -/
structure Placed (b : CodeBuffer) : Prop where
  inside : ∀ use ∈ b.labelUses, ∃ shape, b.shapeOf use = some shape ∧
    use.codeOffset + shape.size ≤ b.code.length
  apart : b.labelUses.Pairwise fun u v => ∀ s t, b.shapeOf u = some s → b.shapeOf v = some t →
    u.codeOffset + s.size ≤ v.codeOffset ∨ v.codeOffset + t.size ≤ u.codeOffset

/-- A use that makes `resolve_labels` throw. -/
def Rejected (b : CodeBuffer) (use : LabelUse) : Prop :=
  match b.labelOffset use.label with
  | none => True
  | some target => ∃ shape, b.shapeOf use = some shape ∧ ¬ shape.Accepts (displacement target use)

/-- The use is resolved once the code is `code`. -/
def Resolved (b : CodeBuffer) (code : List Byte) (use : LabelUse) : Prop :=
  ∃ target shape, b.labelOffset use.label = some target ∧ b.shapeOf use = some shape ∧
    shape.decoded (loadWord code use.codeOffset) (loadWord code (use.codeOffset + 4)) =
      displacement target use ∧
    shape.SameFields (loadWord b.code use.codeOffset) (loadWord b.code (use.codeOffset + 4))
      (loadWord code use.codeOffset) (loadWord code (use.codeOffset + 4))

/-- The footprint of a use holds what the code did when it was handed over. -/
def Untouched (b : CodeBuffer) (code : List Byte) (use : LabelUse) : Prop :=
  loadWord code use.codeOffset = loadWord b.code use.codeOffset ∧
    (b.span use = 8 → loadWord code (use.codeOffset + 4) = loadWord b.code (use.codeOffset + 4))

end CodeBuffer

open CodeBuffer

theorem checkDisplacement_ok {what : String} {bits : Nat} :
    checkDisplacement what d bits = .ok () ↔ d &&& 1 = 0 ∧ fitsInSigned d.toInt bits = true := by
  unfold checkDisplacement
  by_cases hodd : d &&& 1 = 0
  · rw [if_neg fun h => h hodd]
    by_cases hfit : fitsInSigned d.toInt bits = true
    · rw [if_pos hfit]
      exact ⟨fun _ => ⟨hodd, hfit⟩, fun _ => rfl⟩
    · rw [if_neg hfit]
      exact ⟨fun h => (nomatch h), fun h => absurd h.2 hfit⟩
  · rw [if_pos hodd]
    exact ⟨fun h => (nomatch h), fun h => absurd h.1 hodd⟩

theorem checkImmediate_ok {what : String} {bits : Nat} :
    checkImmediate what d bits = .ok () ↔ fitsInSigned d.toInt bits = true := by
  unfold checkImmediate
  by_cases hfit : fitsInSigned d.toInt bits = true
  · simp [hfit]
  · simp [hfit]

-- An `Except` computation that does not answer `ok ()` throws.
theorem exists_error {x : Except String Unit} (h : x ≠ .ok ()) : ∃ e, x = .error e := by
  cases x with
  | error e => exact ⟨e, rfl⟩
  | ok u => exact absurd rfl h

/-- What a use leaves behind: its words, and everything else as it was. -/
structure PatchedAt (code code' : List Byte) (off size : Nat) (words : Word × Word) : Prop where
  length : code'.length = code.length
  first : loadWord code' off = words.1
  second : size = 8 → loadWord code' (off + 4) = words.2
  frame : ∀ p, p + 4 ≤ off ∨ off + size ≤ p → loadWord code' p = loadWord code p

variable {code : List Byte} {w v : Word} {off size : Nat}

theorem patchedAt_one (hsize : size = 4) (hin : off + size ≤ code.length) :
    PatchedAt code (storeWord code off w) off size (w, v) where
  length := storeWord_length _ _ _
  first := loadWord_storeWord_self _ _ _ (by omega)
  second := fun h => by omega
  frame := fun p hp => loadWord_storeWord_of_disjoint _ _ _ _ (by omega)

theorem patchedAt_pair (hsize : size = 8) (hin : off + size ≤ code.length) :
    PatchedAt code (storeWord (storeWord code off w) (off + 4) v) off size (w, v) where
  length := by rw [storeWord_length, storeWord_length]
  first := by
    rw [loadWord_storeWord_of_disjoint _ _ _ _ (by omega),
      loadWord_storeWord_self _ _ _ (by omega)]
  second := fun _ => loadWord_storeWord_self _ _ _ (by rw [storeWord_length]; omega)
  frame := fun p hp => by
    rw [loadWord_storeWord_of_disjoint _ _ _ _ (by omega),
      loadWord_storeWord_of_disjoint _ _ _ _ (by omega)]

theorem span_cases (b : CodeBuffer) (use : LabelUse) : b.span use = 4 ∨ b.span use = 8 := by
  unfold span
  split
  · exact .inr rfl
  · exact .inl rfl

theorem span_of_shapeOf {b : CodeBuffer} {use : LabelUse} (hs : b.shapeOf use = some shape) :
    b.span use = shape.size := by
  have hreads := UseShape.reads_of hs
  unfold span
  cases shape with
  | branch => rw [if_neg (by rw [show opcodeOf _ = opBranch from hreads]; decide)]; rfl
  | jal => rw [if_neg (by rw [show opcodeOf _ = opJal from hreads]; decide)]; rfl
  | jalr => exact if_pos hreads.1
  | load => exact if_pos hreads.1
  | addi => exact if_pos hreads.1

theorem CodeBuffer.Placed.toApart {b : CodeBuffer} (hb : b.Placed) : b.Apart where
  inside use hu := by
    obtain ⟨shape, hs, hin⟩ := hb.inside use hu
    rw [span_of_shapeOf hs]
    exact hin
  apart := by
    refine hb.apart.imp_of_mem fun {u v} hu hv h => ?_
    obtain ⟨s, hs, -⟩ := hb.inside u hu
    obtain ⟨t, ht, -⟩ := hb.inside v hv
    rw [span_of_shapeOf hs, span_of_shapeOf ht]
    exact h s t hs ht

section One

variable {b : CodeBuffer} {code : List Byte} {use : LabelUse} {target : Nat} {shape : UseShape}

theorem resolveUse_ok (hin : use.codeOffset + b.span use ≤ code.length)
    (hs : b.shapeOf use = some shape) (hun : b.Untouched code use)
    (hl : b.labelOffset use.label = some target) (hacc : shape.Accepts (displacement target use)) :
    ∃ code', b.resolveUse code use = .ok code' ∧ PatchedAt code code' use.codeOffset (b.span use)
      (shape.patched (loadWord b.code use.codeOffset) (loadWord b.code (use.codeOffset + 4))
        (displacement target use)) := by
  obtain ⟨hfirst, hsecond⟩ := hun
  rw [span_of_shapeOf hs] at hin hsecond ⊢
  have hreads := UseShape.reads_of hs
  have hjb : opJal ≠ opBranch := by decide
  have hab : opAuipc ≠ opBranch := by decide
  have haj : opAuipc ≠ opJal := by decide
  unfold resolveUse
  rw [hl, hfirst]
  dsimp only
  cases shape with
  | branch =>
    have hop : opcodeOf (loadWord b.code use.codeOffset) = opBranch := hreads
    rw [if_pos hop, checkDisplacement_ok.mpr hacc]
    exact ⟨_, rfl, patchedAt_one rfl hin⟩
  | jal =>
    have hop : opcodeOf (loadWord b.code use.codeOffset) = opJal := hreads
    rw [if_neg (by rw [hop]; exact hjb), if_pos hop, checkDisplacement_ok.mpr hacc]
    exact ⟨_, rfl, patchedAt_one rfl hin⟩
  | jalr =>
    obtain ⟨hop, hnext⟩ := hreads
    rw [if_neg (by rw [hop]; exact hab), if_neg (by rw [hop]; exact haj), if_pos hop, hsecond rfl,
      if_pos hnext, checkDisplacement_ok.mpr ⟨hacc.1, hacc.2.1⟩, checkImmediate_ok.mpr hacc.2.2]
    refine ⟨_, rfl, ?_⟩
    -- this path stores the second word first
    rw [storeWord_comm _ _ (by omega)]
    exact patchedAt_pair rfl hin
  | load =>
    obtain ⟨hop, hnext⟩ := hreads
    have hne : opLoad ≠ opJalr := by decide
    rw [if_neg (by rw [hop]; exact hab), if_neg (by rw [hop]; exact haj), if_pos hop, hsecond rfl,
      if_neg (by rw [hnext]; exact hne), if_pos hnext]
    exact ⟨_, rfl, patchedAt_pair rfl hin⟩
  | addi =>
    obtain ⟨hop, hnext, hregs⟩ := hreads
    have hne : opImm ≠ opJalr := by decide
    have hne' : opImm ≠ opLoad := by decide
    rw [if_neg (by rw [hop]; exact hab), if_neg (by rw [hop]; exact haj), if_pos hop, hsecond rfl,
      if_neg (by rw [hnext]; exact hne), if_neg (by rw [hnext]; exact hne'),
      if_pos ⟨hnext, hregs⟩]
    exact ⟨_, rfl, patchedAt_pair rfl hin⟩

-- A word, or an AUIPC with a word behind it, that has no label to take is stored back.
theorem resolveUse_other (hin : use.codeOffset + b.span use ≤ code.length)
    (hs : b.shapeOf use = none) (hun : b.Untouched code use)
    (hl : b.labelOffset use.label = some target) :
    ∃ code', b.resolveUse code use = .ok code' ∧ PatchedAt code code' use.codeOffset (b.span use)
      (loadWord b.code use.codeOffset, loadWord b.code (use.codeOffset + 4)) := by
  obtain ⟨hfirst, hsecond⟩ := hun
  have hspan := span_cases b use
  refine ⟨storeWord code use.codeOffset (loadWord b.code use.codeOffset), ?_,
    storeWord_length _ _ _, loadWord_storeWord_self _ _ _ (by omega), fun h8 => ?_, fun p hp => ?_⟩
  · unfold shapeOf UseShape.of at hs
    unfold resolveUse
    rw [hl, hfirst]
    dsimp only
    split at hs
    · cases hs
    · split at hs
      · cases hs
      · rw [if_neg (by assumption), if_neg (by assumption)]
        split at hs
        · rename_i hauipc
          rw [if_pos hauipc, hsecond (if_pos hauipc)]
          split at hs
          · cases hs
          · split at hs
            · cases hs
            · split at hs
              · cases hs
              · rw [if_neg (by assumption), if_neg (by assumption), if_neg (by assumption)]
        · rw [if_neg (by assumption)]
  · rw [loadWord_storeWord_of_disjoint _ _ _ _ (by omega)]
    exact hsecond h8
  · exact loadWord_storeWord_of_disjoint _ _ _ _ (by omega)

theorem resolveUse_error (hun : b.Untouched code use) (hrej : b.Rejected use) :
    ∃ e, b.resolveUse code use = .error e := by
  unfold Rejected at hrej
  unfold resolveUse
  cases hl : b.labelOffset use.label with
  | none => exact ⟨_, rfl⟩
  | some target =>
    rw [hl] at hrej
    obtain ⟨shape, hs, hnot⟩ := hrej
    obtain ⟨hfirst, hsecond⟩ := hun
    rw [span_of_shapeOf hs] at hsecond
    have hreads := UseShape.reads_of hs
    have hjb : opJal ≠ opBranch := by decide
    have hab : opAuipc ≠ opBranch := by decide
    have haj : opAuipc ≠ opJal := by decide
    dsimp only
    rw [hfirst]
    cases shape with
    | branch =>
      have hop : opcodeOf (loadWord b.code use.codeOffset) = opBranch := hreads
      obtain ⟨e, he⟩ := exists_error (mt checkDisplacement_ok.mp hnot)
      rw [if_pos hop, he]
      exact ⟨e, rfl⟩
    | jal =>
      have hop : opcodeOf (loadWord b.code use.codeOffset) = opJal := hreads
      obtain ⟨e, he⟩ := exists_error (mt checkDisplacement_ok.mp hnot)
      rw [if_neg (by rw [hop]; exact hjb), if_pos hop, he]
      exact ⟨e, rfl⟩
    | jalr =>
      obtain ⟨hop, hnext⟩ := hreads
      rw [if_neg (by rw [hop]; exact hab), if_neg (by rw [hop]; exact haj), if_pos hop,
        hsecond rfl, if_pos hnext]
      by_cases hdisp : displacement target use &&& 1 = 0 ∧
        fitsInSigned (displacement target use).toInt 32 = true
      · have hup : ¬ fitsInSigned (upperPart (displacement target use)).toInt 20 = true :=
          fun h => hnot ⟨hdisp.1, hdisp.2, h⟩
        obtain ⟨e, he⟩ := exists_error (mt checkImmediate_ok.mp hup)
        rw [checkDisplacement_ok.mpr hdisp, he]
        exact ⟨e, rfl⟩
      · obtain ⟨e, he⟩ := exists_error (mt checkDisplacement_ok.mp hdisp)
        rw [he]
        exact ⟨e, rfl⟩
    | load => exact absurd trivial hnot
    | addi => exact absurd trivial hnot

end One

/-- A use that went through: its label and shape are there, and its words are the patched ones. -/
def CodeBuffer.PatchedUse (b : CodeBuffer) (code : List Byte) (use : LabelUse) : Prop :=
  ∃ target shape, b.labelOffset use.label = some target ∧ b.shapeOf use = some shape ∧
    shape.Accepts (displacement target use) ∧
    loadWord code use.codeOffset = (shape.patched (loadWord b.code use.codeOffset)
      (loadWord b.code (use.codeOffset + 4)) (displacement target use)).1 ∧
    (shape.size = 8 → loadWord code (use.codeOffset + 4) = (shape.patched
      (loadWord b.code use.codeOffset) (loadWord b.code (use.codeOffset + 4))
      (displacement target use)).2)

/-- The word at `p` belongs to no use of the list. -/
def CodeBuffer.Outside (b : CodeBuffer) (uses : List LabelUse) (p : Nat) : Prop :=
  ∀ use ∈ uses, p + 4 ≤ use.codeOffset ∨ use.codeOffset + b.span use ≤ p

variable {use : LabelUse} {words : Word × Word}

section Loop

variable {b : CodeBuffer}

/-- What the uses still to come need of the code: they lie inside it, apart from each other, and
nothing has written to them. -/
structure Pending (b : CodeBuffer) (code : List Byte) (uses : List LabelUse) : Prop where
  inside : ∀ use ∈ uses, use.codeOffset + b.span use ≤ code.length
  apart : uses.Pairwise fun u v =>
    u.codeOffset + b.span u ≤ v.codeOffset ∨ v.codeOffset + b.span v ≤ u.codeOffset
  untouched : ∀ use ∈ uses, b.Untouched code use

theorem Pending.start (hb : b.Apart) : Pending b b.code b.labelUses where
  inside := hb.inside
  apart := hb.apart
  untouched := fun _ _ => ⟨rfl, fun _ => rfl⟩

-- Patching the first use leaves the others as they were.
theorem Pending.tail {code' : List Byte} {uses : List LabelUse} (h : Pending b code (use :: uses))
    (hp : PatchedAt code code' use.codeOffset (b.span use) words) :
    Pending b code' uses where
  inside := fun u hu => by
    rw [hp.length]
    exact h.inside u (List.mem_cons_of_mem _ hu)
  apart := (List.pairwise_cons.mp h.apart).2
  untouched := fun u hu => by
    have hapart := (List.pairwise_cons.mp h.apart).1 u hu
    obtain ⟨hfirst, hsecond⟩ := h.untouched u (List.mem_cons_of_mem _ hu)
    have hspan := span_cases b u
    constructor
    · rw [hp.frame _ (by omega)]
      exact hfirst
    · intro hsize
      rw [hp.frame _ (by omega)]
      exact hsecond hsize

/-- What `resolve_labels` does to a use it does not reject. -/
theorem resolveUse_accepted (hin : use.codeOffset + b.span use ≤ code.length)
    (hun : b.Untouched code use) (hnot : ¬ b.Rejected use) :
    ∃ code' words, b.resolveUse code use = .ok code' ∧
      PatchedAt code code' use.codeOffset (b.span use) words ∧
      ∀ shape, b.shapeOf use = some shape → ∃ target, b.labelOffset use.label = some target ∧
        shape.Accepts (displacement target use) ∧ words = shape.patched
          (loadWord b.code use.codeOffset) (loadWord b.code (use.codeOffset + 4))
          (displacement target use) := by
  unfold Rejected at hnot
  cases hl : b.labelOffset use.label with
  | none =>
    rw [hl] at hnot
    exact absurd trivial hnot
  | some target =>
    rw [hl] at hnot
    cases hs : b.shapeOf use with
    | none =>
      obtain ⟨code', hcode', hp⟩ := resolveUse_other hin hs hun hl
      exact ⟨code', _, hcode', hp, nofun⟩
    | some shape =>
      have hacc : shape.Accepts (displacement target use) := by
        by_contra hno
        exact hnot ⟨shape, hs, hno⟩
      obtain ⟨code', hcode', hp⟩ := resolveUse_ok hin hs hun hl hacc
      refine ⟨code', _, hcode', hp, fun shape' hs' => ?_⟩
      obtain rfl := Option.some.inj hs'
      exact ⟨target, rfl, hacc, rfl⟩

theorem resolve_ok (uses : List LabelUse) :
    ∀ code, Pending b code uses → (∀ use ∈ uses, ¬ b.Rejected use) →
      ∃ code', uses.foldlM b.resolveUse code = .ok code' ∧
      (∀ use ∈ uses, ∀ shape, b.shapeOf use = some shape → b.PatchedUse code' use) ∧
      code'.length = code.length ∧ ∀ p, b.Outside uses p → loadWord code' p = loadWord code p := by
  induction uses with
  | nil => exact fun code _ _ => ⟨code, rfl, by simp, rfl, fun _ _ => rfl⟩
  | cons use uses ih =>
    intro code hpend hnot
    obtain ⟨mid, words, hmid, hp, hwords⟩ := resolveUse_accepted (hpend.inside use List.mem_cons_self)
      (hpend.untouched use List.mem_cons_self) (hnot use List.mem_cons_self)
    obtain ⟨code', hcode', hrest, hlength, hframe⟩ := ih mid (hpend.tail hp)
      (fun u hu => hnot u (List.mem_cons_of_mem _ hu))
    refine ⟨code', by rw [List.foldlM_cons, hmid]; exact hcode', ?_, hlength.trans hp.length, ?_⟩
    · -- the later uses are apart from this one, so its words are still there at the end
      have hout : ∀ p, use.codeOffset ≤ p → p + 4 ≤ use.codeOffset + b.span use →
          b.Outside uses p := by
        intro p hlo hhi u hu
        have hapart := (List.pairwise_cons.mp hpend.apart).1 u hu
        omega
      have hspan := span_cases b use
      rw [List.forall_mem_cons]
      refine ⟨fun shape hs => ?_, hrest⟩
      obtain ⟨target, hl, hacc, rfl⟩ := hwords shape hs
      refine ⟨target, shape, hl, hs, hacc, ?_, fun hsize => ?_⟩
      · rw [hframe _ (hout _ (by omega) (by omega))]
        exact hp.first
      · rw [← span_of_shapeOf hs] at hsize
        rw [hframe _ (hout _ (by omega) (by omega))]
        exact hp.second hsize
    · intro p hp'
      obtain ⟨huse, huses⟩ := List.forall_mem_cons.mp hp'
      rw [hframe p huses]
      exact hp.frame p huse

theorem resolve_error (uses : List LabelUse) :
    ∀ code, Pending b code uses →
      (∃ use ∈ uses, b.Rejected use) → ∃ e, uses.foldlM b.resolveUse code = .error e := by
  induction uses with
  | nil => exact fun code _ h => absurd h (by simp)
  | cons use uses ih =>
    intro code hpend hrej
    have hun := hpend.untouched use List.mem_cons_self
    rw [List.foldlM_cons]
    by_cases hhead : b.Rejected use
    · obtain ⟨e, he⟩ := resolveUse_error hun hhead
      exact ⟨e, by rw [he]; rfl⟩
    · obtain ⟨mid, words, hmid, hp, -⟩ :=
        resolveUse_accepted (hpend.inside use List.mem_cons_self) hun hhead
      have htail : ∃ use ∈ uses, b.Rejected use := by
        obtain ⟨u, hu, hurej⟩ := hrej
        rcases List.mem_cons.mp hu with rfl | hu
        · exact absurd hurej hhead
        · exact ⟨u, hu, hurej⟩
      obtain ⟨e, he⟩ := ih mid (hpend.tail hp) htail
      exact ⟨e, by rw [hmid]; exact he⟩

end Loop

/-! ## 3. Exactness -/

/-- The condition the two unchecked shapes leave to their input. -/
def CodeBuffer.InReach (b : CodeBuffer) (use : LabelUse) : Prop :=
  ∀ target, b.labelOffset use.label = some target →
    b.shapeOf use = some .load ∨ b.shapeOf use = some .addi → InPairRange (displacement target use)

-- A four-byte shape is decoded, and compared, without its second word.
theorem decoded_of_words (hw : w = words.1) (hv : shape.size = 8 → v = words.2) :
    shape.decoded w v = shape.decoded words.1 words.2 := by
  subst hw
  cases shape with
  | branch => rfl
  | jal => rfl
  | jalr => rw [hv rfl]
  | load => rw [hv rfl]
  | addi => rw [hv rfl]

theorem sameFields_of_words (hw : w = words.1) (hv : shape.size = 8 → v = words.2)
    (h : shape.SameFields instr next words.1 words.2) :
    shape.SameFields instr next w v := by
  subst hw
  cases shape with
  | branch => exact h
  | jal => exact h
  | jalr => rw [hv rfl]; exact h
  | load => rw [hv rfl]; exact h
  | addi => rw [hv rfl]; exact h

/-- A use that went through is exact when it is in reach, and only then. -/
theorem PatchedUse.resolved_iff {b : CodeBuffer} (h : b.PatchedUse code use) :
    b.Resolved code use ↔ b.InReach use := by
  obtain ⟨target, shape, hl, hs, hacc, hw, hv⟩ := h
  have hexact := decoded_patched_iff (loadWord b.code use.codeOffset)
    (loadWord b.code (use.codeOffset + 4)) hacc
  constructor
  · rintro ⟨target', shape', hl', hs', hdec, -⟩ t ht hlow
    obtain rfl := Option.some.inj (hl.symm.trans hl')
    obtain rfl := Option.some.inj (hl.symm.trans ht)
    obtain rfl := Option.some.inj (hs.symm.trans hs')
    rw [decoded_of_words hw hv] at hdec
    apply hexact.mp hdec
    rw [hs] at hlow
    exact hlow.imp Option.some.inj Option.some.inj
  · intro hreach
    refine ⟨target, shape, hl, hs, ?_, sameFields_of_words hw hv (patched_sameFields _ hs)⟩
    rw [decoded_of_words hw hv]
    apply hexact.mpr
    rintro (rfl | rfl)
    · exact hreach target hl (Or.inl hs)
    · exact hreach target hl (Or.inr hs)

/-- With uses that share no byte, `resolve_labels` is exact, or throws, on just those inputs where
some use is rejected, or each is on one of the five shapes and the AUIPC/LD and AUIPC/ADDI pairs are
in reach. -/
theorem resolveLabels_exact_iff {b : CodeBuffer} (hb : b.Apart) :
    (∀ b', b.resolveLabels = .ok b' → ∀ use ∈ b.labelUses, b.Resolved b'.code use) ↔
      (∃ use ∈ b.labelUses, b.Rejected use) ∨
        ∀ use ∈ b.labelUses, (∃ shape, b.shapeOf use = some shape) ∧ b.InReach use := by
  by_cases hrej : ∃ use ∈ b.labelUses, b.Rejected use
  · obtain ⟨e, he⟩ := resolve_error b.labelUses b.code (Pending.start hb) hrej
    have hthrows : b.resolveLabels = .error e := by
      unfold resolveLabels
      rw [he]
      rfl
    constructor
    · exact fun _ => Or.inl hrej
    · intro _ b' hb'
      rw [hthrows] at hb'
      cases hb'
  · have hnot : ∀ use ∈ b.labelUses, ¬ b.Rejected use := fun use hu h => hrej ⟨use, hu, h⟩
    obtain ⟨code', hcode', hpatched, -⟩ := resolve_ok b.labelUses b.code (Pending.start hb) hnot
    have hok : b.resolveLabels = .ok { b with code := code' } := by
      unfold resolveLabels
      rw [hcode']
      rfl
    constructor
    · intro hexact
      right
      intro use hu
      have hresolved := hexact _ hok use hu
      obtain ⟨-, shape, -, hs, -⟩ := id hresolved
      exact ⟨⟨shape, hs⟩, (PatchedUse.resolved_iff (hpatched use hu shape hs)).mp hresolved⟩
    · intro hor b' hb' use hu
      rw [hok] at hb'
      obtain rfl := Except.ok.inj hb'
      obtain ⟨⟨shape, hs⟩, hreach⟩ := hor.resolve_left hrej use hu
      exact (PatchedUse.resolved_iff (hpatched use hu shape hs)).mpr hreach

/-- `auipc t0, 0; addi t0, t0, 0` on a label, as `emit_la` leaves it. -/
def addressBuffer (target : Nat) : CodeBuffer where
  code := wordBytes 0x00000297 ++ wordBytes 0x00028293
  labelNames := ⟨[".const_0"], by decide⟩
  labelOffsets := [some target]
  labelUses := [⟨0, 0, 0⟩]
  denseJumpTables := []
  functions := []
  instanceInitOffset := 0
  lineTable := []

theorem addressBuffer_shapeOf (target : Nat) :
    (addressBuffer target).shapeOf ⟨0, 0, 0⟩ = some .addi := by
  change UseShape.of (loadWord (wordBytes 0x00000297 ++ wordBytes 0x00028293) 0)
    (loadWord (wordBytes 0x00000297 ++ wordBytes 0x00028293) 4) = _
  decide

theorem addressBuffer_apart (target : Nat) : (addressBuffer target).Apart where
  inside := by
    intro use hu
    rw [List.mem_singleton.mp hu, span_of_shapeOf (addressBuffer_shapeOf target)]
    exact Nat.le_refl 8
  apart := List.pairwise_singleton _ _

theorem resolveLabels_exact_iff_near :
    ∃ b', (addressBuffer 4096).resolveLabels = .ok b' ∧
      (addressBuffer 4096).Resolved b'.code ⟨0, 0, 0⟩ := by
  refine ⟨_, rfl, (resolveLabels_exact_iff (addressBuffer_apart 4096)).mpr
    (.inr fun use hu => ?_) _ rfl _ List.mem_cons_self⟩
  obtain rfl := List.mem_singleton.mp hu
  refine ⟨⟨.addi, addressBuffer_shapeOf 4096⟩, fun target ht _ => ?_⟩
  obtain rfl := Option.some.inj ht
  unfold InPairRange
  decide

-- 2 GiB away the upper half wraps to the lowest AUIPC immediate, and nothing is thrown.
theorem addressBuffer_far :
    ∃ b', (addressBuffer (2 ^ 31)).resolveLabels = .ok b' ∧
      ¬ (addressBuffer (2 ^ 31)).Resolved b'.code ⟨0, 0, 0⟩ := by
  refine ⟨_, rfl, ?_⟩
  rintro ⟨target, shape, hl, hs, hdec, -⟩
  obtain rfl := Option.some.inj hl
  obtain rfl := Option.some.inj ((addressBuffer_shapeOf _).symm.trans hs)
  revert hdec
  decide

end Riscv
