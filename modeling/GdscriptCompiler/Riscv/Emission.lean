import GdscriptCompiler.Riscv.RelaxInvariant
import GdscriptCompiler.Riscv.ResolveExact
import Mathlib.Data.List.Nodup

/-!
# Emission — how `generate` builds the code that `relax_branches` gets

Every label use is marked at the word about to be emitted, and every word is appended.
-/

namespace Riscv

open Lib Ir

/-! ## 1. The primitives -/

/-- A name `generate` gives to a label; the skip labels are relaxation's own. -/
structure LabelName where
  name : String
  notSkip : ∀ k, name ≠ skipLabel k

-- `auipc rd, 0`, `addi rd, rd, 0` and `ld rd, 0(rd)`
def auipcWord (rd : BitVec 5) : Word := opAuipc ||| (rd.setWidth 32 <<< 7)

def addiWord (rd : BitVec 5) : Word := opImm ||| (rd.setWidth 32 <<< 7) ||| (rd.setWidth 32 <<< 15)

def ldWord (rd : BitVec 5) : Word :=
  opLoad ||| (rd.setWidth 32 <<< 7) ||| ((3 : Word) <<< 12) ||| (rd.setWidth 32 <<< 15)

/-- A call of one of the primitives `generate` and what it calls are made of. -/
inductive Emission where
  -- an instruction without a label
  | word (w : Word) (h : opcodeOf w ≠ opBranch ∧ opcodeOf w ≠ opJal)
  -- `mark_label_use(label, m_code.size())`, and the branch or JAL it is for
  | jump (label : LabelName) (w : Word) (h : opcodeOf w = opBranch ∨ opcodeOf w = opJal)
  | la (rd : BitVec 5) (label : LabelName) (addend : Int)
  -- the constant-pool end of `emit_li`
  | poolLoad (rd : BitVec 5) (label : LabelName)
  -- `emit_dense_jump_table` from its AUIPC on
  | denseJumpTable (index : BitVec 5) (labels : List LabelName)
  | defineLabel (label : LabelName)
  | function (name : String)
  | instanceInit
  | recordLine (line : Nat) (force : Bool)

namespace CodeBuffer

variable (b : CodeBuffer)

def emitWord (w : Word) : CodeBuffer := { b with code := b.code ++ wordBytes w }

-- `mark_label_use(label, m_code.size(), addend)`
def markHere (label : String) (addend : Int) : CodeBuffer :=
  let (named, id) := b.labelId label
  named.markLabelUse id b.code.length addend

def emitEntry (label : LabelName) : CodeBuffer := (b.markHere label.name 0).emitWord opJal

/-- `record_line`; a negative line records nothing. A row at the address of the last one replaces
its line, and two rows of one line become one. -/
def recordLine (line : Nat) (force : Bool) : CodeBuffer :=
  if line = 0 ∧ force = false then b
  else
    let address := b.code.length % 2 ^ 32
    match b.lineTable.reverse with
    | [] => { b with lineTable := [⟨address, line⟩] }
    | last :: rest =>
      if last.address = address then
        match rest with
        | before :: _ =>
          if before.line = line then { b with lineTable := rest.reverse }
          else { b with lineTable := (⟨address, line⟩ :: rest).reverse }
        | [] => { b with lineTable := [⟨address, line⟩] }
      else if last.line = line then b
      else { b with lineTable := b.lineTable ++ [⟨address, line⟩] }

def emit : Emission → CodeBuffer
  | .word w _ => b.emitWord w
  | .jump label w _ => (b.markHere label.name 0).emitWord w
  | .la rd label addend =>
    ((b.markHere label.name addend).emitWord (auipcWord rd)).emitWord (addiWord rd)
  | .poolLoad rd label => ((b.markHere label.name 0).emitWord (auipcWord rd)).emitWord (ldWord rd)
  | .denseJumpTable index labels =>
    let led := ((b.emitWord auipcTable).emitWord (shAdd 4 index)).emitWord jalrTable
    labels.foldl emitEntry { led with
      denseJumpTables := led.denseJumpTables ++ [⟨led.labelUses.length, labels.length⟩] }
  | .defineLabel label =>
    let (named, id) := b.labelId label.name
    named.setLabel id b.code.length
  | .function name =>
    { b with functions := (b.functions.filter fun f => f.1 ≠ name) ++ [(name, b.code.length)] }
  | .instanceInit => { b with instanceInitOffset := b.code.length }
  | .recordLine line force => b.recordLine line force

/-- The fast exit, STOP and a jump back onto it, with the program's names in the label table. -/
def fastExit (strings : StringTable) : CodeBuffer where
  code := wordBytes 0x7FF00073 ++ wordBytes 0xFFDFF06F
  labelNames := strings
  labelOffsets := strings.names.map fun _ => none
  labelUses := []
  denseJumpTables := []
  functions := []
  instanceInitOffset := 0
  lineTable := []

/-- The buffer as `generate` hands it to `relax_branches`. -/
def generated (strings : StringTable) (emissions : List Emission) : CodeBuffer :=
  emissions.foldl emit (fastExit strings)

end CodeBuffer

/-! ## 2. What the code looks like at any time -/

/-- A label use with what was emitted behind it. -/
inductive LaidUse (b : CodeBuffer) (use : LabelUse) : Prop where
  | jump (hop : opcodeOf (loadWord b.code use.codeOffset) = opBranch ∨
      opcodeOf (loadWord b.code use.codeOffset) = opJal) (haddend : use.addend = 0)
      (hin : use.codeOffset + 4 ≤ b.code.length)
  | pair (rd : BitVec 5) (hauipc : loadWord b.code use.codeOffset = auipcWord rd)
      (hlow : loadWord b.code (use.codeOffset + 4) = addiWord rd ∨
        loadWord b.code (use.codeOffset + 4) = ldWord rd)
      (hin : use.codeOffset + 8 ≤ b.code.length)
      (halone : ∀ other ∈ b.labelUses, other.codeOffset ≠ use.codeOffset + 4)

structure Laid (b : CodeBuffer) : Prop where
  words : b.code.length % 4 = 0
  started : 8 ≤ b.code.length
  exit : loadWord b.code 0 = 0x7FF00073 ∧ loadWord b.code 4 = 0xFFDFF06F
  distinct : (b.labelUses.map LabelUse.codeOffset).Nodup
  aligned : ∀ use ∈ b.labelUses, use.codeOffset % 4 = 0 ∧ 8 ≤ use.codeOffset
  uses : ∀ use ∈ b.labelUses, LaidUse b use
  named : ∀ use ∈ b.labelUses, b.NamedLabel use.label
  label : ∀ id off, b.labelOffset id = some off →
    off % 4 = 0 ∧ off ≤ b.code.length ∧ b.NamedLabel id
  plain : ∀ off, off % 4 = 0 → 8 ≤ off → off + 4 ≤ b.code.length →
    (∀ use ∈ b.labelUses, off ≠ use.codeOffset) →
    opcodeOf (loadWord b.code off) ≠ opBranch ∧ opcodeOf (loadWord b.code off) ≠ opJal
  tables : ∀ t ∈ b.denseJumpTables,
    t.firstUse + t.count ≤ b.labelUses.length ∧ (0 < t.count → TableEmitted b t)
  tableApart : b.denseJumpTables.Pairwise DenseJumpTable.Apart
  line : ∀ e ∈ b.lineTable, e.address ≤ b.code.length

theorem LaidUse.inside {b : CodeBuffer} {use : LabelUse} (h : LaidUse b use) :
    use.codeOffset + 4 ≤ b.code.length := by
  cases h with
  | jump _ _ hin => exact hin
  | pair _ _ _ hin _ => omega

theorem opcodeOf_auipcWord (rd : BitVec 5) : opcodeOf (auipcWord rd) = opAuipc := by
  revert rd
  decide

theorem UseShape.of_la (rd : BitVec 5) : UseShape.of (auipcWord rd) (addiWord rd) = some .addi := by
  revert rd
  decide

theorem UseShape.of_poolLoad (rd : BitVec 5) :
    UseShape.of (auipcWord rd) (ldWord rd) = some .load := by
  revert rd
  decide

theorem opcodeOf_low (rd : BitVec 5) :
    opcodeOf (addiWord rd) = opImm ∧ opcodeOf (ldWord rd) = opLoad := by
  revert rd
  decide

variable {b b' : CodeBuffer}

theorem useOffset_mem {i : Nat} (hi : i < b.labelUses.length) :
    ∃ use ∈ b.labelUses, b.useOffset i = use.codeOffset :=
  ⟨b.labelUses[i], List.getElem_mem hi, useOffset_of_get (List.getElem?_eq_getElem hi)⟩

theorem Laid.useOffset_inj (h : Laid b) {i j : Nat} (hi : i < b.labelUses.length)
    (hj : j < b.labelUses.length) (heq : b.useOffset i = b.useOffset j) :
    i = j := by
  rw [useOffset_of_get (List.getElem?_eq_getElem hi),
    useOffset_of_get (List.getElem?_eq_getElem hj)] at heq
  have hi' : i < (b.labelUses.map LabelUse.codeOffset).length := by rwa [List.length_map]
  have hj' : j < (b.labelUses.map LabelUse.codeOffset).length := by rwa [List.length_map]
  refine h.distinct.getElem_inj_iff.mp
    (?_ : (b.labelUses.map LabelUse.codeOffset)[i] = (b.labelUses.map LabelUse.codeOffset)[j])
  rw [List.getElem_map, List.getElem_map]
  exact heq

/-- What is laid is what `relax_branches` relies on. -/
theorem Laid.emitted (h : Laid b) : Emitted b where
  words := h.words
  aligned i hi := by
    obtain ⟨use, hmem, heq⟩ := useOffset_mem hi
    rw [heq]
    exact (h.aligned use hmem).1
  inside i hi := by
    obtain ⟨use, hmem, heq⟩ := useOffset_mem hi
    rw [heq]
    exact (h.uses use hmem).inside
  distinct i hi j hj := h.useOffset_inj hi hj
  opcode i hi := by
    obtain ⟨use, hmem, heq⟩ := useOffset_mem hi
    unfold CodeBuffer.useWord
    rw [heq]
    cases h.uses use hmem with
    | jump hop _ _ => exact hop.imp_right .inl
    | pair rd hauipc _ _ _ =>
      rw [hauipc, opcodeOf_auipcWord]
      exact .inr (.inr rfl)
  addend i use hu hop := by
    unfold CodeBuffer.useWord at hop
    rw [useOffset_of_get hu] at hop
    cases h.uses use (List.mem_of_getElem? hu) with
    | jump _ haddend _ => exact haddend
    | pair rd hauipc _ _ _ =>
      rw [hauipc, opcodeOf_auipcWord] at hop
      exact absurd rfl hop
  pair i hi hop := by
    obtain ⟨use, hmem, heq⟩ := useOffset_mem hi
    unfold CodeBuffer.useWord at hop
    rw [heq] at hop ⊢
    cases h.uses use hmem with
    | jump hjump _ _ =>
      rw [hop] at hjump
      exact absurd hjump (by decide)
    | pair rd _ hlow hin halone =>
      refine ⟨hin, ?_, fun j hj => ?_⟩
      · rcases hlow with hlow | hlow
        · rw [hlow, (opcodeOf_low rd).1]
          decide
        · rw [hlow, (opcodeOf_low rd).2]
          decide
      · obtain ⟨other, hother, hoff⟩ := useOffset_mem hj
        rw [hoff]
        exact halone other hother
  named := h.named
  label := h.label
  tableRange t ht := (h.tables t ht).1
  tableApart := h.tableApart
  table t ht := (h.tables t ht).2
  fixed off hal hin hne := by
    by_cases hlow : off < 8
    · obtain rfl | rfl : off = 0 ∨ off = 4 := by omega
      · rw [h.exit.1]
        decide
      · rw [h.exit.2]
        decide
    · have hplain := h.plain off hal (by omega) hin fun use hmem heq => by
        obtain ⟨i, hi, hget⟩ := List.getElem_of_mem hmem
        exact hne i hi (by rw [useOffset_of_get (List.getElem?_eq_some_iff.mpr ⟨hi, hget⟩), heq])
      exact ⟨hplain.1, fun hop => absurd hop hplain.2⟩
  entryWord i hi := by
    obtain ⟨use, hmem, heq⟩ := useOffset_mem hi
    have := (h.aligned use hmem).2
    omega
  line := h.line

theorem LaidUse.shape {use : LabelUse} (h : LaidUse b use) :
    ∃ shape, b.shapeOf use = some shape ∧ use.codeOffset + shape.size ≤ b.code.length ∧
      (shape.size = 8 → ∀ other ∈ b.labelUses, other.codeOffset ≠ use.codeOffset + 4) := by
  unfold CodeBuffer.shapeOf
  cases h with
  | jump hop _ hin =>
    rcases hop with hop | hop
    · refine ⟨.branch, ?_, hin, nofun⟩
      rw [UseShape.of, if_pos hop]
    · refine ⟨.jal, ?_, hin, nofun⟩
      rw [UseShape.of, if_neg (by rw [hop]; decide), if_pos hop]
  | pair rd hauipc hlow hin halone =>
    rw [hauipc]
    rcases hlow with hlow | hlow
    · rw [hlow, UseShape.of_la]
      exact ⟨.addi, rfl, hin, fun _ => halone⟩
    · rw [hlow, UseShape.of_poolLoad]
      exact ⟨.load, rfl, hin, fun _ => halone⟩

theorem UseShape.size_cases (shape : UseShape) : shape.size = 4 ∨ shape.size = 8 := by
  cases shape <;> decide

/-- What is laid is what `resolve_labels` relies on. -/
theorem Laid.placed (h : Laid b) : b.Placed where
  inside use hmem := by
    obtain ⟨shape, hs, hin, -⟩ := (h.uses use hmem).shape
    exact ⟨shape, hs, hin⟩
  apart := by
    refine (List.pairwise_map.mp h.distinct).imp_of_mem fun {u v} hu hv hne s t hs ht => ?_
    obtain ⟨s', hs', -, hu8⟩ := (h.uses u hu).shape
    obtain ⟨t', ht', -, hv8⟩ := (h.uses v hv).shape
    obtain rfl := Option.some.inj (hs.symm.trans hs')
    obtain rfl := Option.some.inj (ht.symm.trans ht')
    have hualigned := (h.aligned u hu).1
    have hvaligned := (h.aligned v hv).1
    have hsize := s.size_cases
    have hsize' := t.size_cases
    have hafter := fun h8 => hu8 h8 v hv
    have hbefore := fun h8 => hv8 h8 u hu
    omega

/-! ## 3. What an emission appends -/

theorem loadWord_flatMap {ws : List Word} {k : Nat} {w : Word} (hk : ws[k]? = some w)
    (code : List Byte) :
    loadWord (code ++ ws.flatMap wordBytes) (code.length + 4 * k) = w := by
  induction ws generalizing code k with
  | nil => cases hk
  | cons v ws ih =>
    rw [List.flatMap_cons]
    cases k with
    | zero =>
      cases hk
      refine loadWord_of_wordBytes fun i hi => ?_
      rw [List.getElem?_append_right (by omega),
        List.getElem?_append_left (by rw [wordBytes_length]; omega)]
      congr 1
      omega
    | succ k =>
      have hnext := ih hk (code ++ wordBytes v)
      rw [List.append_assoc, List.length_append, wordBytes_length] at hnext
      rw [← hnext]
      congr 1
      omega

theorem length_flatMap_wordBytes (ws : List Word) :
    (ws.flatMap wordBytes).length = 4 * ws.length := by
  rw [List.length_flatMap]
  simp [Nat.mul_comm]

/-- `b'` is `b` with words appended, and with uses on these words only. -/
structure Grows (b b' : CodeBuffer) : Prop where
  code : b.code <+: b'.code
  uses : ∃ new, b'.labelUses = b.labelUses ++ new ∧ ∀ use ∈ new, b.code.length ≤ use.codeOffset
  names : b.labelNames.Extends b'.labelNames

namespace Grows

variable (h : Grows b b')
include h

theorem length_le : b.code.length ≤ b'.code.length := h.code.length_le

theorem word {off : Nat} (hin : off + 4 ≤ b.code.length) :
    loadWord b'.code off = loadWord b.code off := by
  obtain ⟨tail, htail⟩ := h.code
  rw [← htail]
  exact loadWord_append_left _ _ _ hin

theorem named {id : Nat} (hid : b.NamedLabel id) : b'.NamedLabel id := by
  obtain ⟨s, hs, hskip⟩ := hid
  exact ⟨s, h.names id s hs, hskip⟩

theorem mem_uses {use : LabelUse} (hmem : use ∈ b'.labelUses) :
    use ∈ b.labelUses ∨ b.code.length ≤ use.codeOffset := by
  obtain ⟨new, hnew, hbehind⟩ := h.uses
  rw [hnew] at hmem
  exact (List.mem_append.mp hmem).imp_right (hbehind use)

theorem useOffset {i : Nat} (hi : i < b.labelUses.length) : b'.useOffset i = b.useOffset i := by
  obtain ⟨new, hnew, -⟩ := h.uses
  unfold CodeBuffer.useOffset
  rw [hnew, List.getElem?_append_left hi]

theorem laidUse {use : LabelUse} (hu : LaidUse b use) : LaidUse b' use := by
  have hlen := h.length_le
  cases hu with
  | jump hop haddend hin =>
    rw [← h.word hin] at hop
    exact .jump hop haddend (by omega)
  | pair rd hauipc hlow hin halone =>
    rw [← h.word (by omega)] at hauipc hlow
    refine .pair rd hauipc hlow (by omega) fun other hother heq => ?_
    rcases h.mem_uses hother with hold | hbehind
    · exact halone other hold heq
    · omega

theorem table (hb : Laid b) {t : DenseJumpTable}
    (hrange : t.firstUse + t.count ≤ b.labelUses.length) (hcount : 0 < t.count)
    (ht : TableEmitted b t) :
    TableEmitted b' t := by
  have hfirst := h.useOffset (i := t.firstUse) (by omega)
  obtain ⟨use, hmem, hoff⟩ := useOffset_mem (b := b) (i := t.firstUse) (by omega)
  have hin := (hb.uses use hmem).inside
  have hroom := ht.room
  refine ⟨fun k hk => ?_, fun k hk => ?_, ?_, fun i hi d hd => ?_, ?_, ?_, ?_⟩
  · rw [h.useOffset (by omega), hfirst]
    exact ht.entry k hk
  · obtain ⟨use', hmem', hoff'⟩ := useOffset_mem (b := b) (i := t.firstUse + k) (by omega)
    have hin' := (hb.uses use' hmem').inside
    have hjump := ht.jump k hk
    unfold CodeBuffer.useWord at hjump ⊢
    rw [h.useOffset (by omega), h.word (by omega)]
    exact hjump
  · rw [hfirst]
    exact hroom
  · rw [hfirst]
    obtain ⟨use', hmem', hoff'⟩ := useOffset_mem hi
    rcases h.mem_uses hmem' with hold | hbehind
    · obtain ⟨j, hj, hget⟩ := List.getElem_of_mem hold
      have hlead := ht.lead j hj d hd
      rw [useOffset_of_get (List.getElem?_eq_some_iff.mpr ⟨hj, hget⟩)] at hlead
      rw [hoff']
      exact hlead
    · omega
  · rw [hfirst, h.word (by omega)]
    exact ht.auipc
  · rw [hfirst, h.word (by omega)]
    exact ht.scale
  · rw [hfirst, h.word (by omega)]
    exact ht.jalr

end Grows

/-! ## 4. Every emission keeps it -/

/-- `b` with the words `ws` behind it, and perhaps a use on the first of them. -/
def CodeBuffer.append (b : CodeBuffer) (names : StringTable) (use : Option LabelUse)
    (ws : List Word) : CodeBuffer :=
  { b with
    code := b.code ++ ws.flatMap wordBytes
    labelNames := names
    labelUses := b.labelUses ++ use.toList }

section Append

variable {names : StringTable} {use : Option LabelUse} {ws : List Word}
  (hnames : b.labelNames.Extends names)
  (hat : ∀ u ∈ use, u.codeOffset = b.code.length)
include hnames hat

theorem grows_append : Grows b (b.append names use ws) where
  code := List.prefix_append _ _
  uses := ⟨use.toList, rfl, fun u hu => (hat u (Option.mem_toList.mp hu)).ge⟩
  names := hnames

theorem Laid.append (h : Laid b)
    (huse : ∀ u ∈ use, LaidUse (b.append names use ws) u ∧
        (b.append names use ws).NamedLabel u.label)
    (hplain : ∀ k w, ws[k]? = some w → (k = 0 → use = none) →
      opcodeOf w ≠ opBranch ∧ opcodeOf w ≠ opJal) :
    Laid (b.append names use ws) := by
  have hgrows : Grows b (b.append names use ws) := grows_append hnames hat
  have hlength : (b.append names use ws).code.length = b.code.length + 4 * ws.length := by
    unfold CodeBuffer.append
    rw [List.length_append, length_flatMap_wordBytes]
  have hwords := h.words
  have hstarted := h.started
  have hmem : ∀ {u}, u ∈ (b.append names use ws).labelUses → u ∈ b.labelUses ∨ u ∈ use := fun hu =>
    (List.mem_append.mp hu).imp_right Option.mem_toList.mp
  constructor
  case words => omega
  case started => omega
  case exit =>
    rw [hgrows.word (by omega), hgrows.word (by omega)]
    exact h.exit
  case distinct =>
    have hnew : (use.toList.map LabelUse.codeOffset).Nodup := by
      cases use with
      | none => exact List.nodup_nil
      | some u => exact List.nodup_singleton _
    refine (List.map_append ▸ h.distinct.append hnew ?_ :
      ((b.labelUses ++ use.toList).map LabelUse.codeOffset).Nodup)
    intro off hold hnew
    obtain ⟨u, hu, rfl⟩ := List.mem_map.mp hold
    obtain ⟨v, hv, heq⟩ := List.mem_map.mp hnew
    have hin := (h.uses u hu).inside
    have := hat v (Option.mem_toList.mp hv)
    omega
  case aligned =>
    intro u hu
    rcases hmem hu with hold | hnew
    · exact h.aligned u hold
    · rw [hat u hnew]
      exact ⟨hwords, hstarted⟩
  case uses =>
    intro u hu
    rcases hmem hu with hold | hnew
    · exact hgrows.laidUse (h.uses u hold)
    · exact (huse u hnew).1
  case named =>
    intro u hu
    rcases hmem hu with hold | hnew
    · exact hgrows.named (h.named u hold)
    · exact (huse u hnew).2
  case label =>
    intro id off hoff
    obtain ⟨hal, hle, hnamed⟩ := h.label id off hoff
    exact ⟨hal, by omega, hgrows.named hnamed⟩
  case plain =>
    intro off hal hlo hin hne
    by_cases hold : off < b.code.length
    · rw [hgrows.word (by omega)]
      exact h.plain off hal hlo (by omega) fun u hu => hne u (List.mem_append_left _ hu)
    · obtain ⟨k, rfl⟩ : ∃ k, off = b.code.length + 4 * k := ⟨(off - b.code.length) / 4, by omega⟩
      have hget : ws[k]? = some ws[k] := List.getElem?_eq_getElem (by omega)
      have hload : loadWord (b.append names use ws).code (b.code.length + 4 * k) = ws[k] :=
        loadWord_flatMap hget b.code
      rw [hload]
      refine hplain k _ hget fun hzero => ?_
      cases use with
      | none => rfl
      | some u =>
        have hoff := hat u rfl
        exact absurd (by omega) (hne u (List.mem_append_right _ (List.mem_singleton_self u)))
  case tables =>
    intro t ht
    obtain ⟨hrange, htable⟩ := h.tables t ht
    refine ⟨?_, fun hcount => hgrows.table h hrange hcount (htable hcount)⟩
    change _ ≤ (b.labelUses ++ use.toList).length
    rw [List.length_append]
    omega
  case tableApart => exact h.tableApart
  case line =>
    intro e he
    have := h.line e he
    omega

end Append

theorem Laid.emitWord (h : Laid b) {w : Word} (hw : opcodeOf w ≠ opBranch ∧ opcodeOf w ≠ opJal) :
    Laid (b.emitWord w) := by
  have hlaid : Laid (b.append b.labelNames none [w]) :=
    h.append (fun _ _ hs => hs) nofun nofun fun k v hv _ => by
      obtain rfl := List.mem_singleton.mp (List.mem_of_getElem? hv)
      exact hw
  simpa [CodeBuffer.append, CodeBuffer.emitWord] using hlaid

/-- A use marked here, and the words of its shape behind it. -/
theorem Laid.marked (h : Laid b) (label : LabelName) (addend : Int) (w : Word) (rest : List Word)
    (hshape : (opcodeOf w = opBranch ∨ opcodeOf w = opJal) ∧ addend = 0 ∧ rest = [] ∨
      ∃ rd, w = auipcWord rd ∧ (rest = [addiWord rd] ∨ rest = [ldWord rd])) :
    Laid ((b.markHere label.name addend).append (b.markHere label.name addend).labelNames none
      (w :: rest)) := by
  obtain ⟨hname, hext⟩ := StringTable.intern_spec b.labelNames label.name
  let use : LabelUse := ⟨(b.labelNames.intern label.name).2, b.code.length, addend⟩
  have hlaid : Laid (b.append (b.labelNames.intern label.name).1 (some use) (w :: rest)) :=
    h.append hext (fun u hu => by cases hu; rfl) (fun u hu => ?_) fun k v hv hfirst => ?_
  · simpa [CodeBuffer.append, CodeBuffer.markHere, CodeBuffer.labelId, CodeBuffer.markLabelUse]
      using hlaid
  · cases hu
    refine ⟨?_, label.name, hname, label.notSkip⟩
    have hword : ∀ {k : Nat} {v : Word}, (w :: rest)[k]? = some v →
        loadWord (b.code ++ (w :: rest).flatMap wordBytes) (b.code.length + 4 * k) = v :=
      fun hv => loadWord_flatMap hv b.code
    have hlength : (b.code ++ (w :: rest).flatMap wordBytes).length =
        b.code.length + 4 * (rest.length + 1) := by
      rw [List.length_append, length_flatMap_wordBytes]
      rfl
    have hzero : loadWord (b.code ++ (w :: rest).flatMap wordBytes) b.code.length = w :=
      hword (k := 0) rfl
    rcases hshape with ⟨hop, hadd, -⟩ | ⟨rd, rfl, hlow⟩
    · refine .jump ?_ hadd ?_
      · rw [← hzero] at hop
        exact hop
      · change b.code.length + 4 ≤ _
        exact hlength ▸ by omega
    · refine .pair rd hzero ?_ ?_ fun other hother => ?_
      · rcases hlow with rfl | rfl
        · exact .inl (hword (k := 1) rfl)
        · exact .inr (hword (k := 1) rfl)
      · change b.code.length + 8 ≤ _
        refine hlength ▸ ?_
        rcases hlow with rfl | rfl <;> simp
      · rcases List.mem_append.mp hother with hold | hnew
        · have hin := (h.uses other hold).inside
          change other.codeOffset ≠ b.code.length + 4
          omega
        · rw [List.mem_singleton.mp hnew]
          change b.code.length ≠ b.code.length + 4
          omega
  · cases k with
    | zero => cases hfirst rfl
    | succ k =>
      have hmem := List.mem_of_getElem? (show rest[k]? = some v from hv)
      rcases hshape with ⟨-, -, rfl⟩ | ⟨rd, -, rfl | rfl⟩
      · cases hmem
      · rw [List.mem_singleton.mp hmem, (opcodeOf_low rd).1]
        decide
      · rw [List.mem_singleton.mp hmem, (opcodeOf_low rd).2]
        decide

theorem Laid.emitEntry (h : Laid b) (label : LabelName) : Laid (b.emitEntry label) := by
  have hlaid := h.marked label 0 opJal [] (.inl ⟨.inr (by decide), rfl, rfl⟩)
  simpa [CodeBuffer.append, CodeBuffer.emitEntry, CodeBuffer.emitWord] using hlaid

/-- The entries of a table: one use and one JAL each, a word apart. -/
theorem emitEntries_spec (labels : List LabelName) (b : CodeBuffer) :
    (labels.foldl CodeBuffer.emitEntry b).denseJumpTables = b.denseJumpTables ∧
      (labels.foldl CodeBuffer.emitEntry b).code =
        b.code ++ (List.replicate labels.length opJal).flatMap wordBytes ∧
      ∃ new, (labels.foldl CodeBuffer.emitEntry b).labelUses = b.labelUses ++ new ∧
        new.map LabelUse.codeOffset = (List.range labels.length).map (b.code.length + 4 * ·) := by
  induction labels generalizing b with
  | nil => exact ⟨rfl, (List.append_nil _).symm, [], (List.append_nil _).symm, rfl⟩
  | cons label labels ih =>
    obtain ⟨htables, hcode, new, huses, hoffsets⟩ := ih (b.emitEntry label)
    rw [List.foldl_cons]
    refine ⟨htables, ?_, ⟨(b.labelNames.intern label.name).2, b.code.length, 0⟩ :: new, ?_, ?_⟩
    · rw [hcode, List.length_cons, List.replicate_succ, List.flatMap_cons, ← List.append_assoc]
      rfl
    · rw [huses]
      exact List.append_assoc _ [_] _
    · have hlen : (b.emitEntry label).code.length = b.code.length + 4 := List.length_append
      rw [List.map_cons, hoffsets, hlen, List.length_cons, List.range_succ_eq_map, List.map_cons,
        List.map_map]
      congr 1
      refine List.map_congr_left fun k _ => ?_
      change b.code.length + 4 + 4 * k = b.code.length + 4 * (k + 1)
      omega

theorem Laid.emitEntries (labels : List LabelName) (h : Laid b) :
    Laid (labels.foldl CodeBuffer.emitEntry b) := by
  induction labels generalizing b with
  | nil => exact h
  | cons label labels ih => exact ih (h.emitEntry label)

-- the list of tables is not read while the entries are emitted
theorem emitEntries_tables (labels : List LabelName) (b : CodeBuffer)
    (tables : List DenseJumpTable) :
    labels.foldl CodeBuffer.emitEntry { b with denseJumpTables := tables } =
      { labels.foldl CodeBuffer.emitEntry b with denseJumpTables := tables } := by
  induction labels generalizing b with
  | nil => rfl
  | cons label labels ih => exact ih (b.emitEntry label)

/-- Changes that leave code, uses and tables alone. -/
theorem Laid.congr (h : Laid b) (hcode : b'.code = b.code) (huses : b'.labelUses = b.labelUses)
    (hnames : b.labelNames.Extends b'.labelNames)
    (htables : ∀ t ∈ b'.denseJumpTables, t.firstUse + t.count ≤ b.labelUses.length ∧
      (0 < t.count → TableEmitted b t)) (hapart : b'.denseJumpTables.Pairwise DenseJumpTable.Apart)
    (hlabel : ∀ id off, b'.labelOffset id = some off →
      off % 4 = 0 ∧ off ≤ b.code.length ∧ b'.NamedLabel id)
    (hline : ∀ e ∈ b'.lineTable, e.address ≤ b.code.length) :
    Laid b' := by
  have hgrows : Grows b b' :=
    ⟨hcode ▸ List.prefix_refl _, ⟨[], by rw [huses, List.append_nil], nofun⟩, hnames⟩
  rw [← hcode] at hlabel hline
  refine ⟨?_, ?_, ?_, ?_, ?_, ?_, ?_, hlabel, ?_, ?_, hapart, hline⟩
  · rw [hcode]
    exact h.words
  · rw [hcode]
    exact h.started
  · rw [hcode]
    exact h.exit
  · rw [huses]
    exact h.distinct
  · rw [huses]
    exact h.aligned
  · rw [huses]
    exact fun use hu => hgrows.laidUse (h.uses use hu)
  · rw [huses]
    exact fun use hu => hgrows.named (h.named use hu)
  · rw [hcode, huses]
    exact h.plain
  · intro t ht
    obtain ⟨hrange, htable⟩ := htables t ht
    rw [huses]
    exact ⟨hrange, fun hcount => hgrows.table h hrange hcount (htable hcount)⟩

/-- The entries behind the three words of the dispatch make a table. -/
theorem tableEmitted_entries (h : Laid b) (index : BitVec 5) {labels : List LabelName}
    (hpos : 0 < labels.length) {led : CodeBuffer}
    (hcode : led.code = b.code ++ [auipcTable, shAdd 4 index, jalrTable].flatMap wordBytes)
    (huses : led.labelUses = b.labelUses) :
    TableEmitted (labels.foldl CodeBuffer.emitEntry led) ⟨led.labelUses.length, labels.length⟩ := by
  obtain ⟨-, hfull, new, hnew, hoffsets⟩ := emitEntries_spec labels led
  have hlength : led.code.length = b.code.length + 12 := by
    rw [hcode, List.length_append, length_flatMap_wordBytes]
    rfl
  have hentry : ∀ k < labels.length,
      (labels.foldl CodeBuffer.emitEntry led).useOffset (led.labelUses.length + k) =
        led.code.length + 4 * k := by
    intro k hk
    have hget := congrArg (·[k]?) hoffsets
    simp only [List.getElem?_map, List.getElem?_range hk, Option.map_some] at hget
    unfold CodeBuffer.useOffset
    rw [hnew, List.getElem?_append_right (by omega), Nat.add_sub_cancel_left, hget]
    rfl
  have hfirst : (labels.foldl CodeBuffer.emitEntry led).useOffset led.labelUses.length =
      b.code.length + 12 := hlength ▸ hentry 0 hpos
  have hload : ∀ {k off : Nat} {w : Word}, [auipcTable, shAdd 4 index, jalrTable][k]? = some w →
      off = b.code.length + 4 * k → loadWord (labels.foldl CodeBuffer.emitEntry led).code off = w := by
    rintro k off w hw rfl
    have hk : k < 3 := (List.getElem?_eq_some_iff.mp hw).1
    rw [hfull, loadWord_append_left _ _ _ (by omega), hcode]
    exact loadWord_flatMap hw b.code
  refine ⟨fun k hk => ?_, fun k hk => ?_, hfirst.symm ▸ Nat.le_add_left 12 _, fun i hi d hd => ?_,
    hload (k := 0) rfl ?_, ⟨index, hload (k := 1) rfl ?_⟩, hload (k := 2) rfl ?_⟩
  · rw [hfirst, hentry k hk, hlength]
  · unfold CodeBuffer.useWord
    rw [hentry k hk, hfull, loadWord_flatMap (List.getElem?_replicate_of_lt hk)]
    decide
  · obtain ⟨use, hmem, hoff⟩ := useOffset_mem hi
    simp only [List.mem_cons, List.not_mem_nil, or_false] at hd
    rw [hoff, hfirst]
    rcases List.mem_append.mp (hnew ▸ hmem) with hold | hbehind
    · have hin := (h.uses use (huses ▸ hold)).inside
      omega
    · have hoffset := List.mem_map_of_mem (f := LabelUse.codeOffset) hbehind
      rw [hoffsets] at hoffset
      obtain ⟨k, -, hk⟩ := List.mem_map.mp hoffset
      omega
  all_goals
    dsimp only
    omega

theorem Laid.denseJumpTable (h : Laid b) (index : BitVec 5) (labels : List LabelName) :
    Laid (b.emit (.denseJumpTable index labels)) := by
  have hscale : opcodeOf (shAdd 4 index) ≠ opBranch ∧ opcodeOf (shAdd 4 index) ≠ opJal := by
    revert index
    decide
  let led := ((b.emitWord auipcTable).emitWord (shAdd 4 index)).emitWord jalrTable
  have hled : Laid led := ((h.emitWord (by decide)).emitWord hscale).emitWord (by decide)
  have hfull := hled.emitEntries labels
  obtain ⟨htables, -, new, huses, hoffsets⟩ := emitEntries_spec labels led
  have hrange : (labels.foldl CodeBuffer.emitEntry led).labelUses.length =
      led.labelUses.length + labels.length := by
    have hcount := congrArg List.length hoffsets
    rw [List.length_map, List.length_map, List.length_range] at hcount
    rw [huses, List.length_append, hcount]
  rw [show b.emit (.denseJumpTable index labels) = _ from emitEntries_tables labels led _]
  refine hfull.congr rfl rfl (fun _ _ hs => hs) (fun t ht => ?_) ?_ hfull.label hfull.line
  · rcases List.mem_append.mp ht with hold | hnew
    · exact hfull.tables t (htables ▸ hold)
    · obtain rfl := List.mem_singleton.mp hnew
      exact ⟨hrange.ge, fun hpos =>
        tableEmitted_entries h index hpos (by simp [led, CodeBuffer.emitWord]) rfl⟩
  · -- the uses of earlier tables come before those of this one
    refine List.pairwise_append.mpr ⟨hled.tableApart, List.pairwise_singleton _ _, ?_⟩
    intro t ht t' ht' i hi hi'
    obtain rfl := List.mem_singleton.mp ht'
    have hrange := (hled.tables t ht).1
    have hhigh : i < t.firstUse + t.count := hi.2
    have hlow : led.labelUses.length ≤ i := hi'.1
    omega

theorem Laid.defineLabel (h : Laid b) (label : LabelName) : Laid (b.emit (.defineLabel label)) := by
  obtain ⟨hname, hext⟩ := StringTable.intern_spec b.labelNames label.name
  refine h.congr rfl rfl hext h.tables h.tableApart (fun id off hoff => ?_) h.line
  have hset := CodeBuffer.labelOffset_setLabel (b.labelId label.name).1 (b.labelId label.name).2
    b.code.length id
  rw [show CodeBuffer.labelOffset (b.emit (.defineLabel label)) id = _ from hset] at hoff
  split at hoff
  · rename_i heq
    cases hoff
    exact ⟨h.words, Nat.le_refl _, label.name, heq ▸ hname, label.notSkip⟩
  · obtain ⟨hal, hle, s, hs, hskip⟩ := h.label id off hoff
    exact ⟨hal, hle, s, hext id s hs, hskip⟩

theorem recordLine_rows (b : CodeBuffer) (line : Nat) (force : Bool) :
    ∃ rows, b.recordLine line force = { b with lineTable := rows } ∧
      ∀ e ∈ rows, e ∈ b.lineTable ∨ e.address = b.code.length % 2 ^ 32 := by
  have hrev : ∀ {last rest}, b.lineTable.reverse = last :: rest → ∀ e ∈ rest, e ∈ b.lineTable := by
    intro last rest heq e he
    exact List.mem_reverse.mp (heq ▸ List.mem_cons_of_mem _ he)
  unfold CodeBuffer.recordLine
  split
  · exact ⟨b.lineTable, rfl, fun e he => .inl he⟩
  · dsimp only
    split
    · exact ⟨_, rfl, by simp⟩
    · rename_i last rest hlast
      have hold := hrev hlast
      split
      · split
        · split
          · exact ⟨_, rfl, fun e he => .inl (hold e (List.mem_reverse.mp he))⟩
          · refine ⟨_, rfl, fun e he => ?_⟩
            rcases List.mem_cons.mp (List.mem_reverse.mp he) with rfl | he
            · exact .inr rfl
            · exact .inl (hold e he)
        · exact ⟨_, rfl, by simp⟩
      · split
        · exact ⟨b.lineTable, rfl, fun e he => .inl he⟩
        · refine ⟨_, rfl, fun e he => ?_⟩
          rcases List.mem_append.mp he with he | he
          · exact .inl he
          · rw [List.mem_singleton.mp he]
            exact .inr rfl

theorem Laid.emit (h : Laid b) (e : Emission) : Laid (b.emit e) := by
  have hsame : ∀ {b' : CodeBuffer}, b'.code = b.code → b'.labelUses = b.labelUses →
      b'.labelNames = b.labelNames → b'.denseJumpTables = b.denseJumpTables →
      b'.labelOffsets = b.labelOffsets → (∀ e ∈ b'.lineTable, e.address ≤ b.code.length) → Laid b' := by
    intro b' hcode huses hnames htables hoffsets hline
    refine h.congr hcode huses (by rw [hnames]; exact fun _ _ hs => hs) (htables ▸ h.tables)
      (htables ▸ h.tableApart) (fun id off hoff => ?_) hline
    unfold CodeBuffer.labelOffset CodeBuffer.NamedLabel at *
    rw [hoffsets] at hoff
    rw [hnames]
    exact h.label id off hoff
  cases e with
  | word w hw => exact h.emitWord hw
  | jump label w hw =>
    have hlaid := h.marked label 0 w [] (.inl ⟨hw, rfl, rfl⟩)
    simpa [CodeBuffer.append, CodeBuffer.emit, CodeBuffer.emitWord] using hlaid
  | la rd label addend =>
    have hlaid := h.marked label addend _ _ (.inr ⟨rd, rfl, .inl rfl⟩)
    simpa [CodeBuffer.append, CodeBuffer.emit, CodeBuffer.emitWord] using hlaid
  | poolLoad rd label =>
    have hlaid := h.marked label 0 _ _ (.inr ⟨rd, rfl, .inr rfl⟩)
    simpa [CodeBuffer.append, CodeBuffer.emit, CodeBuffer.emitWord] using hlaid
  | denseJumpTable index labels => exact h.denseJumpTable index labels
  | defineLabel label => exact h.defineLabel label
  | function name => exact hsame rfl rfl rfl rfl rfl h.line
  | instanceInit => exact hsame rfl rfl rfl rfl rfl h.line
  | recordLine line force =>
    obtain ⟨rows, heq, hrows⟩ := recordLine_rows b line force
    change Laid (b.recordLine line force)
    rw [heq]
    refine hsame rfl rfl rfl rfl rfl fun e he => ?_
    rcases hrows e he with hold | haddress
    · exact h.line e hold
    · rw [haddress]
      exact Nat.mod_le _ _

theorem fastExit_laid (strings : StringTable) : Laid (.fastExit strings) := by
  have hexit : loadWord (wordBytes 0x7FF00073 ++ wordBytes 0xFFDFF06F) 0 = 0x7FF00073 ∧
      loadWord (wordBytes 0x7FF00073 ++ wordBytes 0xFFDFF06F) 4 = 0xFFDFF06F := by decide
  have hlength : (CodeBuffer.fastExit strings).code.length = 8 := rfl
  refine ⟨by rw [hlength], Nat.le_refl 8, hexit, List.nodup_nil, nofun, nofun, nofun,
    fun id off hoff => ?_, fun off _ hlo hin => ?_, nofun, List.Pairwise.nil, nofun⟩
  · unfold CodeBuffer.labelOffset CodeBuffer.fastExit at hoff
    rw [List.getElem?_map] at hoff
    cases hid : strings.names[id]? with
    | none => rw [hid] at hoff; cases hoff
    | some s => rw [hid] at hoff; cases hoff
  · change off + 4 ≤ 8 at hin
    omega

/-- Whatever is emitted, in whatever order. -/
theorem generated_laid (strings : StringTable) (emissions : List Emission) :
    Laid (.generated strings emissions) := by
  have hstart := fastExit_laid strings
  unfold CodeBuffer.generated
  generalize CodeBuffer.fastExit strings = b at hstart ⊢
  induction emissions generalizing b with
  | nil => exact hstart
  | cons e emissions ih => exact ih _ (hstart.emit e)

end Riscv
