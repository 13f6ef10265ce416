import GdscriptCompiler.Riscv.Relax
import Mathlib.Data.List.Basic
import Mathlib.Data.List.Pairwise
import Mathlib.Tactic.Common

/-! # RelaxRound — what one round of `relax_branches` does -/

namespace Riscv

open Lib Ir

/-! ## 1. Marking: dense tables relax as a whole -/

def DenseJumpTable.Holds (table : DenseJumpTable) (i : Nat) : Prop :=
  table.firstUse ≤ i ∧ i < table.firstUse + table.count

def DenseJumpTable.Fires (table : DenseJumpTable) (relax : List Bool) : Prop :=
  ∃ k, table.Holds k ∧ relax[k]? = some true

def DenseJumpTable.Apart (s t : DenseJumpTable) : Prop := ∀ i, s.Holds i → ¬ t.Holds i

def dispatchOf (uses : List LabelUse) (table : DenseJumpTable) : Option Nat :=
  (uses[table.firstUse]?).map fun use => use.codeOffset - 8

theorem fires_iff_contains (table : DenseJumpTable) (relax : List Bool) :
    ((relax.drop table.firstUse).take table.count).contains true = true ↔ table.Fires relax := by
  rw [List.contains_iff_mem, List.mem_iff_getElem?]
  constructor
  · rintro ⟨k, hk⟩
    rw [List.getElem?_take] at hk
    split at hk
    · rename_i hlt
      rw [List.getElem?_drop] at hk
      exact ⟨table.firstUse + k, ⟨by omega, by omega⟩, hk⟩
    · simp at hk
  · rintro ⟨k, ⟨h1, h2⟩, hk⟩
    refine ⟨k - table.firstUse, ?_⟩
    rw [List.getElem?_take, if_pos (by omega), List.getElem?_drop,
      show table.firstUse + (k - table.firstUse) = k by omega]
    exact hk

theorem fill_getElem? (relax : List Bool) (first count i : Nat) (h : first + count ≤ relax.length) :
    (relax.take first ++ List.replicate count true ++ relax.drop (first + count))[i]? =
      if first ≤ i ∧ i < first + count then some true else relax[i]? := by
  have hlen : (relax.take first).length = first := by rw [List.length_take]; omega
  rw [List.append_assoc]
  by_cases h1 : i < first
  · rw [if_neg (by omega), List.getElem?_append_left (by omega), List.getElem?_take, if_pos h1]
  · rw [List.getElem?_append_right (by omega), hlen]
    by_cases h2 : i < first + count
    · rw [if_pos ⟨by omega, h2⟩, List.getElem?_append_left (by rw [List.length_replicate]; omega),
        List.getElem?_replicate, if_pos (by omega)]
    · rw [if_neg (by omega), List.getElem?_append_right (by rw [List.length_replicate]; omega),
        List.length_replicate, List.getElem?_drop]
      congr 1
      omega

section

variable (uses : List LabelUse) (relax : List Bool) (code : List Byte)
include uses relax code

section

variable (table : DenseJumpTable)

theorem widenTable_length (h : table.firstUse + table.count ≤ relax.length) :
    (widenTable uses (relax, code) table).1.length = relax.length ∧
      (widenTable uses (relax, code) table).2.length = code.length := by
  have hfill : (relax.take table.firstUse ++ List.replicate table.count true ++
      relax.drop (table.firstUse + table.count)).length = relax.length := by
    simp only [List.length_append, List.length_take, List.length_replicate, List.length_drop]
    omega
  unfold widenTable
  dsimp only
  split
  · split
    · exact ⟨hfill, rfl⟩
    · exact ⟨hfill, storeWord_length _ _ _⟩
  · exact ⟨rfl, rfl⟩

theorem widenTable_marks (h : table.firstUse + table.count ≤ relax.length) (i : Nat) :
    (widenTable uses (relax, code) table).1[i]? = some true ↔
      relax[i]? = some true ∨ table.Holds i ∧ table.Fires relax := by
  unfold widenTable
  dsimp only
  split
  · rename_i hf
    have hfires := (fires_iff_contains table relax).mp hf
    have hfst : ∀ code', ((relax.take table.firstUse ++ List.replicate table.count true ++
        relax.drop (table.firstUse + table.count), code') : List Bool × List Byte).1[i]? = some true ↔
        relax[i]? = some true ∨ table.Holds i ∧ table.Fires relax := by
      intro code'
      dsimp only
      rw [fill_getElem? relax _ _ i h]
      split
      · rename_i hh
        exact ⟨fun _ => Or.inr ⟨hh, hfires⟩, fun _ => rfl⟩
      · rename_i hh
        exact ⟨Or.inl, fun h => h.resolve_right fun h => hh h.1⟩
    split <;> exact hfst _
  · rename_i hf
    have hfires : ¬ table.Fires relax := fun h => hf ((fires_iff_contains table relax).mpr h)
    exact ⟨Or.inl, fun h => h.resolve_right fun h => hfires h.2⟩

theorem widenTable_word_of_ne (off : Nat)
    (h : table.Fires relax → ∀ d, dispatchOf uses table = some d → d + 4 ≤ off ∨ off + 4 ≤ d) :
    loadWord (widenTable uses (relax, code) table).2 off = loadWord code off := by
  unfold widenTable
  dsimp only
  split
  · rename_i hf
    have hfires := (fires_iff_contains table relax).mp hf
    split
    · rfl
    · rename_i use hu
      have hd := h hfires (use.codeOffset - 8) (by simp only [dispatchOf, hu, Option.map_some])
      exact loadWord_storeWord_of_disjoint _ _ _ _ (by omega)
  · rfl

theorem widenTable_word_of_fires (off : Nat) (hf : table.Fires relax)
    (hd : dispatchOf uses table = some off) (hoff : off + 4 ≤ code.length) :
    loadWord (widenTable uses (relax, code) table).2 off = widenDispatch (loadWord code off) := by
  obtain ⟨use, hu, rfl⟩ := Option.map_eq_some_iff.mp hd
  unfold widenTable
  dsimp only
  rw [if_pos ((fires_iff_contains table relax).mpr hf), hu]
  exact loadWord_storeWord_self _ _ _ hoff

end

end

variable {table : DenseJumpTable}

theorem Apart.fires_widenTable {uses : List LabelUse} {relax : List Bool} {code : List Byte}
    {other : DenseJumpTable} (ha : table.Apart other)
    (h : table.firstUse + table.count ≤ relax.length) :
    other.Fires (widenTable uses (relax, code) table).1 ↔ other.Fires relax := by
  constructor
  · rintro ⟨k, hk, hm⟩
    rw [widenTable_marks uses relax code table h k] at hm
    exact ⟨k, hk, hm.resolve_right fun hh => ha k hh.1 hk⟩
  · rintro ⟨k, hk, hm⟩
    exact ⟨k, hk, (widenTable_marks uses relax code table h k).mpr (Or.inl hm)⟩

theorem DenseJumpTable.Fires.count_pos {relax : List Bool} (h : table.Fires relax) :
    0 < table.count := by
  obtain ⟨k, ⟨h1, h2⟩, -⟩ := h
  omega

/-- The dispatch words of two tables that have entries never overlap. -/
def DispatchApart (uses : List LabelUse) (s t : DenseJumpTable) : Prop :=
  0 < s.count → 0 < t.count → ∀ d e, dispatchOf uses s = some d → dispatchOf uses t = some e →
    d + 4 ≤ e ∨ e + 4 ≤ d

section WidenTables

variable (uses : List LabelUse)

theorem inside_widenTable {tables : List DenseJumpTable} {relax : List Bool} (code : List Byte)
    (hin : ∀ t ∈ table :: tables, t.firstUse + t.count ≤ relax.length) :
    ∀ t ∈ tables, t.firstUse + t.count ≤ (widenTable uses (relax, code) table).1.length := by
  rw [(widenTable_length uses relax code table (hin table List.mem_cons_self)).1]
  exact fun t ht => hin t (List.mem_cons_of_mem _ ht)

section

variable (tables : List DenseJumpTable) (relax : List Bool) (code : List Byte)
  (hin : ∀ t ∈ tables, t.firstUse + t.count ≤ relax.length)
include tables relax code hin

theorem widenTables_length :
    (tables.foldl (widenTable uses) (relax, code)).1.length = relax.length ∧
      (tables.foldl (widenTable uses) (relax, code)).2.length = code.length := by
  induction tables generalizing relax code with
  | nil => exact ⟨rfl, rfl⟩
  | cons t ts ih =>
    rw [List.foldl_cons]
    have hl := widenTable_length uses relax code t (hin t List.mem_cons_self)
    have hr := ih _ (widenTable uses (relax, code) t).2 (inside_widenTable uses code hin)
    rwa [hl.1, hl.2] at hr

section

variable (hap : tables.Pairwise DenseJumpTable.Apart)
include hap

/-- A use is marked at the end iff it was out of reach or shares a table with one that was. -/
theorem widenTables_marks (i : Nat) :
    (tables.foldl (widenTable uses) (relax, code)).1[i]? = some true ↔
      relax[i]? = some true ∨ ∃ t ∈ tables, t.Holds i ∧ t.Fires relax := by
  induction tables generalizing relax code with
  | nil => simp
  | cons t ts ih =>
    have ht := hin t List.mem_cons_self
    obtain ⟨hhead, htail⟩ := List.pairwise_cons.mp hap
    rw [List.foldl_cons, ih _ _ (inside_widenTable uses code hin) htail,
      widenTable_marks uses relax code t ht i]
    constructor
    · rintro ((h | ⟨hh, hf⟩) | ⟨t', ht', hh, hf⟩)
      · exact Or.inl h
      · exact Or.inr ⟨t, List.mem_cons_self, hh, hf⟩
      · exact Or.inr ⟨t', List.mem_cons_of_mem _ ht', hh,
          (Apart.fires_widenTable (hhead t' ht') ht).mp hf⟩
    · rintro (h | ⟨t', ht', hh, hf⟩)
      · exact Or.inl (Or.inl h)
      · rcases List.mem_cons.mp ht' with rfl | ht''
        · exact Or.inl (Or.inr ⟨hh, hf⟩)
        · exact Or.inr ⟨t', ht'', hh, (Apart.fires_widenTable (hhead t' ht'') ht).mpr hf⟩

theorem widenTables_word_of_ne (off : Nat)
    (h : ∀ t ∈ tables, t.Fires relax → ∀ d, dispatchOf uses t = some d → d + 4 ≤ off ∨
        off + 4 ≤ d) :
    loadWord (tables.foldl (widenTable uses) (relax, code)).2 off = loadWord code off := by
  induction tables generalizing relax code with
  | nil => rfl
  | cons t ts ih =>
    have ht := hin t List.mem_cons_self
    obtain ⟨hhead, htail⟩ := List.pairwise_cons.mp hap
    rw [List.foldl_cons, ih _ _ (inside_widenTable uses code hin) htail (fun t' ht' hf =>
        h t' (List.mem_cons_of_mem _ ht') ((Apart.fires_widenTable (hhead t' ht') ht).mp hf)),
      widenTable_word_of_ne uses relax code t off (h t List.mem_cons_self)]

theorem widenTables_word_of_fires (hda : tables.Pairwise (DispatchApart uses))
    (table : DenseJumpTable) (hmem : table ∈ tables) (off : Nat) (hf : table.Fires relax)
    (hd : dispatchOf uses table = some off) (hoff : off + 4 ≤ code.length) :
    loadWord (tables.foldl (widenTable uses) (relax, code)).2 off = widenDispatch
      (loadWord code off) := by
  induction tables generalizing relax code with
  | nil => simp at hmem
  | cons t ts ih =>
    have ht := hin t List.mem_cons_self
    have hl := widenTable_length uses relax code t ht
    have hin' := inside_widenTable uses code hin
    obtain ⟨hhead, htail⟩ := List.pairwise_cons.mp hap
    obtain ⟨hdhead, hdtail⟩ := List.pairwise_cons.mp hda
    rw [List.foldl_cons]
    rcases List.mem_cons.mp hmem with rfl | hmem'
    · -- this table is widened now; no later one touches its dispatch word
      rw [widenTables_word_of_ne uses ts _ _ hin' htail off (fun t' ht' hf' d hd' => by
          have := hdhead t' ht' hf.count_pos hf'.count_pos off d hd hd'
          omega),
        widenTable_word_of_fires uses relax code table off hf hd hoff]
    · have hfw : table.Fires (widenTable uses (relax, code) t).1 :=
        (Apart.fires_widenTable (hhead table hmem') ht).mpr hf
      rw [ih _ _ hin' htail hdtail hmem' hfw (by rw [hl.2]; exact hoff),
        widenTable_word_of_ne uses relax code t off
          (fun hf' d hd' => by
            have := hdhead table hmem' hf'.count_pos hf.count_pos d off hd' hd
            omega)]

end

end

end WidenTables

/-! ## 2. Rewriting: every marked use, once -/

theorem skipLabel_injective {i j : Nat} (h : skipLabel i = skipLabel j) : i = j := by
  have hr : Nat.repr i = Nat.repr j := (String.append_right_inj _).mp h
  rw [Nat.repr_eq_ofList_toDigits, Nat.repr_eq_ofList_toDigits] at hr
  have hd : Nat.toDigits 10 i = Nat.toDigits 10 j := String.ofList_injective hr
  have hv := congrArg (fun ds => Nat.ofDigitChars 10 ds 0) hd
  simpa only [Nat.ofDigitChars_toDigits (by decide : 1 < 10) (by decide : 10 ≤ 10)] using hv

def CodeBuffer.useOffset (b : CodeBuffer) (i : Nat) : Nat :=
  ((b.labelUses[i]?).map LabelUse.codeOffset).getD 0

theorem useOffset_of_get {b : CodeBuffer} {i : Nat} {use : LabelUse}
    (h : b.labelUses[i]? = some use) :
    b.useOffset i = use.codeOffset := by
  simp only [CodeBuffer.useOffset, h, Option.map_some, Option.getD_some]

def rewrittenWord (instr : Word) : Word :=
  if opcodeOf instr = opBranch then invertBranch instr else auipcScratch

def insertedWord (instr : Word) : Word :=
  if opcodeOf instr = opBranch then opJal else jalrScratch (rdField instr)

/-- The uses `marked` sit on word boundaries inside the code, no two on the same word. -/
structure UsesApart (b : CodeBuffer) (marked : List Nat) : Prop where
  bound : ∀ i ∈ marked, i < b.labelUses.length
  aligned : ∀ i ∈ marked, b.useOffset i % 4 = 0
  inside : ∀ i ∈ marked, b.useOffset i + 4 ≤ b.code.length
  distinct : ∀ i ∈ marked, ∀ j ∈ marked, b.useOffset i = b.useOffset j → i = j

/-- The state of the rewriting loop once it has handled the marked uses `done`. -/
structure Rewritten (b : CodeBuffer) (done : List Nat) (acc : RelaxAcc) : Prop where
  length : acc.buf.code.length = b.code.length
  word : ∀ i ∈ done, loadWord acc.buf.code (b.useOffset i) =
    rewrittenWord (loadWord b.code (b.useOffset i))
  frame : ∀ off, off % 4 = 0 → (∀ i ∈ done, off ≠ b.useOffset i) →
    loadWord acc.buf.code off = loadWord b.code off
  insertions : acc.insertions =
    done.map fun i => (b.useOffset i + 4, insertedWord (loadWord b.code (b.useOffset i)))
  relaxed : ∀ i, i ∈ acc.relaxedBranches ↔
    i ∈ done ∧ opcodeOf (loadWord b.code (b.useOffset i)) = opBranch
  names : b.labelNames.Extends acc.buf.labelNames
  offsets : ∀ id, (∀ i ∈ acc.relaxedBranches, acc.buf.labelNames.names[id]? ≠ some (skipLabel i)) →
    acc.buf.labelOffset id = b.labelOffset id
  uses : acc.buf.labelUses.take b.labelUses.length = b.labelUses
  skipOf : ∀ i ∈ acc.relaxedBranches, ∃ j id, b.labelUses.length ≤ j ∧
    acc.buf.labelUses[j]? = some ⟨id, b.useOffset i, 0⟩
  skips : ∀ j use, b.labelUses.length ≤ j → acc.buf.labelUses[j]? = some use →
    ∃ i ∈ acc.relaxedBranches, use.codeOffset = b.useOffset i ∧ use.addend = 0 ∧
      acc.buf.labelNames.names[use.label]? = some (skipLabel i) ∧
      acc.buf.labelOffset use.label = some (b.useOffset i + 4)
  tables : acc.buf.denseJumpTables = b.denseJumpTables
  functions : acc.buf.functions = b.functions
  instanceInit : acc.buf.instanceInitOffset = b.instanceInitOffset
  lines : acc.buf.lineTable = b.lineTable

theorem Rewritten.start (b : CodeBuffer) : Rewritten b [] ⟨b, [], []⟩ where
  length := rfl
  word := fun _ h => absurd h List.not_mem_nil
  frame := fun _ _ _ => rfl
  insertions := rfl
  relaxed := fun i => by simp
  names := fun _ _ h => h
  offsets := fun _ _ => rfl
  uses := List.take_length
  skipOf := fun _ h => absurd h List.not_mem_nil
  skips := fun j use hj h => by
    rw [List.getElem?_eq_none hj] at h
    cases h
  tables := rfl
  functions := rfl
  instanceInit := rfl
  lines := rfl

variable {off : Nat}

section RelaxUse

variable {b : CodeBuffer} {marked done : List Nat} {acc : RelaxAcc} {i : Nat}

theorem Rewritten.getElem?_uses (h : Rewritten b done acc) (hi : i < b.labelUses.length) :
    acc.buf.labelUses[i]? = b.labelUses[i]? := by
  rw [← h.uses, List.getElem?_take, if_pos hi]

theorem Rewritten.own_word (h : Rewritten b done acc) (hb : UsesApart b marked)
    (hdone : ∀ k ∈ done, k ∈ marked) (hi : i ∈ marked) (hnew : i ∉ done) :
    loadWord acc.buf.code (b.useOffset i) = loadWord b.code (b.useOffset i) := by
  apply h.frame _ (hb.aligned i hi)
  intro k hk heq
  exact hnew (hb.distinct i hi k (hdone k hk) heq ▸ hk)

theorem loadWord_store_use {code : List Byte} {pos : Nat} (w : Word) (h1 : off % 4 = 0)
    (h2 : pos % 4 = 0) (hne : off ≠ pos) :
    loadWord (storeWord code pos w) off = loadWord code off :=
  loadWord_storeWord_of_disjoint _ _ _ _ (by omega)

section

variable (h : Rewritten b done acc) (hb : UsesApart b marked) (hdone : ∀ k ∈ done, k ∈ marked)
include h hb hdone

section

variable (hi : i ∈ marked) (hnew : i ∉ done)
include hi hnew

/-- Field updates common to both rewrites: one word stored at the use, one insertion recorded. -/
theorem Rewritten.store_word {w : Word} (hw : w = rewrittenWord (loadWord b.code (b.useOffset i))) :
    (∀ k ∈ done ++ [i], loadWord (storeWord acc.buf.code (b.useOffset i) w) (b.useOffset k) =
        rewrittenWord (loadWord b.code (b.useOffset k))) ∧
      ∀ off, off % 4 = 0 → (∀ k ∈ done ++ [i], off ≠ b.useOffset k) →
        loadWord (storeWord acc.buf.code (b.useOffset i) w) off = loadWord b.code off := by
  have hal := hb.aligned i hi
  constructor
  · intro k hk
    rcases List.mem_append.mp hk with hk | hk
    · have hne : b.useOffset k ≠ b.useOffset i := fun heq =>
        hnew (hb.distinct k (hdone k hk) i hi heq ▸ hk)
      rw [loadWord_store_use w (hb.aligned k (hdone k hk)) hal hne, h.word k hk]
    · obtain rfl := List.mem_singleton.mp hk
      rw [loadWord_storeWord_self _ _ _ (by rw [h.length]; exact hb.inside k hi), hw]
  · intro off hoff hne
    rw [loadWord_store_use w hoff hal (hne i (by simp)),
      h.frame off hoff fun k hk => hne k (List.mem_append_left _ hk)]

theorem Rewritten.step_jump (hop : opcodeOf (loadWord b.code (b.useOffset i)) ≠ opBranch) :
    Rewritten b (done ++ [i]) (relaxUse acc i) := by
  obtain ⟨use, huse⟩ : ∃ use, b.labelUses[i]? = some use := ⟨_, List.getElem?_eq_getElem (hb.bound i hi)⟩
  have hoff := useOffset_of_get huse
  have hown := h.own_word hb hdone hi hnew
  have hacc : relaxUse acc i =
      { buf := { acc.buf with code := storeWord acc.buf.code (b.useOffset i) auipcScratch }
        insertions := acc.insertions ++
          [(b.useOffset i + 4, jalrScratch (rdField (loadWord b.code (b.useOffset i))))]
        relaxedBranches := acc.relaxedBranches } := by
    unfold relaxUse
    rw [h.getElem?_uses (hb.bound i hi), huse]
    dsimp only
    rw [← hoff, hown, if_neg hop]
  obtain ⟨hword, hframe⟩ := h.store_word hb hdone hi hnew (w := auipcScratch)
    (by rw [rewrittenWord, if_neg hop])
  rw [hacc]
  exact
    { h with
      length := by rw [storeWord_length]; exact h.length
      word := hword
      frame := hframe
      insertions := by
        rw [List.map_append, ← h.insertions, List.map_singleton, insertedWord, if_neg hop]
      relaxed := fun k => by
        constructor
        · intro hk
          obtain ⟨h1, h2⟩ := (h.relaxed k).mp hk
          exact ⟨List.mem_append_left _ h1, h2⟩
        · rintro ⟨hk, hbr⟩
          rcases List.mem_append.mp hk with hk | hk
          · exact (h.relaxed k).mpr ⟨hk, hbr⟩
          · obtain rfl := List.mem_singleton.mp hk
            exact absurd hbr hop }

theorem Rewritten.step_branch (hop : opcodeOf (loadWord b.code (b.useOffset i)) = opBranch) :
    Rewritten b (done ++ [i]) (relaxUse acc i) := by
  obtain ⟨use, huse⟩ : ∃ use, b.labelUses[i]? = some use := ⟨_, List.getElem?_eq_getElem (hb.bound i hi)⟩
  have hoff := useOffset_of_get huse
  have hown := h.own_word hb hdone hi hnew
  obtain ⟨hname, hext⟩ := StringTable.intern_spec acc.buf.labelNames (skipLabel i)
  set names := (StringTable.intern acc.buf.labelNames (skipLabel i)).1 with hnames
  set skip := (StringTable.intern acc.buf.labelNames (skipLabel i)).2 with hskip
  have hacc : relaxUse acc i =
      { buf := { ({ acc.buf with labelNames := names }.setLabel skip
            (b.useOffset i + 4)).markLabelUse skip (b.useOffset i) 0 with
            code := storeWord acc.buf.code (b.useOffset i)
              (invertBranch (loadWord b.code (b.useOffset i))) }
        insertions := acc.insertions ++ [(b.useOffset i + 4, opJal)]
        relaxedBranches := acc.relaxedBranches ++ [i] } := by
    unfold relaxUse
    rw [h.getElem?_uses (hb.bound i hi), huse]
    dsimp only
    rw [← hoff, hown, if_pos hop]
    rfl
  obtain ⟨hword, hframe⟩ := h.store_word hb hdone hi hnew
    (w := invertBranch (loadWord b.code (b.useOffset i))) (by rw [rewrittenWord, if_pos hop])
  have hlen : b.labelUses.length ≤ acc.buf.labelUses.length := by
    have := congrArg List.length h.uses
    rw [List.length_take] at this
    omega
  -- the label table after `set_label`, read through the names
  have hset : ∀ id, ({ acc.buf with labelNames := names }.setLabel skip
    (b.useOffset i + 4)).labelOffset id =
      if id = skip then some (b.useOffset i + 4) else acc.buf.labelOffset id :=
    fun id => CodeBuffer.labelOffset_setLabel _ _ _ _
  rw [hacc]
  exact
    { h with
      length := by rw [storeWord_length]; exact h.length
      word := hword
      frame := hframe
      insertions := by
        rw [List.map_append, ← h.insertions, List.map_singleton, insertedWord, if_pos hop]
      relaxed := fun k => by
        simp only [List.mem_append, List.mem_singleton, h.relaxed k]
        constructor
        · rintro (⟨h1, h2⟩ | rfl)
          · exact ⟨Or.inl h1, h2⟩
          · exact ⟨Or.inr rfl, hop⟩
        · rintro ⟨h1 | rfl, h2⟩
          · exact Or.inl ⟨h1, h2⟩
          · exact Or.inr rfl
      names := fun id s hs => hext id s (h.names id s hs)
      offsets := fun id hid => by
        have hne : id ≠ skip := by
          rintro rfl
          exact hid i (by simp) hname
        refine (hset id).trans ?_
        rw [if_neg hne]
        exact h.offsets id fun k hk hk' => hid k (List.mem_append_left _ hk) (hext _ _ hk')
      uses := by
        change List.take _ (acc.buf.labelUses ++ [_]) = _
        rw [List.take_append_of_le_length hlen, h.uses]
      skipOf := fun k hk => by
        rcases List.mem_append.mp hk with hk | hk
        · obtain ⟨j, id, hj, hu⟩ := h.skipOf k hk
          refine ⟨j, id, hj, ?_⟩
          change (acc.buf.labelUses ++ [_])[j]? = _
          rw [List.getElem?_append_left (List.getElem?_eq_some_iff.mp hu).1]
          exact hu
        · obtain rfl := List.mem_singleton.mp hk
          refine ⟨acc.buf.labelUses.length, skip, hlen, ?_⟩
          change (acc.buf.labelUses ++ [_])[_]? = _
          rw [List.getElem?_concat_length]
      skips := fun j u hj hu => by
        change (acc.buf.labelUses ++ [(⟨skip, b.useOffset i, 0⟩ : LabelUse)])[j]? = some u at hu
        by_cases hjl : j < acc.buf.labelUses.length
        · rw [List.getElem?_append_left hjl] at hu
          obtain ⟨k, hk, hko, hka, hkn, hkl⟩ := h.skips j u hj hu
          refine ⟨k, List.mem_append_left _ hk, hko, hka, hext _ _ hkn, (hset _).trans ?_⟩
          rw [if_neg, hkl]
          intro heq
          -- the two skips have different names, so different ids
          have hsame := hext _ _ hkn
          rw [heq, hname, Option.some.injEq] at hsame
          exact hnew (skipLabel_injective hsame ▸ ((h.relaxed k).mp hk).1)
        · rw [List.getElem?_append_right (by omega)] at hu
          obtain rfl := List.mem_singleton.mp (List.mem_of_getElem? hu)
          refine ⟨i, by simp, rfl, rfl, hname, (hset _).trans ?_⟩
          rw [if_pos rfl] }

end

end

theorem Rewritten.fold (todo : List Nat) (h : Rewritten b done acc) (hb : UsesApart b marked)
    (hin : ∀ k ∈ done ++ todo, k ∈ marked) (hnd : (done ++ todo).Nodup) :
    Rewritten b (done ++ todo) (todo.foldl relaxUse acc) := by
  induction todo generalizing done acc with
  | nil => simpa using h
  | cons i rest ih =>
    have hi : i ∈ marked := hin i (by simp)
    have hdone : ∀ k ∈ done, k ∈ marked := fun k hk =>
      hin k (List.mem_append_left _ hk)
    have hnew : i ∉ done := by
      intro hmem
      exact (List.nodup_append.mp hnd).2.2 i hmem i List.mem_cons_self rfl
    have hstep : Rewritten b (done ++ [i]) (relaxUse acc i) := by
      by_cases hop : opcodeOf (loadWord b.code (b.useOffset i)) = opBranch
      · exact h.step_branch hb hdone hi hnew hop
      · exact h.step_jump hb hdone hi hnew hop
    have happ : done ++ i :: rest = done ++ [i] ++ rest := by simp
    rw [happ] at hin hnd ⊢
    exact ih hstep hin hnd

end RelaxUse

/-! ## 3. Rebuilding: one map moves everything -/

theorem sortInsertions_perm (ins : List (Nat × Word)) : (sortInsertions ins).Perm ins :=
  List.mergeSort_perm _ _

theorem sortInsertions_ascending (ins : List (Nat × Word)) (hnd : (ins.map Prod.fst).Nodup) :
    ((sortInsertions ins).map Prod.fst).Pairwise (· < ·) := by
  have hle : (sortInsertions ins).Pairwise fun a b => a.1 ≤ b.1 := by
    refine (List.pairwise_mergeSort ?_ ?_ ins).imp ?_
    · intro a b c hab hbc
      simp only [Bool.or_eq_true, Bool.and_eq_true, decide_eq_true_eq, beq_iff_eq] at hab hbc ⊢
      omega
    · intro a b
      simp only [Bool.or_eq_true, Bool.and_eq_true, decide_eq_true_eq, beq_iff_eq]
      omega
    · intro a b hab
      simp only [Bool.or_eq_true, Bool.and_eq_true, decide_eq_true_eq, beq_iff_eq] at hab
      omega
  have hne : ((sortInsertions ins).map Prod.fst).Nodup :=
    ((sortInsertions_perm ins).map Prod.fst).nodup_iff.mpr hnd
  rw [List.pairwise_map]
  refine (hle.and (List.pairwise_map.mp hne)).imp ?_
  intro a b h
  exact Nat.lt_of_le_of_ne h.1 h.2

theorem shiftBy_perm {size : Nat} {ps qs : List Nat} (h : ps.Perm qs) :
    shiftBy size ps = shiftBy size qs := by
  funext pos
  unfold shiftBy
  rw [h.countP_eq]

/-- The map of a round that relaxes the uses `done`. -/
def roundShift (b : CodeBuffer) (done : List Nat) : Nat → Nat :=
  shiftBy 4 (done.map fun i => b.useOffset i + 4)

section RoundShift

variable (b : CodeBuffer) (done : List Nat)

theorem roundShift_strictMono : StrictMono (roundShift b done) :=
  shiftBy_strictMono _ _

theorem roundShift_mod (off : Nat) : roundShift b done off % 4 = off % 4 := by
  unfold roundShift shiftBy
  omega

theorem roundShift_zero : roundShift b done 0 = 0 := by
  unfold roundShift shiftBy
  rw [countP_eq_zero_of_lt]
  intro p hp
  obtain ⟨i, -, rfl⟩ := List.mem_map.mp hp
  omega

variable {b done}
variable (hb : UsesApart b done)
include hb

theorem roundShift_within {k : Nat} (hoff : off % 4 = 0) (hk : k < 4) :
    roundShift b done (off + k) = roundShift b done off + k := by
  have h : roundShift b done (off + k) = roundShift b done off + (off + k - off) :=
    shiftBy_of_gap (by omega) ?_
  · rw [Nat.add_sub_cancel_left] at h
    exact h
  · intro p hp
    obtain ⟨i, hi, rfl⟩ := List.mem_map.mp hp
    have := hb.aligned i hi
    omega

theorem roundShift_gap (hoff : off % 4 = 0) (hne : ∀ i ∈ done, off ≠ b.useOffset i) :
    roundShift b done (off + 4) = roundShift b done off + 4 := by
  have h : roundShift b done (off + 4) = roundShift b done off + (off + 4 - off) :=
    shiftBy_of_gap (by omega) ?_
  · rw [Nat.add_sub_cancel_left] at h
    exact h
  · intro p hp
    obtain ⟨i, hi, rfl⟩ := List.mem_map.mp hp
    have := hb.aligned i hi
    have := hne i hi
    omega

theorem points_nodup (hnd : done.Nodup) : (done.map fun i => b.useOffset i + 4).Nodup := by
  apply hnd.map_on
  intro i hi j hj heq
  exact hb.distinct i hi j hj (by omega)

theorem roundShift_point (hnd : done.Nodup) {i : Nat} (hi : i ∈ done) :
    roundShift b done (b.useOffset i + 4) = roundShift b done (b.useOffset i) + 8 := by
  have h : roundShift b done (b.useOffset i + 4) =
      roundShift b done (b.useOffset i) + (b.useOffset i + 4 - b.useOffset i) + 4 :=
    shiftBy_of_point (points_nodup hb hnd) (List.mem_map_of_mem hi) (by omega) (by omega) ?_
  · rw [Nat.add_sub_cancel_left] at h
    exact h
  · intro p hp h1 h2
    obtain ⟨j, hj, rfl⟩ := List.mem_map.mp hp
    have := hb.aligned i hi
    have := hb.aligned j hj
    omega

end RoundShift

/-- Everything a round does to a buffer whose tables are widened already: `done` are the relaxed
uses, `shift` the map it moves offsets by. -/
structure Round (b : CodeBuffer) (done : List Nat) (b' : CodeBuffer) : Prop where
  length : b'.code.length = roundShift b done b.code.length
  rewritten : ∀ i ∈ done, loadWord b'.code (roundShift b done (b.useOffset i)) =
    rewrittenWord (loadWord b.code (b.useOffset i))
  inserted : ∀ i ∈ done, loadWord b'.code (roundShift b done (b.useOffset i) + 4) =
    insertedWord (loadWord b.code (b.useOffset i))
  frame : ∀ off, off % 4 = 0 → off + 4 ≤ b.code.length → (∀ i ∈ done, off ≠ b.useOffset i) →
    loadWord b'.code (roundShift b done off) = loadWord b.code off
  names : b.labelNames.Extends b'.labelNames
  offsets : ∀ id, (∀ i ∈ done, opcodeOf (loadWord b.code (b.useOffset i)) = opBranch →
      b'.labelNames.names[id]? ≠ some (skipLabel i)) →
    b'.labelOffset id = (b.labelOffset id).map (roundShift b done)
  uses : ∀ (i : Nat) (use : LabelUse), b.labelUses[i]? = some use → b'.labelUses[i]? = some ⟨use.label,
    roundShift b done use.codeOffset +
      (if i ∈ done ∧ opcodeOf (loadWord b.code (b.useOffset i)) = opBranch then 4 else 0), use.addend⟩
  skipOf : ∀ i ∈ done, opcodeOf (loadWord b.code (b.useOffset i)) = opBranch →
    ∃ j id, b.labelUses.length ≤ j ∧
      b'.labelUses[j]? = some ⟨id, roundShift b done (b.useOffset i), 0⟩
  skips : ∀ j use, b.labelUses.length ≤ j → b'.labelUses[j]? = some use →
    ∃ i ∈ done, opcodeOf (loadWord b.code (b.useOffset i)) = opBranch ∧
      use.codeOffset = roundShift b done (b.useOffset i) ∧ use.addend = 0 ∧
      b'.labelNames.names[use.label]? = some (skipLabel i) ∧
      b'.labelOffset use.label = some (roundShift b done (b.useOffset i + 4))
  tables : b'.denseJumpTables = b.denseJumpTables
  functions : b'.functions = b.functions.map fun entry => (entry.1, roundShift b done entry.2)
  instanceInit : b'.instanceInitOffset = if b.instanceInitOffset ≠ 0
    then roundShift b done b.instanceInitOffset else b.instanceInitOffset
  lines : b'.lineTable = b.lineTable.map (shiftLine (roundShift b done))

section ApplyInsertions

variable {b : CodeBuffer} {done : List Nat} {acc : RelaxAcc}

theorem Rewritten.shift_eq (h : Rewritten b done acc) :
    shiftBy 4 ((sortInsertions acc.insertions).map Prod.fst) = roundShift b done := by
  have hperm := (sortInsertions_perm acc.insertions).map Prod.fst
  rw [shiftBy_perm hperm, h.insertions, List.map_map]
  rfl

theorem Rewritten.spliceOk (h : Rewritten b done acc) (hb : UsesApart b done)
    (hnd : done.Nodup) :
    SpliceOk 4 acc.buf.code.length 0
      ((sortInsertions acc.insertions).map fun e => (e.1, wordBytes e.2)) where
  ascending := by
    rw [List.map_map]
    apply sortInsertions_ascending
    rw [h.insertions, List.map_map]
    exact points_nodup hb hnd
  lower := fun _ _ => Nat.zero_le _
  upper := fun e he => by
    obtain ⟨e', he', rfl⟩ := List.mem_map.mp he
    rw [(sortInsertions_perm acc.insertions).mem_iff, h.insertions] at he'
    obtain ⟨i, hi, rfl⟩ := List.mem_map.mp he'
    rw [h.length]
    exact hb.inside i hi
  chunk := fun e he => by
    obtain ⟨e', -, rfl⟩ := List.mem_map.mp he
    exact wordBytes_length _

theorem map_fst_chunks (ins : List (Nat × Word)) :
    (ins.map fun e => (e.1, wordBytes e.2)).map Prod.fst = ins.map Prod.fst := by
  rw [List.map_map]
  rfl

section

variable (h : Rewritten b done acc)
include h

section

variable (hb : UsesApart b done) (hnd : done.Nodup)
include hb hnd

theorem Rewritten.old_word (hoff : off % 4 = 0) (hlen : off + 4 ≤ b.code.length) :
    loadWord (applyInsertions acc).code (roundShift b done off) = loadWord acc.buf.code off := by
  apply loadWord_congr
  intro k hk
  have hs := spliceFrom_getElem?_shiftBy acc.buf.code 0 _ (h.spliceOk hb hnd) (off + k)
    (Nat.zero_le _) (by rw [h.length]; omega)
  rw [map_fst_chunks, h.shift_eq, roundShift_within hb hoff hk, Nat.sub_zero] at hs
  exact hs

theorem Rewritten.new_word {i : Nat} (hi : i ∈ done) :
    loadWord (applyInsertions acc).code (roundShift b done (b.useOffset i) + 4) =
      insertedWord (loadWord b.code (b.useOffset i)) := by
  apply loadWord_of_wordBytes
  intro k hk
  have hmem : (b.useOffset i + 4, wordBytes (insertedWord (loadWord b.code (b.useOffset i)))) ∈
      (sortInsertions acc.insertions).map fun e => (e.1, wordBytes e.2) := by
    apply List.mem_map.mpr
    refine ⟨(b.useOffset i + 4, _), ?_, rfl⟩
    rw [(sortInsertions_perm acc.insertions).mem_iff, h.insertions]
    exact List.mem_map_of_mem hi
  have hs := spliceFrom_getElem?_chunk acc.buf.code 0 _ (h.spliceOk hb hnd) _ _ hmem k hk
  rw [map_fst_chunks, h.shift_eq, roundShift_point hb hnd hi, Nat.sub_zero] at hs
  exact hs

theorem Rewritten.new_length :
    (applyInsertions acc).code.length = roundShift b done b.code.length := by
  have hs := spliceFrom_length acc.buf.code 0 _ (h.spliceOk hb hnd) (Nat.zero_le _)
  have hall : (done.map fun i => b.useOffset i + 4).countP (· ≤ b.code.length) = done.length := by
    have hmap : (done.map fun i => b.useOffset i + 4).length = done.length := List.length_map _
    rw [← hmap, List.countP_eq_length]
    intro p hp
    obtain ⟨i, hi, rfl⟩ := List.mem_map.mp hp
    exact decide_eq_true (hb.inside i hi)
  have hlen : (sortInsertions acc.insertions).length = done.length := by
    rw [(sortInsertions_perm acc.insertions).length_eq, h.insertions, List.length_map]
  unfold roundShift shiftBy
  rw [hall, ← h.length]
  refine hs.trans ?_
  rw [List.length_map, hlen, Nat.sub_zero]

end

theorem applyInsertions_labelOffset (id : Nat) :
    (applyInsertions acc).labelOffset id = (acc.buf.labelOffset id).map (roundShift b done) := by
  unfold CodeBuffer.labelOffset applyInsertions
  dsimp only
  rw [h.shift_eq, List.getElem?_map]
  cases acc.buf.labelOffsets[id]? with
  | none => rfl
  | some entry => rfl

theorem applyInsertions_uses (j : Nat) :
    (applyInsertions acc).labelUses[j]? = (acc.buf.labelUses[j]?).map fun use =>
      ⟨use.label, roundShift b done use.codeOffset + (if j ∈ acc.relaxedBranches then 4 else 0),
          use.addend⟩ := by
  unfold applyInsertions
  dsimp only
  rw [h.shift_eq, List.getElem?_mapIdx, List.getElem?_map, Option.map_map]
  congr 1
  funext use
  dsimp only [Function.comp]
  split <;> rfl

theorem Rewritten.round (hb : UsesApart b done)
    (hnd : done.Nodup) :
    Round b done (applyInsertions acc) where
  length := h.new_length hb hnd
  rewritten := fun i hi => by
    rw [h.old_word hb hnd (hb.aligned i hi) (hb.inside i hi), h.word i hi]
  inserted := fun i hi => h.new_word hb hnd hi
  frame := fun off hoff hlen hne => by
    rw [h.old_word hb hnd hoff hlen, h.frame off hoff hne]
  names := h.names
  offsets := fun id hid => by
    rw [applyInsertions_labelOffset h, h.offsets id fun i hi => ?_]
    obtain ⟨h1, h2⟩ := (h.relaxed i).mp hi
    exact hid i h1 h2
  uses := fun i use hu => by
    have hi : i < b.labelUses.length := (List.getElem?_eq_some_iff.mp hu).1
    rw [applyInsertions_uses h, h.getElem?_uses hi, hu, Option.map_some]
    simp only [h.relaxed i]
  skipOf := fun i hi hop => by
    obtain ⟨j, id, hj, hu⟩ := h.skipOf i ((h.relaxed i).mpr ⟨hi, hop⟩)
    refine ⟨j, id, hj, ?_⟩
    rw [applyInsertions_uses h, hu, Option.map_some, if_neg, Nat.add_zero]
    intro hmem
    have := hb.bound j ((h.relaxed j).mp hmem).1
    omega
  skips := fun j use hj hu => by
    rw [applyInsertions_uses h] at hu
    obtain ⟨u, hu', rfl⟩ := Option.map_eq_some_iff.mp hu
    obtain ⟨i, hi, ho, ha, hn, hl⟩ := h.skips j u hj hu'
    obtain ⟨hd, hop⟩ := (h.relaxed i).mp hi
    have hj' : j ∉ acc.relaxedBranches := fun hmem => by
      have := hb.bound j ((h.relaxed j).mp hmem).1
      omega
    refine ⟨i, hd, hop, ?_, ha, hn, ?_⟩
    · simp only [if_neg hj', ho, Nat.add_zero]
    · rw [applyInsertions_labelOffset h]
      simp only [hl, Option.map_some]
  tables := h.tables
  functions := by
    unfold applyInsertions
    dsimp only
    rw [h.shift_eq, h.functions]
  instanceInit := by
    unfold applyInsertions
    dsimp only
    rw [h.shift_eq, h.instanceInit]
  lines := by
    unfold applyInsertions
    dsimp only
    rw [h.shift_eq, h.lines]

end

end ApplyInsertions

/-! ## 4. The round -/

namespace CodeBuffer

def marked (b : CodeBuffer) : List Nat :=
  (List.range b.labelUses.length).filter fun i => (markRelaxed b).1.getD i false

/-- The buffer once the tables that relax are rescaled. -/
def widened (b : CodeBuffer) : CodeBuffer := { b with code := (markRelaxed b).2 }

def Unreachable (b : CodeBuffer) (i : Nat) : Prop :=
  ∃ use, b.labelUses[i]? = some use ∧ outOfReach b use = true

def Overflows (b : CodeBuffer) (table : DenseJumpTable) : Prop :=
  ∃ k, table.Holds k ∧ b.Unreachable k

/-- Dense tables index into the uses, without sharing any or each other's dispatch word. -/
structure TablesApart (b : CodeBuffer) : Prop where
  inRange : ∀ t ∈ b.denseJumpTables, t.firstUse + t.count ≤ b.labelUses.length
  apart : b.denseJumpTables.Pairwise DenseJumpTable.Apart
  dispatch : b.denseJumpTables.Pairwise (DispatchApart b.labelUses)

theorem nodup_marked (b : CodeBuffer) : b.marked.Nodup := List.nodup_range.filter _

theorem unreachable_iff (b : CodeBuffer) (i : Nat) :
    (b.labelUses.map (outOfReach b))[i]? = some true ↔ b.Unreachable i := by
  rw [List.getElem?_map, Option.map_eq_some_iff]
  rfl

theorem fires_iff_overflows (b : CodeBuffer) (table : DenseJumpTable) :
    table.Fires (b.labelUses.map (outOfReach b)) ↔ b.Overflows table := by
  simp only [DenseJumpTable.Fires, Overflows, unreachable_iff]

section Marks

variable {b : CodeBuffer}

section

variable (h : b.TablesApart)
include h

theorem TablesApart.inRange_map :
    ∀ t ∈ b.denseJumpTables, t.firstUse + t.count ≤ (b.labelUses.map (outOfReach b)).length := by
  rw [List.length_map]
  exact h.inRange

theorem TablesApart.length_marks :
    (markRelaxed b).1.length = b.labelUses.length ∧ (markRelaxed b).2.length = b.code.length := by
  have hl := widenTables_length b.labelUses b.denseJumpTables
    (b.labelUses.map (outOfReach b)) b.code h.inRange_map
  rw [List.length_map] at hl
  exact hl

theorem TablesApart.mem_marked (i : Nat) :
    i ∈ b.marked ↔ b.Unreachable i ∨ ∃ t ∈ b.denseJumpTables, t.Holds i ∧ b.Overflows t := by
  have hm := widenTables_marks b.labelUses b.denseJumpTables
    (b.labelUses.map (outOfReach b)) b.code h.inRange_map h.apart i
  simp only [unreachable_iff, fires_iff_overflows] at hm
  rw [← hm, marked, List.mem_filter, List.mem_range, ← h.length_marks.1, List.getD_eq_getElem?_getD]
  change _ ↔ (markRelaxed b).1[i]? = some true
  constructor
  · rintro ⟨hlt, hv⟩
    rw [List.getElem?_eq_getElem hlt, Option.getD_some] at hv
    rw [List.getElem?_eq_getElem hlt, hv]
  · intro hv
    exact ⟨(List.getElem?_eq_some_iff.mp hv).1, by rw [hv, Option.getD_some]⟩

theorem TablesApart.word_of_ne (off : Nat)
    (hne : ∀ t ∈ b.denseJumpTables, b.Overflows t → ∀ d, dispatchOf b.labelUses t = some d →
      d + 4 ≤ off ∨ off + 4 ≤ d) :
    loadWord b.widened.code off = loadWord b.code off :=
  widenTables_word_of_ne b.labelUses b.denseJumpTables _ b.code h.inRange_map h.apart off
    fun t ht hf => hne t ht ((fires_iff_overflows b t).mp hf)

theorem TablesApart.word_of_overflows (hmem : table ∈ b.denseJumpTables) (ho : b.Overflows table)
    (hd : dispatchOf b.labelUses table = some off) (hoff : off + 4 ≤ b.code.length) :
    loadWord b.widened.code off = widenDispatch (loadWord b.code off) :=
  widenTables_word_of_fires b.labelUses b.denseJumpTables _ b.code h.inRange_map h.apart h.dispatch
    table hmem off ((fires_iff_overflows b table).mpr ho) hd hoff

end

end Marks

end CodeBuffer

theorem relaxMarked_eq_foldl (b : CodeBuffer) (h : b.TablesApart) :
    relaxMarked b (markRelaxed b).1 (markRelaxed b).2 =
      b.marked.foldl relaxUse ⟨b.widened, [], []⟩ := by
  unfold relaxMarked CodeBuffer.marked
  rw [List.foldl_filter, h.length_marks.1]
  rfl

/-- A round either finds nothing to relax and ends the loop, or relaxes exactly the marked uses. -/
theorem relaxRound_cases (b : CodeBuffer) (h : b.TablesApart) (hb : UsesApart b.widened b.marked) :
    (b.marked = [] ∧ relaxRound b = none) ∨
      ∃ b', b.marked ≠ [] ∧ relaxRound b = some b' ∧ Round b.widened b.marked b' := by
  have hrew : Rewritten b.widened b.marked (relaxMarked b (markRelaxed b).1 (markRelaxed b).2) := by
    rw [relaxMarked_eq_foldl b h]
    exact (Rewritten.start b.widened).fold b.marked hb (fun _ hk => hk) b.nodup_marked
  have hround : relaxRound
    b = if (relaxMarked b (markRelaxed b).1 (markRelaxed b).2).insertions.isEmpty then none
      else some (applyInsertions (relaxMarked b (markRelaxed b).1 (markRelaxed b).2)) := rfl
  rw [hround, hrew.insertions, List.isEmpty_map]
  by_cases hm : b.marked = []
  · left
    rw [hm]
    exact ⟨rfl, rfl⟩
  · right
    refine ⟨_, hm, if_neg ?_, hrew.round hb b.nodup_marked⟩
    rwa [List.isEmpty_iff]

end Riscv
