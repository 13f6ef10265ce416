import GdscriptCompiler.Riscv.Hart

/-! # LoadImmediate — constants and offsets of any size -/

namespace Riscv

open Lib Hart

/-! ## 1. The emitters -/

def regZero : BitVec 5 := 0
def t0 : BitVec 5 := 5
def t1 : BitVec 5 := 6
def t2 : BitVec 5 := 7
def t3 : BitVec 5 := 28
def t4 : BitVec 5 := 29
def t5 : BitVec 5 := 30

-- the part LUI loads, and the sign-extended rest
def liUpper (imm : Word) : Word := (imm + 0x800) &&& 0xFFFFF000
def liLower (imm : Word) : Word := ((imm &&& 0xFFF) ^^^ 0x800) - 0x800

/-- `emit_li` of a value of 32 bits that no ADDI holds. -/
def emitLi32 (rd : BitVec 5) (imm : Word) : List (Except String Word) :=
  emitUType 0x37 rd (liUpper imm) ::
    if liLower imm ≠ 0 ∨ liUpper imm = 0 then
      [emitIType (if liUpper imm = 0x80000000 then 0x1b else 0x13) rd rd 0 (liLower imm)]
    else []

/-- `emit_li`, with the constant whose pool label the AUIPC uses. -/
def emitLi (rd : BitVec 5) (imm : BitVec 64) : List (Except String Word) × Option (BitVec 64) :=
  if fitsInSigned imm.toInt iTypeImmBits then ([emitIType 0x13 rd regZero 0 (imm.setWidth 32)], none)
  else if fitsInSigned imm.toInt 32 then (emitLi32 rd (imm.setWidth 32), none)
  else ([emitUType 0x17 rd 0, emitIType 0x03 rd rd 3 0], some imm)

/-! ## 2. Splitting a constant -/

theorem mask_eq (imm : Word) : imm &&& 0xFFF = (imm.setWidth 12).setWidth 32 :=
  BitVec.eq_of_getLsbD_eq fun i hi => by interval_cases i <;> simp

theorem liLower_eq (imm : Word) : liLower imm = (imm.setWidth 12).signExtend 32 := by
  have hall : ∀ m : BitVec 12, (m.setWidth 32 ^^^ 0x800) - 0x800 = m.signExtend 32 := by
    decide +kernel
  rw [liLower, mask_eq]
  exact hall _

theorem liUpper_add_liLower (imm : Word) : liUpper imm + liLower imm = imm := by
  have hall : ∀ m : BitVec 12, m.setWidth 32 ^^^ 0x800 = (m + 0x800).setWidth 32 := by
    decide +kernel
  have hlow : (imm &&& 0xFFF) ^^^ 0x800 = (imm + 0x800) &&& 0xFFF := by
    rw [mask_eq, mask_eq, hall, BitVec.setWidth_add imm 0x800 (by decide)]
    rfl
  have hsplit : ∀ x : Word, (x &&& 0xFFFFF000) + (x &&& 0xFFF) = x := fun x => by
    rw [BitVec.add_eq_or_of_and_eq_zero]
    all_goals exact BitVec.eq_of_getLsbD_eq fun i hi => by interval_cases i <;> simp
  unfold liUpper liLower
  rw [hlow, BitVec.sub_eq_add_neg, ← BitVec.add_assoc, hsplit, ← BitVec.sub_eq_add_neg]
  exact BitVec.add_sub_cancel imm 0x800

theorem page_dvd_liUpper (imm : Word) : 2 ^ 12 ∣ (liUpper imm).toNat := by
  have hshift : liUpper imm = (imm + 0x800) >>> 12 <<< 12 := by
    unfold liUpper
    exact BitVec.eq_of_getLsbD_eq fun i hi => by interval_cases i <;> simp
  rw [hshift, BitVec.toNat_shiftLeft, Nat.shiftLeft_eq]
  omega

theorem liLower_range (imm : Word) :
    -2 ^ 11 ≤ (liLower imm).toInt ∧ (liLower imm).toInt < 2 ^ 11 := by
  rw [liLower_eq, BitVec.toInt_signExtend_of_le (by decide)]
  exact ⟨BitVec.le_toInt .., BitVec.toInt_lt ..⟩

/-- Only a carry into the sign of the upper half makes the sum of the two halves another number. -/
theorem signExtend_split {imm : Word} (hcarry : liUpper imm ≠ 0x80000000) :
    (liUpper imm).signExtend 64 + (liLower imm).signExtend 64 = imm.signExtend 64 := by
  have hsum := congrArg BitVec.toInt (liUpper_add_liLower imm)
  obtain ⟨hlow, hhigh⟩ := liLower_range imm
  have hpage := page_dvd_liUpper imm
  have hupper : (liUpper imm).toNat ≠ 0x80000000 := fun h => hcarry (BitVec.eq_of_toNat_eq h)
  refine BitVec.eq_of_toInt_eq ?_
  rw [BitVec.toInt_add, BitVec.toInt_signExtend_of_le (by decide),
    BitVec.toInt_signExtend_of_le (by decide),
    BitVec.toInt_signExtend_of_le (by decide), ← hsum, BitVec.toInt_add]
  rw [BitVec.toInt_eq_toNat_cond (liUpper imm)] at *
  simp only [Int.bmod_def]
  split <;> omega

theorem fits_iType {offset : Word} (hfits : fitsInSigned offset.toInt iTypeImmBits = true) :
    -2 ^ 11 ≤ offset.toInt ∧ offset.toInt < 2 ^ 11 := by
  rwa [fitsInSigned, Bool.and_eq_true, decide_eq_true_iff, decide_eq_true_iff] at hfits

variable {imm : BitVec 64}

theorem setWidth_of_fits (hfits : fitsInSigned imm.toInt 32 = true) :
    (imm.setWidth 32).signExtend 64 = imm := by
  have hlow : imm.setWidth 32 = imm.extractLsb' 0 32 := BitVec.eq_of_getLsbD_eq fun i hi => by simp [hi]
  rw [hlow]
  exact signExtend_extractLsb'_of_fits (by decide) (by decide) hfits

/-! ## 3. Loading a constant -/

/-- Nothing but the register differs, and it holds the value. -/
structure Sets (h h' : Hart) (rd : BitVec 5) (v : BitVec 64) : Prop where
  get : ∀ r, h'.get r = if r = rd ∧ r ≠ 0 then v else h.get r
  mem : h'.mem = h.mem
  f : h'.f = h.f

variable {h h₁ h₂ : Hart} {rd : BitVec 5}

theorem Sets.write (h : Hart) (rd : BitVec 5) (v : BitVec 64) : Sets h (h.write rd v) rd v where
  get := get_write h rd v
  mem := rfl
  f := rfl

theorem Sets.trans {v w : BitVec 64} (hfirst : Sets h h₁ rd v) (hthen : Sets h₁ h₂ rd w) :
    Sets h h₂ rd w where
  get r := by rw [hthen.get, hfirst.get]; split <;> rfl
  mem := hthen.mem.trans hfirst.mem
  f := hthen.f.trans hfirst.f

theorem emitLi32_sets (h : Hart) (rd : BitVec 5) (imm : Word) :
    ∃ h', run h (emitLi32 rd imm) = some h' ∧ Sets h h' rd (imm.signExtend 64) := by
  obtain ⟨hlow, hhigh⟩ := liLower_range imm
  let h₁ := h.write rd ((liUpper imm).signExtend 64 + 0)
  have hlui : ∀ rest, run h (emitUType 0x37 rd (liUpper imm) :: rest) = run h₁ rest := fun rest =>
    run_encode h (e := .u 0x37 rd (liUpper imm)) (.inl rfl) (page_dvd_liUpper imm) rest
  have hupper : Sets h h₁ rd ((liUpper imm).signExtend 64) := by
    rw [← BitVec.add_zero ((liUpper imm).signExtend 64)]
    exact .write ..
  unfold emitLi32
  rw [hlui]
  split
  · have haddi : ∀ opcode, Decoded (.i opcode rd 0 rd (liLower imm)) →
        run h₁ [emitIType opcode rd rd 0 (liLower imm)] = h₁.exec
          (.i opcode rd 0 rd (liLower imm)) := fun opcode hopcode =>
      (run_encode h₁ hopcode ⟨hlow, hhigh⟩ []).trans (Option.bind_fun_some _)
    -- a write of x0 leaves nothing to compare
    have hsum : ∀ v, (rd ≠ 0 → v = imm.signExtend 64) →
      Sets h (h₁.write rd v) rd (imm.signExtend 64) := by
      intro v hv
      by_cases hrd : rd = 0
      · subst hrd
        exact ⟨fun r => by rw [(hupper.trans (.write h₁ 0 v)).get, if_neg (by grind),
          if_neg (by grind)], rfl, rfl⟩
      · rw [← hv hrd]
        exact hupper.trans (.write ..)
    have hget : rd ≠ 0 → h₁.get rd = (liUpper imm).signExtend 64 := fun hrd => by rw [hupper.get,
      if_pos ⟨rfl, hrd⟩]
    by_cases hcarry : liUpper imm = 0x80000000
    · rw [if_pos hcarry, haddi 0x1b (.inr (.inl rfl))]
      refine ⟨_, rfl, hsum _ fun hrd => ?_⟩
      rw [hget hrd, BitVec.setWidth_add _ _ (by decide), setWidth_signExtend, setWidth_signExtend,
        liUpper_add_liLower]
    · rw [if_neg hcarry, haddi 0x13 (.inl rfl)]
      refine ⟨_, rfl, hsum _ fun hrd => ?_⟩
      rw [hget hrd, signExtend_split hcarry]
  · rename_i hnone
    refine ⟨h₁, rfl, ?_⟩
    have hzero : liLower imm = 0#32 := not_not.mp fun h => hnone (.inl h)
    rw [← liUpper_add_liLower imm, hzero, BitVec.add_zero]
    exact hupper

theorem emitLi_sets (h : Hart) (rd : BitVec 5) (hword : fitsInSigned imm.toInt 32 = true) :
    (emitLi rd imm).2 = none ∧ ∃ h', run h (emitLi rd imm).1 = some h' ∧ Sets h h' rd imm := by
  have himm := setWidth_of_fits hword
  unfold emitLi
  split
  · rename_i hshort
    have hint : (imm.setWidth 32).toInt = imm.toInt := by
      rw [← BitVec.toInt_signExtend_of_le (v := 64) (by decide), himm]
    refine ⟨rfl, _, run_encode h (e := .i 0x13 rd 0 regZero (imm.setWidth 32)) (.inl rfl)
      (fits_iType (hint ▸ hshort)) [], ?_⟩
    have hvalue : h.get regZero + (imm.setWidth 32).signExtend 64 = imm := by
      rw [himm]
      exact BitVec.zero_add imm
    rw [hvalue]
    exact .write ..
  · have hsets := emitLi32_sets h rd (imm.setWidth 32)
    rw [himm] at hsets
    exact ⟨rfl, hsets⟩

/-! ## 4. Offsets of any size -/

def emitAddOffset (rd base : BitVec 5) (offset : Word) : List (Except String Word) :=
  if fitsInSigned offset.toInt iTypeImmBits then [emitIType 0x13 rd base 0 offset]
  else
    -- rd == base would clobber the base before the add
    wide (if rd = base then regWideScratch else rd)
where
  wide (temp : BitVec 5) : List (Except String Word) :=
    (emitLi temp (offset.signExtend 64)).1 ++ [.ok (emitRType 0x33 rd base temp 0 0)]

def emitLoadWithOffset (opcode : BitVec 7) (funct3 : BitVec 3) (rd rs1 : BitVec 5) (offset : Word) :
    List (Except String Word) :=
  if fitsInSigned offset.toInt iTypeImmBits then [emitIType opcode rd rs1 funct3 offset]
  else emitAddOffset regWideScratch rs1 offset ++ [emitIType opcode rd regWideScratch funct3 0]

def emitStoreWithOffset (opcode : BitVec 7) (funct3 : BitVec 3) (rs2 rs1 : BitVec 5)
    (offset : Word) : List (Except String Word) :=
  if fitsInSigned offset.toInt iTypeImmBits then [emitSType opcode rs1 rs2 funct3 offset]
  else emitAddOffset regWideScratch rs1 offset ++ [emitSType opcode regWideScratch rs2 funct3 0]

variable {base : BitVec 5}

theorem emitAddOffset_run (h : Hart) (rd : BitVec 5) (hbase : base ≠ regWideScratch)
    (offset : Word) :
    ∃ h', run h (emitAddOffset rd base offset) = some h' ∧ h'.mem = h.mem ∧ h'.f = h.f ∧
      ∀ r, (r = regWideScratch → rd ≠ base) →
        h'.get r = (h.write rd (h.get base + offset.signExtend 64)).get r := by
  unfold emitAddOffset
  split
  · rename_i hfits
    exact ⟨_, run_encode h (e := .i 0x13 rd 0 base offset) (.inl rfl) (fits_iType hfits) [], rfl,
      rfl, fun _ _ => rfl⟩
  · generalize htemp : (if rd = base then regWideScratch else rd) = temp
    have hword : fitsInSigned (offset.signExtend 64).toInt 32 = true := by
      rw [BitVec.toInt_signExtend_of_le (by decide), fitsInSigned, Bool.and_eq_true,
        decide_eq_true_iff, decide_eq_true_iff]
      exact ⟨BitVec.le_toInt .., BitVec.toInt_lt ..⟩
    obtain ⟨-, h₁, hrun, hget, hmem, hf⟩ := emitLi_sets h temp hword
    have hkept : h₁.get base = h.get base := by
      rw [hget, if_neg fun hand => by grind]
    refine ⟨h₁.write rd (h.get base + h₁.get temp), ?_, hmem, hf, fun r hr => ?_⟩
    · rw [emitAddOffset.wide, run_append, hrun, ← hkept]
      exact run_encode h₁ (e := .r 0x33 rd 0 base temp 0) rfl trivial []
    · rw [get_write, get_write, hget, hget]
      have ht6 : regWideScratch ≠ 0 := by decide
      grind

/-- Equal but for t6 and where execution is. -/
structure SameButT6 (h h' : Hart) : Prop where
  get : ∀ r, r ≠ regWideScratch → h'.get r = h.get r
  mem : h'.mem = h.mem
  f : h'.f = h.f

variable {g : Hart}

/-- The address of an access is the sum, whether in the instruction or through t6. -/
theorem access_run (h : Hart) (hbase : base ≠ regWideScratch) (offset : Word)
    {e : BitVec 5 → Word → Encoding} {access : Hart → BitVec 64 → Option Hart}
    (hdecoded : ∀ rs1 imm, Decoded (e rs1 imm))
    (hrepresentable : ∀ rs1 (imm : Word), -2 ^ 11 ≤ imm.toInt ∧ imm.toInt < 2 ^ 11 →
        (e rs1 imm).Representable)
    (hexec : ∀ (h : Hart) rs1 imm, h.exec (e rs1 imm) = access h (h.get rs1 + imm.signExtend 64))
    (haccess : ∀ h₁, SameButT6 h h₁ → ∃ g', access h₁ (h.get base + offset.signExtend 64) =
        some g' ∧ SameButT6 g g') :
    ∃ h', run h (if fitsInSigned offset.toInt iTypeImmBits then [(e base offset).encode]
      else emitAddOffset regWideScratch base offset ++ [(e regWideScratch 0).encode]) = some h' ∧
        SameButT6 g h' := by
  have hrun : ∀ (h : Hart) rs1 (imm : Word), -2 ^ 11 ≤ imm.toInt ∧ imm.toInt < 2 ^ 11 →
      run h [(e rs1 imm).encode] = access h (h.get rs1 + imm.signExtend 64) := fun h rs1 imm hfits => by
    rw [← hexec, run_encode h (hdecoded ..) (hrepresentable _ _ hfits)]
    exact Option.bind_fun_some _
  split
  · rename_i hfits
    rw [hrun h base offset (fits_iType hfits)]
    exact haccess h ⟨fun _ _ => rfl, rfl, rfl⟩
  · obtain ⟨h₁, hadd, hmem, hf, hget⟩ := emitAddOffset_run h regWideScratch hbase offset
    have ht6 : h₁.get regWideScratch + (0 : Word).signExtend 64 = h.get base + offset.signExtend 64 := by
      rw [hget regWideScratch fun _ => hbase.symm, get_write, if_pos ⟨rfl, by decide⟩]
      exact BitVec.add_zero _
    rw [run_append, hadd, Option.bind_some, hrun h₁ regWideScratch 0 ⟨by decide, by decide⟩, ht6]
    refine haccess h₁ ⟨fun r hr => ?_, hmem, hf⟩
    rw [hget r fun h => absurd h hr, get_write, if_neg fun hand => hr hand.1]

theorem loadInto_same {opcode : BitVec 7} {funct3 : BitVec 3} {a : BitVec 64}
    (hsame : SameButT6 h h₁) (hload : h.loadInto opcode funct3 rd a = some g) :
    ∃ g', h₁.loadInto opcode funct3 rd a = some g' ∧ SameButT6 g g' := by
  have hwrite : ∀ v, SameButT6 (h.write rd v) (h₁.write rd v) := fun v =>
    ⟨fun r hr => by rw [get_write, get_write, hsame.get r hr], hsame.mem, hsame.f⟩
  have hfloat : ∀ v, SameButT6 (h.writeFloat rd v) (h₁.writeFloat rd v) := fun v =>
    ⟨hsame.get, hsame.mem, funext fun r => by rw [writeFloat, writeFloat, hsame.f]⟩
  unfold loadInto at hload ⊢
  rw [hsame.mem]
  split at hload <;> cases hload
  all_goals exact ⟨_, rfl, by first | exact hwrite _ | exact hfloat _⟩

theorem storeAt_same {opcode : BitVec 7} {funct3 : BitVec 3} {rs2 : BitVec 5} {a : BitVec 64}
    (hsame : SameButT6 h h₁) (hdata : rs2 ≠ regWideScratch ∨ opcode = 0x27)
    (hstore : h.storeAt opcode funct3 rs2 a = some g) :
    ∃ g', h₁.storeAt opcode funct3 rs2 a = some g' ∧ SameButT6 g g' := by
  have hvalue : (if opcode = 0x27 then h₁.f rs2 else h₁.get rs2) = if opcode = 0x27 then h.f
    rs2 else h.get rs2 := by
    rw [hsame.f]
    split
    · rfl
    · rename_i hinteger
      exact hsame.get rs2 (hdata.resolve_right hinteger)
  unfold storeAt at hstore ⊢
  rw [hvalue, hsame.mem]
  cases hsize : storeSize opcode funct3 with
  | none => rw [hsize] at hstore; cases hstore
  | some n =>
    rw [hsize] at hstore
    cases hstore
    exact ⟨_, rfl, hsame.get, rfl, hsame.f⟩

/-- Every offset is added or accessed exactly, with the destination and t6 the only registers that
change. -/
theorem wide_offsets (h : Hart) {base : BitVec 5} (hbase : base ≠ regWideScratch) (offset : Word) :
    (∀ rd, ∃ h', run h (emitAddOffset rd base offset) = some h' ∧
      SameButT6 (h.write rd (h.get base + offset.signExtend 64)) h') ∧
    (∀ opcode funct3 rd g, h.loadInto opcode funct3 rd (h.get base + offset.signExtend 64) =
        some g →
      ∃ h', run h (emitLoadWithOffset opcode funct3 rd base offset) = some h' ∧ SameButT6 g h') ∧
    ∀ opcode funct3 rs2 g, rs2 ≠ regWideScratch ∨ opcode = 0x27 →
      h.storeAt opcode funct3 rs2 (h.get base + offset.signExtend 64) = some g →
      ∃ h', run h (emitStoreWithOffset opcode funct3 rs2 base offset) = some h' ∧
        SameButT6 g h' := by
  refine ⟨fun rd => ?_, fun opcode funct3 rd g hload => ?_, fun opcode funct3 rs2 g hdata hstore => ?_⟩
  · obtain ⟨h', hrun, hmem, hf, hget⟩ := emitAddOffset_run h rd hbase offset
    exact ⟨h', hrun, fun r hr => hget r fun h => absurd h hr, hmem, hf⟩
  · have hopcode : opcode = 0x03 ∨ opcode = 0x07 := by
      unfold loadInto at hload
      split at hload
      all_goals first
        | exact .inl (BitVec.eq_of_toNat_eq ‹_›)
        | exact .inr (BitVec.eq_of_toNat_eq ‹_›)
        | cases hload
    refine access_run (e := fun rs1 imm => .i opcode rd funct3 rs1 imm) h hbase offset
      (fun _ _ => .inr (.inr hopcode)) (fun _ _ => id) (fun h rs1 imm => ?_) fun _ hsame =>
      loadInto_same hsame hload
    rcases hopcode with rfl | rfl <;> rfl
  · have hopcode : opcode = 0x23 ∨ opcode = 0x27 := by
      obtain ⟨n, hsize, -⟩ := Option.map_eq_some_iff.mp hstore
      unfold storeSize at hsize
      split at hsize
      all_goals first
        | exact .inl (BitVec.eq_of_toNat_eq ‹_›)
        | exact .inr (BitVec.eq_of_toNat_eq ‹_›)
        | cases hsize
    exact access_run (e := fun rs1 imm => .s opcode funct3 rs1 rs2 imm) h hbase offset
      (fun _ _ => hopcode) (fun _ _ => id) (fun _ _ _ => rfl) fun _ hsame => storeAt_same hsame
      hdata hstore

/-- A page above the stack pointer, into the stack pointer itself. -/
theorem wide_offsets_page :
    let h : Hart := { pc := 0, x := fun _ => 64, f := fun _ => 0, mem := fun _ => 1 }
    (2 : BitVec 5) ≠ regWideScratch ∧
    (∃ h', run h (emitAddOffset 2 2 4096) = some h' ∧ SameButT6 (h.write 2 4160) h') ∧
    (∃ h', run h (emitLoadWithOffset 0x03 4 10 2 4096) = some h' ∧ SameButT6 (h.write 10 1) h') ∧
    ∃ h', run h (emitStoreWithOffset 0x23 3 2 2 4096) = some h' ∧
      SameButT6 { h with pc := 4, mem := store h.mem 8 4160 64 } h' :=
  ⟨by decide, (wide_offsets _ (by decide) 4096).1 2, (wide_offsets _ (by decide) 4096).2.1 0x03 4 10
  _ rfl,
    (wide_offsets _ (by decide) 4096).2.2 0x23 3 2 _ (.inl (by decide)) rfl⟩

end Riscv
