import GdscriptCompiler.Riscv.LoadImmediate
import Mathlib.Data.BitVec

/-!
# IntGlobals — the integer built-ins, evaluated and compiled

`eval_global_int` computes with `int64_t`, where an overflow or a trapping division is undefined.
-/

namespace Riscv

open Lib Hart

/-! ## 1. Evaluation -/

inductive IntGlobal where
  | intIdentity
  | absi
  | signi
  | mini
  | maxi
  | clampi
  | posmod
  | wrapi

-- a signed result, undefined outside its type
def checked (n : Int) : Option (BitVec 64) :=
  if -2 ^ 63 ≤ n ∧ n < 2 ^ 63 then some (BitVec.ofInt 64 n) else none

def checkedRem (x y : BitVec 64) : Option (BitVec 64) :=
  if y = 0 ∨ x = BitVec.intMin 64 ∧ y = -1 then none else some (x.srem y)

namespace IntGlobal

def name : IntGlobal → String
  | intIdentity => ".int_identity"
  | absi => "absi"
  | signi => "signi"
  | mini => "mini"
  | maxi => "maxi"
  | clampi => "clampi"
  | posmod => "posmod"
  | wrapi => "wrapi"

def arity : IntGlobal → Nat
  | intIdentity | absi | signi => 1
  | mini | maxi | posmod => 2
  | clampi | wrapi => 3

-- a zero divisor gives zero, where the remainder would trap
def evalPosmod (a b : BitVec 64) : Option (BitVec 64) :=
  if b = 0 then some 0
  else do
    let value ← checkedRem a b
    if (value.slt 0 && (0 : BitVec 64).slt b) || ((0 : BitVec 64).slt value && b.slt 0) then
      checked (value.toInt + b.toInt)
    else return value

def evalWrapi (a b c : BitVec 64) : Option (BitVec 64) := do
  let range ← checked (c.toInt - b.toInt)
  if range = 0 then return b
  else
    let x ← checked (a.toInt - b.toInt)
    let remainder ← checkedRem x range
    let shifted ← checked (remainder.toInt + range.toInt)
    let wrapped ← checkedRem shifted range
    checked (b.toInt + wrapped.toInt)

def eval (a b c : BitVec 64) : IntGlobal → Option (BitVec 64)
  | intIdentity => some a
  | absi => some ((a ^^^ a.sshiftRight 63) - a.sshiftRight 63)
  | signi => some (if (0 : BitVec 64).slt a then 1 else if a.slt 0 then -1 else 0)
  | mini => some (if a.slt b then a else b)
  | maxi => some (if b.slt a then a else b)
  | clampi => some (if a.slt b then b else if c.slt a then c else a)
  | posmod => evalPosmod a b
  | wrapi => evalWrapi a b c

end IntGlobal

/-- `eval_global_int`; `none` where the C++ is undefined. -/
def evalGlobalInt (fn : IntGlobal) (args : Nat → BitVec 64) (count : Nat) :
    Except String (Option (BitVec 64)) :=
  if count < fn.arity then .error (fn.name ++ " needs " ++ toString fn.arity ++ " arguments")
  else .ok (fn.eval (args 0) (args 1) (args 2))

/-! ## 2. Code -/

/-- An instruction, one of the two that go to a label, or a label. -/
inductive Asm where
  | word (e : Encoding)
  | branch (funct3 : BitVec 3) (rs1 rs2 : BitVec 5) (label : String)
  | jump (label : String)
  | label (name : String)

/-- Code that jumps forward only: what is jumped over is skipped until the label comes. -/
def Asm.run : Option String → Hart → List Asm → Option Hart
  | none, h, [] => some h
  | some _, _, [] => none
  | some l, h, .label l' :: rest => if l = l' then run none h rest else run (some l) h rest
  | some l, h, _ :: rest => run (some l) h rest
  | none, h, .word e :: rest => (h.exec e).bind (run none · rest)
  | none, h, .branch funct3 rs1 rs2 l :: rest =>
    (branchCond funct3 (h.get rs1) (h.get rs2)).bind fun taken => run
    (if taken then some l else none) h rest
  | none, h, .jump l :: rest => run (some l) h rest
  | none, h, .label _ :: rest => run none h rest

namespace IntGlobal

def mv (rd rs : BitVec 5) : Asm := .word (.i 0x13 rd 0 rs 0)
def add (rd rs1 rs2 : BitVec 5) : Asm := .word (.r 0x33 rd 0 rs1 rs2 0)
def sub (rd rs1 rs2 : BitVec 5) : Asm := .word (.r 0x33 rd 0 rs1 rs2 0x20)
def xor (rd rs1 rs2 : BitVec 5) : Asm := .word (.r 0x33 rd 4 rs1 rs2 0)
def slt (rd rs1 rs2 : BitVec 5) : Asm := .word (.r 0x33 rd 2 rs1 rs2 0)
def rem (rd rs1 rs2 : BitVec 5) : Asm := .word (.r 0x33 rd 6 rs1 rs2 1)

-- `emit_global_int_form`, between the loads of the arguments into t3, t4 and t5 and the store of
-- the result from t0
def emitGlobalIntForm : IntGlobal → List Asm
  | intIdentity => [mv t0 t3]
  | absi => [.word (.i 0x13 t1 5 t3 ((16 <<< 6) ||| 63)), xor t0 t3 t1, sub t0 t0 t1]
  | signi => [slt t0 regZero t3, slt t1 t3 regZero, sub t0 t0 t1]
  | mini => [.branch 4 t3 t4 ".pick_first", mv t0 t4, .jump ".pick_done", .label ".pick_first", mv t0 t3,
      .label ".pick_done"]
  | maxi => [.branch 4 t4 t3 ".pick_first", mv t0 t4, .jump ".pick_done", .label ".pick_first", mv t0 t3,
      .label ".pick_done"]
  | clampi =>
    [.branch 4 t3 t4 ".clamp_low", .branch 4 t5 t3 ".clamp_high", mv t0 t3, .jump ".clamp_done",
      .label ".clamp_low", mv t0 t4, .jump ".clamp_done", .label ".clamp_high", mv t0 t5,
        .label ".clamp_done"]
  | posmod => [.branch 0 t4 regZero ".posmod_zero", rem t0 t3 t4,
                .branch 0 t0 regZero ".posmod_done", xor t1 t0 t4,
      .branch 5 t1 regZero ".posmod_done", add t0 t0 t4, .jump ".posmod_done", .label ".posmod_zero",
      .word (.i 0x13 t0 0 regZero 0), .label ".posmod_done"]
  | wrapi => [sub t1 t5 t4, .branch 0 t1 regZero ".wrap_empty", sub t2 t3 t4, rem t2 t2 t1,
               add t2 t2 t1, rem t2 t2 t1,
      add t0 t4 t2, .jump ".wrap_done", .label ".wrap_empty", mv t0 t4, .label ".wrap_done"]

def value (a b c : BitVec 64) : IntGlobal → BitVec 64
  | posmod =>
    if b = 0 then 0
    else if a.srem b = 0 ∨ ¬ (a.srem b ^^^ b).slt 0 then a.srem b else a.srem b + b
  | wrapi => if c - b = 0 then b else b + ((a - b).srem (c - b) + (c - b)).srem (c - b)
  | fn => (fn.eval a b c).getD 0

theorem run_branch {h : Hart} {funct3 : BitVec 3} {rs1 rs2 : BitVec 5} {taken : Bool} {l : String}
    {rest : List Asm} (hcond : branchCond funct3 (h.get rs1) (h.get rs2) = some taken) :
    Asm.run none h (.branch funct3 rs1 rs2 l :: rest) =
      Asm.run (if taken then some l else none) h rest := by
  rw [Asm.run, hcond]
  rfl

theorem emitGlobalIntForm_run (fn : IntGlobal) (h : Hart) :
    ∃ h', Asm.run none h fn.emitGlobalIntForm = some h' ∧
      h'.get t0 = fn.value (h.get t3) (h.get t4) (h.get t5) := by
  have hblt : ∀ {h : Hart} {rs1 rs2 : BitVec 5} {t : Bool}, (h.get rs1).slt (h.get rs2) = t →
      branchCond 4 (h.get rs1) (h.get rs2) = some t := fun h => congrArg some h
  have hbeqz : ∀ {h : Hart} {rs1 : BitVec 5} {t : Bool}, decide (h.get rs1 = 0) = t →
      branchCond 0 (h.get rs1) (h.get regZero) = some t := fun h => by rw [← h]; rfl
  cases fn with
  | intIdentity => exact ⟨_, rfl, by simp [get_write, t0, value, eval]⟩
  | absi => exact ⟨_, rfl, by simp [get_write, t0, t1, t3, value, eval]⟩
  | signi =>
    refine ⟨_, rfl, ?_⟩
    have hboth : ¬ ((0 : BitVec 64).slt (h.get t3) = true ∧ (h.get t3).slt 0 = true) := by
      rw [BitVec.slt_iff_toInt_lt, BitVec.slt_iff_toInt_lt]
      omega
    change flag ((0 : BitVec 64).slt (h.get t3)) - flag ((h.get t3).slt 0) =
      if (0 : BitVec 64).slt (h.get t3) then 1 else if (h.get t3).slt 0 then -1 else 0
    cases hpos : (0 : BitVec 64).slt (h.get t3) <;> cases hneg : (h.get t3).slt 0
    case true.true => exact absurd ⟨hpos, hneg⟩ hboth
    all_goals decide
  | mini =>
    cases hslt : (h.get t3).slt (h.get t4) <;>
      exact ⟨_, (run_branch (hblt hslt)).trans rfl, by simp [get_write, t0, value, eval, hslt]⟩
  | maxi =>
    cases hslt : (h.get t4).slt (h.get t3) <;>
      exact ⟨_, (run_branch (hblt hslt)).trans rfl, by simp [get_write, t0, value, eval, hslt]⟩
  | clampi =>
    cases hlow : (h.get t3).slt (h.get t4) with
    | true => exact ⟨_, (run_branch (hblt hlow)).trans rfl, by simp [get_write, t0, value, eval, hlow]⟩
    | false =>
      cases hhigh : (h.get t5).slt (h.get t3) <;>
        exact ⟨_, (run_branch (hblt hlow)).trans (run_branch (hblt hhigh)),
          by simp [get_write, t0, value, eval, hlow, hhigh]⟩
  | posmod =>
    cases hzero : decide (h.get t4 = 0) with
    | true => exact ⟨_, (run_branch (hbeqz hzero)).trans rfl,
                by simp [get_write, t0, value, of_decide_eq_true hzero]; rfl⟩
    | false =>
      have hb := of_decide_eq_false hzero
      let h₁ := h.write t0 (if h.get t4 = 0 then h.get t3 else (h.get t3).srem (h.get t4))
      have hrem : h₁.get t0 = (h.get t3).srem (h.get t4) := by
        rw [get_write, if_pos ⟨rfl, by decide⟩, if_neg hb]
      have hrun : Asm.run none h posmod.emitGlobalIntForm = Asm.run none h₁
        (posmod.emitGlobalIntForm.drop 2) :=
        (run_branch (hbeqz hzero)).trans rfl
      rw [hrun]
      cases hdone : decide (h₁.get t0 = 0) with
      | true =>
        refine ⟨_, (run_branch (hbeqz hdone)).trans rfl, ?_⟩
        rw [value, if_neg hb, if_pos (.inl (hrem ▸ of_decide_eq_true hdone)), hrem]
      | false =>
        have hne := of_decide_eq_false hdone
        let h₂ := h₁.write t1 (h₁.get t0 ^^^ h₁.get t4)
        have hsign : h₂.get t1 = (h.get t3).srem (h.get t4) ^^^ h.get t4 := by
          rw [get_write, if_pos ⟨rfl, by decide⟩, hrem]
          rfl
        have hrun' : Asm.run none h₁ (posmod.emitGlobalIntForm.drop 2) =
            Asm.run none h₂ (posmod.emitGlobalIntForm.drop 4) := (run_branch (hbeqz hdone)).trans rfl
        have hbgez : ∀ {t : Bool}, (h₂.get t1).slt 0 = t →
          branchCond 5 (h₂.get t1) (h₂.get regZero) = some !t :=
          fun h => by rw [← h]; rfl
        rw [hrun', value, if_neg hb, ← hsign]
        rw [hrem] at hne
        cases hslt : (h₂.get t1).slt 0 with
        | false =>
          refine ⟨_, (run_branch (hbgez hslt)).trans rfl, ?_⟩
          rw [if_pos (.inr Bool.false_ne_true), ← hrem]
          rfl
        | true =>
          refine ⟨_, (run_branch (hbgez hslt)).trans rfl, ?_⟩
          rw [if_neg fun h => h.elim hne fun hnot => hnot rfl, ← hrem]
          rfl
  | wrapi =>
    let h₁ := h.write t1 (h.get t5 - h.get t4)
    cases hempty : decide (h₁.get t1 = 0) with
    | true =>
      refine ⟨_, (run_branch (h := h₁) (hbeqz hempty)).trans rfl, ?_⟩
      rw [value, if_pos (of_decide_eq_true hempty : h.get t5 - h.get t4 = 0)]
      exact BitVec.add_zero _
    | false =>
      have hrange : h.get t5 - h.get t4 ≠ 0 := of_decide_eq_false hempty
      refine ⟨_, (run_branch (h := h₁) (hbeqz hempty)).trans rfl, ?_⟩
      rw [value, if_neg hrange]
      change _ + (if h.get t5 - h.get t4 = 0 then _ else BitVec.srem
        ((if h.get t5 - h.get t4 = 0 then _ else _) + _) _) = _
      rw [if_neg hrange, if_neg hrange]
      rfl

/-! ## 3. Where they agree -/

def Fits (n : Int) : Prop := -2 ^ 63 ≤ n ∧ n < 2 ^ 63

/-- No step overflows and no remainder traps. -/
def Defined (a b c : BitVec 64) : IntGlobal → Prop
  | posmod => ¬ (a = BitVec.intMin 64 ∧ b = -1)
  | wrapi => Fits (c.toInt - b.toInt) ∧ (c = b ∨ Fits (a.toInt - b.toInt) ∧
      ¬ (a.toInt - b.toInt = -2 ^ 63 ∧ c.toInt - b.toInt = -1) ∧
      Fits ((a.toInt - b.toInt).tmod (c.toInt - b.toInt) + (c.toInt - b.toInt)))
  | _ => True

theorem toInt_of_fits {n : Int} (h : Fits n) : (BitVec.ofInt 64 n).toInt = n :=
  BitVec.toInt_ofInt_eq_self (by decide) h.1 h.2

theorem checked_eq {n : Int} (h : Fits n) : checked n = some (BitVec.ofInt 64 n) := if_pos h

theorem checked_none {n : Int} (h : ¬ Fits n) : checked n = none := if_neg h

theorem ofInt_add_toInt (x y : BitVec 64) : BitVec.ofInt 64 (x.toInt + y.toInt) = x + y := by
  rw [BitVec.ofInt_add, BitVec.ofInt_toInt, BitVec.ofInt_toInt]

theorem ofInt_sub_toInt (x y : BitVec 64) : BitVec.ofInt 64 (x.toInt - y.toInt) = x - y := by
  refine BitVec.eq_of_toInt_eq ?_
  rw [BitVec.toInt_ofInt, BitVec.toInt_sub]

theorem checkedRem_eq {x y : BitVec 64} (hy : y.toInt ≠ 0)
    (h : ¬ (x.toInt = -2 ^ 63 ∧ y.toInt = -1)) :
    checkedRem x y = some (x.srem y) := by
  refine if_neg fun hor => ?_
  rcases hor with rfl | ⟨rfl, rfl⟩
  · exact hy rfl
  · exact h ⟨by decide, by decide⟩

/-- The evaluator and the code have one value wherever the evaluator has one. -/
def Settled (fn : IntGlobal) (a b c : BitVec 64) : Prop :=
  (fn.Defined a b c ∧ fn.eval a b c = some (fn.value a b c)) ∨
  (¬ fn.Defined a b c ∧ fn.eval a b c = none)

/-- The remainder is moved into the sign of the divisor exactly where the two signs differ. -/
theorem signs_differ {r b : BitVec 64} (hb : b.toInt ≠ 0) :
    ((r.slt 0 && (0 : BitVec 64).slt b) || ((0 : BitVec 64).slt r && b.slt 0)) = true ↔
      ¬ (r = 0 ∨ ¬ (r ^^^ b).slt 0 = true) := by
  have hxor : (r ^^^ b).slt 0 = (decide (r.toInt < 0) ^^ decide (b.toInt < 0)) := by
    rw [← BitVec.msb_eq_toInt, ← BitVec.msb_eq_toInt, ← BitVec.msb_xor]
    exact BitVec.slt_zero_eq_msb
  have hzero : r = 0 ↔ r.toInt = 0 := ⟨fun h => by rw [h]; rfl, fun h => BitVec.eq_of_toInt_eq h⟩
  have h0 : (0 : BitVec 64).toInt = 0 := rfl
  rw [hxor, hzero, BitVec.slt_eq_decide, BitVec.slt_eq_decide, BitVec.slt_eq_decide,
    BitVec.slt_eq_decide, h0]
  rcases Int.lt_trichotomy r.toInt 0 with hr | hr | hr <;>
    rcases Int.lt_or_lt_of_ne hb with hlt | hlt <;>
    simp [hr, hlt] <;> omega

theorem posmod_settled (a b c : BitVec 64) : posmod.Settled a b c := by
  change (¬ (a = BitVec.intMin 64 ∧ b = -1) ∧ evalPosmod a b = some (if b = 0 then 0 else _)) ∨
    (¬ ¬ (a = BitVec.intMin 64 ∧ b = -1) ∧ evalPosmod a b = none)
  unfold evalPosmod
  by_cases hb : b = 0
  · subst hb
    exact .inl ⟨fun h => absurd h.2 (by decide), rfl⟩
  rw [if_neg hb, if_neg hb]
  by_cases hover : a = BitVec.intMin 64 ∧ b = -1
  · rw [checkedRem, if_pos (.inr hover)]
    exact .inr ⟨not_not.mpr hover, rfl⟩
  have hrem : checkedRem a b = some (a.srem b) := if_neg fun h => h.elim hb hover
  have hb0 : b.toInt ≠ 0 := fun h => hb (BitVec.eq_of_toInt_eq h)
  have hdiffer := signs_differ (r := a.srem b) hb0
  rw [hrem, Option.bind_eq_bind, Option.bind_some]
  refine .inl ⟨hover, ?_⟩
  by_cases hkept : a.srem b = 0 ∨ ¬ (a.srem b ^^^ b).slt 0 = true
  · rw [if_pos hkept, if_neg fun h => hdiffer.mp h hkept]
    rfl
  · have hsum : Fits ((a.srem b).toInt + b.toInt) := by
      have hsigns := hdiffer.mpr hkept
      have h0 : (0 : BitVec 64).toInt = 0 := rfl
      simp only [BitVec.slt_eq_decide, h0, Bool.or_eq_true, Bool.and_eq_true,
        decide_eq_true_eq] at hsigns
      have hr := And.intro (a.srem b).le_toInt (a.srem b).toInt_lt
      have hb := And.intro b.le_toInt b.toInt_lt
      unfold Fits
      omega
    rw [if_neg hkept, if_pos (hdiffer.mpr hkept), checked_eq hsum, ofInt_add_toInt]

theorem wrapped_range (x : Int) {r : Int} (hr : 0 < r) :
    0 ≤ (x.tmod r + r).tmod r ∧ (x.tmod r + r).tmod r < r := by
  have hlow := Int.lt_tmod_of_pos x hr
  exact ⟨Int.tmod_nonneg r (by omega), Int.tmod_lt_of_pos _ hr⟩

theorem wrapped_fits {b c : Int} (x : Int) (hb : Fits b) (hc : Fits c) (hne : c ≠ b) :
    Fits (b + (x.tmod (c - b) + (c - b)).tmod (c - b)) := by
  unfold Fits at *
  rcases Int.lt_or_lt_of_ne hne with hneg | hpos
  · have hmirrored := wrapped_range (-x) (r := b - c) (by omega)
    have hsum : (-x).tmod (b - c) + (b - c) = -(x.tmod (c - b) + (c - b)) := by
      rw [← Int.neg_sub c b, Int.neg_tmod, Int.tmod_neg]
      omega
    rw [hsum, Int.neg_tmod, ← Int.neg_sub c b, Int.tmod_neg] at hmirrored
    omega
  · have := wrapped_range x (r := c - b) (by omega)
    omega

theorem wrapi_settled (a b c : BitVec 64) : wrapi.Settled a b c := by
  change (Defined a b c wrapi ∧ evalWrapi a b c = some (if c - b = 0 then b else _)) ∨
    (¬ Defined a b c wrapi ∧ evalWrapi a b c = none)
  unfold Defined evalWrapi
  by_cases hrange : Fits (c.toInt - b.toInt)
  swap
  · rw [checked_none hrange]
    exact .inr ⟨fun h => hrange h.1, rfl⟩
  rw [checked_eq hrange, Option.bind_eq_bind, Option.bind_some, ofInt_sub_toInt]
  have hr : (c - b).toInt = c.toInt - b.toInt := by rw [← ofInt_sub_toInt, toInt_of_fits hrange]
  by_cases heq : c = b
  · have hzero : c - b = 0 := by rw [heq]; exact BitVec.sub_self b
    rw [if_pos hzero, if_pos hzero]
    exact .inl ⟨⟨hrange, .inl heq⟩, rfl⟩
  have hint : c.toInt ≠ b.toInt := fun h => heq (BitVec.eq_of_toInt_eq h)
  have hne : c - b ≠ 0 := fun h => by
    rw [h] at hr
    change 0 = _ at hr
    omega
  rw [if_neg hne, if_neg hne]
  by_cases hx : Fits (a.toInt - b.toInt)
  swap
  · rw [checked_none hx]
    exact .inr ⟨fun h => h.2.elim heq fun h => hx h.1, rfl⟩
  rw [checked_eq hx, Option.bind_some, ofInt_sub_toInt]
  have hxi : (a - b).toInt = a.toInt - b.toInt := by rw [← ofInt_sub_toInt, toInt_of_fits hx]
  by_cases htrap : a.toInt - b.toInt = -2 ^ 63 ∧ c.toInt - b.toInt = -1
  · have hboth : a - b = BitVec.intMin 64 ∧ c - b = -1 :=
      ⟨BitVec.eq_of_toInt_eq (hxi.trans htrap.1), BitVec.eq_of_toInt_eq (hr.trans htrap.2)⟩
    rw [checkedRem, if_pos (.inr hboth)]
    exact .inr ⟨fun h => h.2.elim heq fun h => h.2.1 htrap, rfl⟩
  rw [checkedRem_eq (by omega) (by rwa [hxi, hr]), Option.bind_some]
  have hrem : ((a - b).srem (c - b)).toInt = (a.toInt - b.toInt).tmod (c.toInt - b.toInt) := by
    rw [BitVec.toInt_srem, hxi, hr]
  by_cases hshift : Fits ((a.toInt - b.toInt).tmod (c.toInt - b.toInt) + (c.toInt - b.toInt))
  swap
  · rw [hrem, hr, checked_none hshift]
    exact .inr ⟨fun h => h.2.elim heq fun h => hshift h.2.2, rfl⟩
  refine .inl ⟨⟨hrange, .inr ⟨hx, htrap, hshift⟩⟩, ?_⟩
  have hshifted : ((a - b).srem (c - b) + (c - b)).toInt =
      (a.toInt - b.toInt).tmod (c.toInt - b.toInt) + (c.toInt - b.toInt) := by
    rw [← ofInt_add_toInt, hrem, hr, toInt_of_fits hshift]
  have hlast : ¬ (((a - b).srem (c - b) + (c - b)).toInt = -2 ^ 63 ∧ (c - b).toInt = -1) := by
    rw [hshifted, hr]
    intro h
    rw [h.2, Int.tmod_neg, Int.tmod_one] at h
    omega
  rw [checked_eq (by rwa [hrem, hr]), Option.bind_some, ofInt_add_toInt,
    checkedRem_eq (by omega) hlast, Option.bind_some, checked_eq, ofInt_add_toInt]
  rw [BitVec.toInt_srem, hshifted, hr]
  exact wrapped_fits _ ⟨b.le_toInt, b.toInt_lt⟩ ⟨c.le_toInt, c.toInt_lt⟩ hint

theorem settled (fn : IntGlobal) (a b c : BitVec 64) : fn.Settled a b c := by
  cases fn with
  | posmod => exact posmod_settled a b c
  | wrapi => exact wrapi_settled a b c
  | _ => exact .inl ⟨trivial, rfl⟩

/-- The evaluator is defined, with the value the code leaves, just where no step of it overflows or
traps. -/
theorem evalGlobalInt_agrees_iff (fn : IntGlobal) {args : Nat → BitVec 64} {count : Nat}
    (hcount : fn.arity ≤ count) {h : Hart} (ha : h.get t3 = args 0) (hb : h.get t4 = args 1)
    (hc : h.get t5 = args 2) :
    ∃ h', Asm.run none h fn.emitGlobalIntForm = some h' ∧
      (evalGlobalInt fn args count = .ok (some (h'.get t0)) ↔
          fn.Defined (args 0) (args 1) (args 2)) := by
  obtain ⟨h', hrun, hvalue⟩ := fn.emitGlobalIntForm_run h
  refine ⟨h', hrun, ?_⟩
  rw [evalGlobalInt, if_neg (Nat.not_lt.mpr hcount), hvalue, ha, hb, hc]
  rcases fn.settled (args 0) (args 1) (args 2) with ⟨hdefined, heval⟩ | ⟨hundefined, heval⟩
  · rw [heval]
    exact iff_of_true rfl hdefined
  · rw [heval]
    exact iff_of_false (fun h => by cases h) hundefined

theorem evalGlobalInt_agrees_iff_wrapped :
    let args : Nat → BitVec 64 := fun i => if i = 0 then -7 else if i = 1 then 0 else 5
    let h : Hart := ⟨0, fun r => if r = t3 then -7 else if r = t4 then 0 else 5, 0, 0⟩
    wrapi.arity ≤ 3 ∧ h.get t3 = args 0 ∧ h.get t4 = args 1 ∧ h.get t5 = args 2 ∧
      ∃ h', Asm.run none h wrapi.emitGlobalIntForm = some h' ∧
        (evalGlobalInt wrapi args 3 = .ok (some (h'.get t0)) ↔ wrapi.Defined (-7) 0 5) :=
  ⟨by decide, rfl, rfl, rfl, evalGlobalInt_agrees_iff wrapi (by decide) rfl rfl rfl⟩

/-- `posmod` of the least integer and −1 traps, and `wrapi` over the whole range overflows. -/
theorem posmod_traps :
    evalGlobalInt .posmod (fun i => if i = 0 then BitVec.intMin 64 else -1) 2 = .ok none ∧
      evalGlobalInt .wrapi (fun i => if i = 0 then 0 else if i = 1 then BitVec.intMin 64 else
          BitVec.intMax 64) 3 = .ok none :=
  ⟨by decide +kernel, by decide +kernel⟩

end IntGlobal

end Riscv
