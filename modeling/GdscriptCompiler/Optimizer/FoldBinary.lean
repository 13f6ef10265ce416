import GdscriptCompiler.Ir.Interpreter
import GdscriptCompiler.Lib.Comparison
import Mathlib.Data.Int.Basic

/-!
# FoldBinary — arithmetic at compile time and at run time

The folder promotes to float on the type hint as well as on an operand, and reads `int_value` of
whatever is not a FLOAT, which is zero for a BOOL or a STRING.
-/

namespace Optimizer

open Lib Ir

/-- The float primitives both evaluators call. -/
structure FloatOps (F : Type) extends Comparison F where
  zero : F
  one : F
  ofInt : Int64 → F
  toInt : F → Int64
  add : F → F → F
  sub : F → F → F
  mul : F → F → F
  div : F → F → F
  fmod : F → F → F

-- what is known of the primitives: 0 converts to 0.0, which compares equal to itself
structure FloatOps.Lawful {F : Type} (ops : FloatOps F) : Prop where
  ofInt_zero : ops.ofInt 0 = ops.zero
  eq_zero : ops.eq ops.zero ops.zero = true

/-- A `ConstantValue` with its type; the fields of the other types keep their defaults. -/
inductive Constant (F : Type) where
  | int (v : Int64)
  | float (d : F)
  | bool (b : Bool)
  | string (s : String)
  deriving DecidableEq

namespace Constant

variable {F : Type}

def isFloat : Constant F → Bool
  | float _ => true
  | _ => false

def isInt : Constant F → Bool
  | int _ => true
  | _ => false

def isString : Constant F → Bool
  | string _ => true
  | _ => false

-- `int_value`
def intValue : Constant F → Int64
  | int v => v
  | _ => 0

-- `type == FLOAT ? float_value : static_cast<double>(int_value)`
def promoted (ops : FloatOps F) : Constant F → F
  | float d => d
  | c => ops.ofInt c.intValue

def asInt : Constant F → Constant F
  | bool b => int (if b then 1 else 0)
  | c => c

end Constant

variable {F : Type} {ops : FloatOps F} {l r c : Constant F}

/-! ## 1. Folding -/

/-- A `return true`, a `return false`, or a `break` to the code below. -/
inductive Fold (F : Type) where
  | folded (c : Constant F)
  | refused
  | next

def foldFloat (ops : FloatOps F) (op : Opcode) (l r : F) : Fold F :=
  match op with
  | .add => .folded (.float (ops.add l r))
  | .sub => .folded (.float (ops.sub l r))
  | .mul => .folded (.float (ops.mul l r))
  | .div => if ops.eq r ops.zero then .refused else .folded (.float (ops.div l r))
  | .mod => if ops.eq r ops.zero then .refused else .folded (.float (ops.fmod l r))
  | _ => .next

def foldInt (op : Opcode) (l r : Int64) : Fold F :=
  match op with
  | .add => .folded (.int (l + r))
  | .sub => .folded (.int (l - r))
  | .mul => .folded (.int (l * r))
  | .div => if r = 0 ∨ (r = -1 ∧ l = int64Min) then .refused else .folded (.int (l / r))
  | .mod => if r = 0 ∨ (r = -1 ∧ l = int64Min) then .refused else .folded (.int (l % r))
  | .bitAnd => .folded (.int (l &&& r))
  | .bitOr => .folded (.int (l ||| r))
  | .bitXor => .folded (.int (l ^^^ r))
  | .shl => .folded (.int (l <<< (r &&& 63)))
  | .shr => .folded (.int (l >>> (r &&& 63)))
  | _ => .next

def foldComparison (ops : FloatOps F) (op : Opcode) (lhs rhs : Constant F) : Option (Constant F) :=
  if hasEffect op .comparison ∧ (lhs.isInt ∨ lhs.isFloat) ∧ (rhs.isInt ∨ rhs.isFloat) then
    if lhs.isFloat || rhs.isFloat then
      some (.bool (compareBy ops.eq ops.lt ops.le (lhs.promoted ops) (rhs.promoted ops) op))
    else some (.bool (compareInts lhs.intValue rhs.intValue op))
  else none

def tryFoldBinaryOp (ops : FloatOps F) (op : Opcode) (hint : TypeHint) (lhs rhs : Constant F) :
    Option (Constant F) :=
  let isFloatOp := decide (hint = Variant.float) || lhs.isFloat || rhs.isFloat
  let arithmetic :=
    if isFloatOp then foldFloat ops op (lhs.promoted ops) (rhs.promoted ops)
    else if lhs.isInt && rhs.isInt then foldInt op lhs.intValue rhs.intValue
    else .next
  match arithmetic with
  | .folded c => some c
  | .refused => none
  | .next => foldComparison ops op lhs rhs

/-! ## 2. Running -/

namespace Constant

def getInt (ops : FloatOps F) : Constant F → Int64
  | int v => v
  | float d => ops.toInt d
  | bool b => if b then 1 else 0
  | string _ => 0

def getDouble (ops : FloatOps F) : Constant F → F
  | float d => d
  | int v => ops.ofInt v
  | bool b => if b then ops.one else ops.zero
  | string _ => ops.zero

def getString : Constant F → String
  | string s => s
  | _ => ""

def toValue : Constant Float → Value
  | int v => .int v
  | float d => .float d
  | bool b => .bool b
  | string s => .string s

end Constant

/-- `binary_op` over `ops`; `none` is an exception. -/
def binaryOpOn (ops : FloatOps F) (left right : Constant F) (op : Opcode) : Option (Constant F) :=
  if left.isString || right.isString then
    if op = .add && left.isString && right.isString then
      some (.string (left.getString ++ right.getString))
    else none
  else
    let l := left.getInt ops
    let r := right.getInt ops
    match op with
    | .bitAnd => some (.int (l &&& r))
    | .bitOr => some (.int (l ||| r))
    | .bitXor => some (.int (l ^^^ r))
    | .shl => some (.int (l <<< (r &&& 63)))
    | .shr => some (.int (l >>> (r &&& 63)))
    | _ =>
      if left.isFloat || right.isFloat then
        let l := left.getDouble ops
        let r := right.getDouble ops
        match op with
        | .add => some (.float (ops.add l r))
        | .sub => some (.float (ops.sub l r))
        | .mul => some (.float (ops.mul l r))
        | .div => some (.float (ops.div l r))
        | .mod => some (.float (ops.fmod l r))
        | _ => none
      else
        match op with
        | .add => some (.int (l + r))
        | .sub => some (.int (l - r))
        | .mul => some (.int (l * r))
        | .div =>
          if r = 0 then some (.int 0)
          else if r = -1 ∧ l = int64Min then some (.int int64Min)
          else some (.int (l / r))
        | .mod =>
          if r = 0 then some (.int 0)
          else if r = -1 ∧ l = int64Min then some (.int 0)
          else some (.int (l % r))
        | _ => none

def compareOpOn (ops : FloatOps F) (left right : Constant F) (op : Opcode) : Option (Constant F) :=
  let truth (b : Bool) : Constant F := .int (if b then 1 else 0)
  if left.isString || right.isString then
    if !left.isString || !right.isString then
      if op = .cmpEq then some (.int 0)
      else if op = .cmpNeq then some (.int 1)
      else none
    else some (truth (compareStrings left.getString right.getString op))
  else if left.isFloat || right.isFloat then
    some (truth (compareBy ops.eq ops.lt ops.le (left.getDouble ops) (right.getDouble ops) op))
  else some (truth (compareInts (left.getInt ops) (right.getInt ops) op))

def evaluateOn (ops : FloatOps F) (op : Opcode) (left right : Constant F) : Option (Constant F) :=
  if hasEffect op .comparison then compareOpOn ops left right op else binaryOpOn ops left right op

def floatOps (fmod : Float → Float → Float) : FloatOps Float where
  eq l r := l == r
  lt l r := l < r
  le l r := l ≤ r
  zero := 0.0
  one := 1.0
  ofInt := Int64.toFloat
  toInt := Float.toInt64
  add := (· + ·)
  sub := (· - ·)
  mul := (· * ·)
  div := (· / ·)
  fmod := fmod

section Float

variable (fmod : Float → Float → Float) (c l r : Constant Float)

@[simp] theorem toValue_isString : c.toValue.isString = c.isString := by cases c <;> rfl

@[simp] theorem toValue_isFloat : c.toValue.isFloat = c.isFloat := by cases c <;> rfl

@[simp] theorem toValue_isNil : c.toValue.isNil = false := by cases c <;> rfl

@[simp] theorem toValue_getString : c.toValue.getString = c.getString := by cases c <;> rfl

@[simp] theorem toValue_getInt : c.toValue.getInt = c.getInt (floatOps fmod) := by cases c <;> rfl

@[simp] theorem toValue_getDouble : c.toValue.getDouble = c.getDouble (floatOps fmod) := by
  cases c <;> rfl

theorem binaryOp_toValue (op : Opcode) :
    (binaryOp fmod l.toValue r.toValue op).toOption =
      (binaryOpOn (floatOps fmod) l r op).map Constant.toValue := by
  unfold binaryOp binaryOpOn
  simp only [toValue_isString, toValue_isFloat, toValue_getString, toValue_getInt fmod,
    toValue_getDouble fmod]
  split
  · split <;> rfl
  · by_cases hfloat : (l.isFloat || r.isFloat) = true
    · simp only [if_pos hfloat]
      cases op <;> rfl
    · simp only [if_neg hfloat]
      -- the integer quotient and remainder test their divisor
      cases op <;> try rfl
      all_goals dsimp only; split <;> first | rfl | (split <;> rfl)

theorem compareOp_toValue (op : Opcode) :
    (compareOp l.toValue r.toValue op).toOption =
      (compareOpOn (floatOps fmod) l r op).map Constant.toValue := by
  unfold compareOp compareOpOn
  simp only [toValue_isString, toValue_isFloat, toValue_getString, toValue_getInt fmod,
    toValue_getDouble fmod, toValue_isNil, Bool.or_self, Bool.false_eq_true, if_false]
  split
  · split
    · split <;> [rfl; (split <;> rfl)]
    · rfl
  · split <;> rfl

end Float

/-! ## 3. Agreement -/

/-- The folded constant is what the instruction computes, a BOOL standing for 0 or 1. -/
def Agrees (ops : FloatOps F) (op : Opcode) (hint : TypeHint) (l r : Constant F) : Prop :=
  ∀ c, tryFoldBinaryOp ops op hint l r = some c →
    ∃ v, evaluateOn ops op l r = some v ∧ v.asInt = c.asInt

-- a constant whose `int_value` is not its number
def Constant.misread : Constant F → Bool
  | .bool b => b
  | .string _ => true
  | _ => false

-- the folder promotes it to 0.0, and refuses to divide by it
def Constant.readsZero (c : Constant F) : Bool := !c.isFloat && c.intValue = 0

def foldsAsFloat (op : Opcode) (r : Constant F) : Bool :=
  match op with
  | .add | .sub | .mul => true
  | .div | .mod => !r.readsZero
  | _ => false

/-- Float arithmetic on two constants neither of which is a FLOAT, or on one beside a FLOAT that
`int_value` does not stand for. -/
def misfolds (op : Opcode) (hint : TypeHint) (l r : Constant F) : Bool :=
  foldsAsFloat op r &&
    (if l.isFloat || r.isFloat then l.misread || r.misread else decide (hint = Variant.float))

theorem promoted_eq_getDouble (h : ops.Lawful) (hc : c.misread = false) :
    c.promoted ops = c.getDouble ops := by
  cases c with
  | int v => rfl
  | float d => rfl
  | bool b =>
    cases b with
    | false => exact h.ofInt_zero
    | true => cases hc
  | string s => cases hc

theorem not_isString_of_misread (h : c.misread = false) : c.isString = false := by
  cases c <;> first | rfl | cases h

theorem misread_of_numeric (h : c.isInt = true ∨ c.isFloat = true) : c.misread = false := by
  cases c <;> simp_all [Constant.isInt, Constant.isFloat, Constant.misread]

theorem promoted_of_readsZero (h : ops.Lawful) (hc : c.readsZero = true) :
    c.promoted ops = ops.zero := by
  cases c with
  | float d => cases hc
  | int v =>
    have hv : v = 0 := of_decide_eq_true hc
    subst hv
    exact h.ofInt_zero
  | bool b => exact h.ofInt_zero
  | string s => exact h.ofInt_zero

variable {op : Opcode}

theorem foldComparison_agrees (h : ops.Lawful) (hc : foldComparison ops op l r = some c) :
    ∃ v, evaluateOn ops op l r = some v ∧ v.asInt = c.asInt := by
  unfold foldComparison at hc
  split at hc
  · rename_i hshape
    obtain ⟨hop, hl, hr⟩ := hshape
    have hml := misread_of_numeric hl
    have hmr := misread_of_numeric hr
    simp only [evaluateOn, hop, if_true, compareOpOn, not_isString_of_misread hml,
      not_isString_of_misread hmr, Bool.or_self, Bool.false_eq_true, if_false]
    rw [promoted_eq_getDouble h hml, promoted_eq_getDouble h hmr] at hc
    split at hc
    · rename_i hfloat
      rw [if_pos hfloat]
      cases hc
      exact ⟨_, rfl, rfl⟩
    · rename_i hfloat
      rw [if_neg hfloat]
      cases hc
      refine ⟨_, rfl, ?_⟩
      cases l <;> cases r <;> first | rfl | simp_all [Constant.isInt, Constant.isFloat]
  · cases hc

theorem foldInt_agrees (ops : FloatOps F) {l r : Int64} (hc : foldInt op l r = .folded c) :
    evaluateOn ops op (.int l) (.int r) = some c := by
  unfold foldInt at hc
  split at hc <;> try cases hc
  all_goals try rfl
  all_goals
    split at hc <;> cases hc
    rename_i hsafe
    rw [not_or] at hsafe
    change (if r = 0 then _ else if r = -1 ∧ l = int64Min then _ else _) = _
    rw [if_neg hsafe.1, if_neg hsafe.2]
    rfl

theorem foldFloat_agrees (hfloat : (l.isFloat || r.isFloat) = true) (hls : l.isString = false)
    (hrs : r.isString = false) (hl : l.promoted ops = l.getDouble ops)
    (hr : r.promoted ops = r.getDouble ops)
    (hc : foldFloat ops op (l.promoted ops) (r.promoted ops) = .folded c) :
    evaluateOn ops op l r = some c := by
  rw [hl, hr] at hc
  unfold foldFloat at hc
  split at hc <;> try cases hc
  all_goals try (simp [evaluateOn, binaryOpOn, hasEffect, opcodeInfo, hls, hrs, hfloat]; done)
  all_goals
    split at hc <;> cases hc
    simp [evaluateOn, binaryOpOn, hasEffect, opcodeInfo, hls, hrs, hfloat]

variable {hint : TypeHint}

theorem tryFoldBinaryOp_cases (h : tryFoldBinaryOp ops op hint l r = some c) :
    ((decide (hint = Variant.float) || l.isFloat || r.isFloat) = true ∧
        foldFloat ops op (l.promoted ops) (r.promoted ops) = .folded c) ∨
      (∃ a b, l = .int a ∧ r = .int b ∧ foldInt op a b = .folded c) ∨
        foldComparison ops op l r = some c := by
  unfold tryFoldBinaryOp at h
  by_cases hpromotes : (decide (hint = Variant.float) || l.isFloat || r.isFloat) = true
  · simp only [hpromotes, if_true] at h
    cases hfold : foldFloat ops op (l.promoted ops) (r.promoted ops) with
    | folded c' => rw [hfold] at h; cases h; exact .inl ⟨hpromotes, rfl⟩
    | refused => rw [hfold] at h; cases h
    | next => rw [hfold] at h; exact .inr (.inr h)
  · simp only [hpromotes, if_false, Bool.false_eq_true] at h
    by_cases hints : (l.isInt && r.isInt) = true
    · simp only [hints, if_true] at h
      cases hfold : foldInt (F := F) op l.intValue r.intValue with
      | folded c' =>
        rw [hfold] at h
        cases h
        rw [Bool.and_eq_true] at hints
        cases l <;> cases hints.1
        cases r <;> cases hints.2
        exact .inr (.inl ⟨_, _, rfl, rfl, hfold⟩)
      | refused => rw [hfold] at h; cases h
      | next => rw [hfold] at h; exact .inr (.inr h)
    · simp only [hints, if_false, Bool.false_eq_true] at h
      exact .inr (.inr h)

theorem foldsAsFloat_of_foldFloat (h : ops.Lawful) {l : F}
    (hc : foldFloat ops op l (r.promoted ops) = .folded c) :
    foldsAsFloat op r = true := by
  have hzero : ops.eq (r.promoted ops) ops.zero = false → (!r.readsZero) = true := by
    intro hne
    cases hr : r.readsZero with
    | false => rfl
    | true => rw [promoted_of_readsZero h hr, h.eq_zero] at hne; cases hne
  unfold foldFloat at hc
  split at hc <;> try cases hc
  all_goals try rfl
  all_goals
    split at hc <;> cases hc
    rename_i hne
    exact hzero (Bool.eq_false_iff.mpr hne)

theorem agrees_of_not_misfolds (h : ops.Lawful) (hm : misfolds op hint l r = false) :
    Agrees ops op hint l r := by
  intro c hc
  rcases tryFoldBinaryOp_cases hc with ⟨hpromotes, hfold⟩ | ⟨a, b, rfl, rfl, hfold⟩ | hfold
  · rw [misfolds, foldsAsFloat_of_foldFloat h hfold, Bool.true_and] at hm
    by_cases hfloat : (l.isFloat || r.isFloat) = true
    · rw [if_pos hfloat, Bool.or_eq_false_iff] at hm
      refine ⟨c, foldFloat_agrees hfloat (not_isString_of_misread hm.1) (not_isString_of_misread hm.2)
        (promoted_eq_getDouble h hm.1) (promoted_eq_getDouble h hm.2) hfold, rfl⟩
    · rw [if_neg hfloat] at hm
      rw [Bool.or_assoc, hm, Bool.false_or] at hpromotes
      exact absurd hpromotes hfloat
  · exact ⟨c, foldInt_agrees ops hfold, rfl⟩
  · exact foldComparison_agrees h hfold

section Telling

-- primitives that answer with one of their operands, and tell 0 from every other number
open Classical in
noncomputable def telling (a b : F) (right : Bool) : FloatOps F where
  eq x y := decide (x = y)
  lt _ _ := false
  le _ _ := false
  zero := a
  one := b
  ofInt v := if v = 0 then a else b
  toInt _ := 0
  add x y := if right then y else x
  sub x y := if right then y else x
  mul x y := if right then y else x
  div x y := if right then y else x
  fmod x y := if right then y else x

variable {a b : F} {right : Bool}

theorem telling_lawful : (telling a b right).Lawful where
  ofInt_zero := by simp [telling]
  eq_zero := by simp [telling]

theorem telling_promoted (h : a ≠ b) (hr : r ≠ .float a) (hz : r.readsZero = false) :
    (telling a b right).eq (r.promoted (telling a b right)) (telling a b right).zero = false := by
  cases r with
  | float d =>
    have hd : d ≠ a := fun hd => hr (by rw [hd])
    simpa [telling, Constant.promoted] using hd
  | int v =>
    have hv : ¬v = 0 := of_decide_eq_false hz
    simpa [telling, Constant.promoted, Constant.intValue, hv] using h.symm
  | bool _ => cases hz
  | string _ => cases hz

theorem telling_folds (h : a ≠ b) (hr : r ≠ .float a) (hop : foldsAsFloat op r = true)
    (hfloat : (decide (hint = Variant.float) || l.isFloat || r.isFloat) = true) :
    tryFoldBinaryOp (telling a b right) op hint l r =
      some (.float (if right then r.promoted (telling a b right) else l.promoted
          (telling a b right))) := by
  unfold tryFoldBinaryOp
  simp only [hfloat, if_true]
  unfold foldsAsFloat at hop
  split at hop <;> try cases hop
  all_goals try (simp [foldFloat, telling]; done)
  all_goals
    rw [Bool.not_eq_true'] at hop
    simp only [foldFloat, telling_promoted h hr hop, Bool.false_eq_true, if_false]
    rfl

-- without a FLOAT operand the run-time result is no FLOAT
theorem binaryOpOn_not_float {v : Constant F} (hl : l.isFloat = false) (hr : r.isFloat = false)
    (hv : binaryOpOn ops l r op = some v) :
    v.asInt.isFloat = false := by
  unfold binaryOpOn at hv
  simp only [hl, hr, Bool.or_self, Bool.false_eq_true, if_false] at hv
  split at hv
  · split at hv <;> cases hv
    rfl
  · split at hv <;> try (cases hv; rfl)
    split at hv <;> try (cases hv; rfl)
    · split at hv <;> [skip; split at hv] <;> cases hv <;> rfl
    · split at hv <;> [skip; split at hv] <;> cases hv <;> rfl
    · cases hv

theorem evaluateOn_arithmetic (hop : foldsAsFloat op r = true) :
    evaluateOn ops op l r = binaryOpOn ops l r op := by
  unfold foldsAsFloat at hop
  split at hop <;> first | rfl | cases hop

-- a STRING beside a FLOAT throws
theorem binaryOpOn_string (hs : (l.isString || r.isString) = true)
    (hf : (l.isFloat || r.isFloat) = true) :
    binaryOpOn ops l r op = none := by
  unfold binaryOpOn
  rw [if_pos hs]
  cases l <;> cases r <;> simp_all [Constant.isString, Constant.isFloat]

theorem binaryOpOn_telling (hop : foldsAsFloat op r = true)
    (hs : (l.isString || r.isString) = false) (hf : (l.isFloat || r.isFloat) = true) :
    binaryOpOn (telling a b right) l r op = some (.float
      (if right then r.getDouble (telling a b right) else l.getDouble (telling a b right))) := by
  unfold foldsAsFloat at hop
  split at hop <;> first | cases hop | skip
  all_goals
    simp only [binaryOpOn, hs, hf, Bool.false_eq_true, if_true, if_false]
    rfl

theorem exists_not_agrees [Nontrivial F] (hm : misfolds op hint l r = true) :
    ∃ ops : FloatOps F, ops.Lawful ∧ ¬Agrees ops op hint l r := by
  rw [misfolds, Bool.and_eq_true] at hm
  obtain ⟨hop, hm⟩ := hm
  obtain ⟨a, b, hab, hra⟩ : ∃ a b : F, a ≠ b ∧ r ≠ .float a := by
    by_cases hr : ∃ d, r = .float d
    · obtain ⟨d, rfl⟩ := hr
      obtain ⟨a, had⟩ := exists_ne d
      exact ⟨a, d, had, fun h => had (Constant.float.inj h).symm⟩
    · obtain ⟨a, b, hab⟩ := exists_pair_ne F
      exact ⟨a, b, hab, fun h => hr ⟨a, h⟩⟩
  refine ⟨telling a b (!r.isFloat), telling_lawful, fun hagrees => ?_⟩
  by_cases hfloat : (l.isFloat || r.isFloat) = true
  · rw [if_pos hfloat, Bool.or_eq_true] at hm
    obtain ⟨v, hv, hsame⟩ :=
      hagrees _ (telling_folds hab hra hop (by rw [Bool.or_assoc, hfloat, Bool.or_true]))
    rw [evaluateOn_arithmetic hop] at hv
    cases hs : l.isString || r.isString with
    | true => rw [binaryOpOn_string hs hfloat] at hv; cases hv
    | false =>
      rw [binaryOpOn_telling hop hs hfloat] at hv
      cases hv
      -- the misread operand is a BOOL true, 1.0 to the interpreter and 0.0 to the folder
      cases l <;> cases r <;> simp_all [Constant.isFloat, Constant.isString, Constant.misread,
        Constant.promoted, Constant.getDouble, Constant.intValue, Constant.asInt, telling]
  · rw [if_neg hfloat] at hm
    rw [Bool.not_eq_true, Bool.or_eq_false_iff] at hfloat
    obtain ⟨v, hv, hsame⟩ :=
      hagrees _ (telling_folds hab hra hop (by rw [hm, Bool.true_or, Bool.true_or]))
    rw [evaluateOn_arithmetic hop] at hv
    have hkind := binaryOpOn_not_float hfloat.1 hfloat.2 hv
    rw [hsame] at hkind
    cases hkind

end Telling

/-- Folding agrees with running, whatever the float primitives are, exactly on the operands that it
does not misread. -/
theorem tryFoldBinaryOp_agrees_iff [Nontrivial F] (op : Opcode) (hint : TypeHint)
    (l r : Constant F) :
    (∀ ops : FloatOps F, ops.Lawful → Agrees ops op hint l r) ↔ misfolds op hint l r = false := by
  refine ⟨fun h => ?_, fun hm ops hops => agrees_of_not_misfolds hops hm⟩
  rw [← Bool.not_eq_true]
  intro hm
  obtain ⟨ops, hops, hnot⟩ := exists_not_agrees hm
  exact hnot (h ops hops)

theorem tryFoldBinaryOp_agrees_iff_mixed :
    misfolds .div Variant.float (.float (7 : Int)) (.int 2) = false ∧
      ∀ ops : FloatOps Int, ops.Lawful → Agrees ops .div Variant.float (.float 7) (.int 2) :=
  ⟨rfl, (tryFoldBinaryOp_agrees_iff .div Variant.float (.float 7) (.int 2)).mpr rfl⟩

-- doubles that happen to be whole
def wholeNumbers : FloatOps Int where
  eq l r := l = r
  lt l r := l < r
  le l r := l ≤ r
  zero := 0
  one := 1
  ofInt := Int64.toInt
  toInt := Int64.ofInt
  add := (· + ·)
  sub := (· - ·)
  mul := (· * ·)
  div := Int.tdiv
  fmod := Int.tmod

/-- `true + 2.0` folds to 2.0 and runs to 3.0; `1 + 2` under a FLOAT hint folds to a float and runs
to the integer 3. -/
theorem bool_plus_float_misfolds :
    tryFoldBinaryOp wholeNumbers .add typeHintNone (.bool true) (.float 2) = some (.float 2) ∧
      evaluateOn wholeNumbers .add (.bool true) (.float 2) = some (.float 3) ∧
      tryFoldBinaryOp wholeNumbers .add Variant.float (.int 1) (.int 2) = some (.float 3) ∧
      evaluateOn wholeNumbers .add (.int 1) (.int 2) = some (.int 3) := by
  decide

end Optimizer
