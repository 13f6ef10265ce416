import GdscriptCompiler.Parsing.Ast
import GdscriptCompiler.Ir.Interpreter
import GdscriptCompiler.Lib.Results

/-!
# Constants — the two constant evaluators and the interpreter

The parser (`Parser::try_fold_int`) computes on integers alone and takes a boolean as 0 or 1; the
generator (`fold_global_initializer`) keeps the types apart and declines what mixes them.
-/

namespace Constants

open Lib Lexing Parsing Ir

variable {L : Type}

structure Libm where
  fmod : Float → Float → Float
  pow : Float → Float → Float

-- one character a byte
def text (s : Bytes) : String := String.ofList (s.map fun c => Char.ofNat c.toNat)

/-- An `EnumDecl::Member`; one with a `value_expr` is an engine constant, known only when the
program runs. -/
structure Member where
  name : Bytes
  value : Int64
  deferred : Bool

inductive GlobalConstant where
  | int (v : Int64)
  | float (d : Float)

def integerOf (b : Bool) : Int64 := if b then 1 else 0

/-- `std::pow` on two integers, when the result is one. -/
def powInt (M : Libm) (left right : Int64) : Option Int64 :=
  let result := M.pow left.toFloat right.toFloat
  if !result.isFinite || result < int64Min.toFloat || -int64Min.toFloat ≤ result then none
  else some result.toInt64

/-! ## 1. The parser -/

/-- The names `try_fold_int` looks up: members of the enum being declared, integer `const`s of the
file and constants of the global scope. -/
structure FileNames where
  member : Bytes → Option Member
  constInt : Bytes → Option Int64
  globalConstant : Bytes → Option GlobalConstant

def foldIntUnary (op : UnaryOp) (operand : Int64) : Int64 :=
  match op with
  | .neg => 0 - operand
  | .bitNot => ~~~operand
  | .not => integerOf (operand == 0)

def foldIntBinary (M : Libm) (op : BinaryOp) (left right : Int64) : Except String Int64 :=
  match op with
  | .add => .ok (left + right)
  | .sub => .ok (left - right)
  | .mul => .ok (left * right)
  | .div =>
    if right = 0 then .error "it divides by zero"
    else if left = int64Min ∧ right = -1 then .ok int64Min
    else .ok (left / right)
  | .mod =>
    if right = 0 then .error "it divides by zero"
    else if left = int64Min ∧ right = -1 then .ok 0
    else .ok (left % right)
  | .pow =>
    match powInt M left right with
    | some v => .ok v
    | none => .error "this power is outside the range of an integer"
  | .shl => .ok (left <<< (right &&& 63))
  | .shr => .ok (left >>> (right &&& 63))
  | .bitAnd => .ok (left &&& right)
  | .bitOr => .ok (left ||| right)
  | .bitXor => .ok (left ^^^ right)
  | .eq => .ok (integerOf (left == right))
  | .neq => .ok (integerOf (left != right))
  | .lt => .ok (integerOf (left < right))
  | .lte => .ok (integerOf (left ≤ right))
  | .gt => .ok (integerOf (right < left))
  | .gte => .ok (integerOf (right ≤ left))
  | .and => .ok (integerOf (left != 0 && right != 0))
  | .or => .ok (integerOf (left != 0 || right != 0))
  | .coalesce => .ok left
  | .contained => .error "this operator is not an integer operator"

def foldIntName (N : FileNames) (name : Bytes) : Except String Int64 :=
  match N.member name with
  | some m =>
    if m.deferred then
      .error ("'" ++ text name ++ "' is an engine constant, which has no value until the program runs")
    else .ok m.value
  | none =>
    match N.constInt name, N.globalConstant name with
    | some v, _ => .ok v
    | none, some (.int v) => .ok v
    | none, _ =>
      .error ("'" ++ text name ++
        "' is not one of this enum's earlier members and not an integer 'const'")

/-- `try_fold_int`; an error says why and at which node, and the first one found stays. -/
def tryFoldInt (M : Libm) (N : FileNames) : Expr L → Except (String × Expr L) Int64
  | .literal (.integer v) => .ok v
  | .literal (.bool b) => .ok (integerOf b)
  | .literal l => .error ("this literal is not an integer", .literal l)
  | .unary op operand => do
      let v ← tryFoldInt M N operand
      return foldIntUnary op v
  | .binary left op right => do
      let l ← tryFoldInt M N left
      let r ← tryFoldInt M N right
      (foldIntBinary M op l r).mapError (·, .binary left op right)
  | .ternary condition trueValue falseValue => do
      let c ← tryFoldInt M N condition
      let t ← tryFoldInt M N trueValue
      let f ← tryFoldInt M N falseValue
      return if c ≠ 0 then t else f
  | .variable name => (foldIntName N name).mapError (·, .variable name)
  | e => .error ("only literals, operators over them, earlier members and integer 'const' values are", e)

/-! ## 2. The code generator -/

def foldedTruth : InitType → Option Bool
  | .bool b => some b
  | .int v => some (v != 0)
  | .float d => some (d != 0.0)
  | .string s => some !s.isEmpty
  | .nullVal | .emptyArray | .emptyDict => some false
  | .none | .runtime => none

def foldFloats (M : Libm) (op : BinaryOp) (left right : Float) : Option InitType :=
  match op with
  | .add => some (.float (left + right))
  | .sub => some (.float (left - right))
  | .mul => some (.float (left * right))
  | .div => if right == 0.0 then none else some (.float (left / right))
  | .mod => if right == 0.0 then none else some (.float (M.fmod left right))
  | .pow => some (.float (M.pow left right))
  | .eq => some (.bool (left == right))
  | .neq => some (.bool (left != right))
  | .lt => some (.bool (left < right))
  | .lte => some (.bool (left ≤ right))
  | .gt => some (.bool (right < left))
  | .gte => some (.bool (right ≤ left))
  | _ => none

def foldInts (M : Libm) (op : BinaryOp) (left right : Int64) : Option InitType :=
  match op with
  | .add => some (.int (left + right))
  | .sub => some (.int (left - right))
  | .mul => some (.int (left * right))
  | .div => if right = 0 ∨ (right = -1 ∧ left = int64Min) then none else some (.int (left / right))
  | .mod => if right = 0 ∨ (right = -1 ∧ left = int64Min) then none else some (.int (left % right))
  | .pow => (powInt M left right).map .int
  | .bitAnd => some (.int (left &&& right))
  | .bitOr => some (.int (left ||| right))
  | .bitXor => some (.int (left ^^^ right))
  | .shl => if right < 0 then none else some (.int (left <<< (right &&& 63)))
  | .shr => if right < 0 then none else some (.int (left >>> (right &&& 63)))
  | .eq => some (.bool (left == right))
  | .neq => some (.bool (left != right))
  | .lt => some (.bool (left < right))
  | .lte => some (.bool (left ≤ right))
  | .gt => some (.bool (right < left))
  | .gte => some (.bool (right ≤ left))
  | .and | .or | .coalesce | .contained => none

def foldStrings (op : BinaryOp) (left right : String) : Option InitType :=
  match op with
  | .add => some (.string (left ++ right))
  | .eq => some (.bool (left == right))
  | .neq => some (.bool (left != right))
  | _ => none

def foldBools (op : BinaryOp) (left right : Bool) : Option InitType :=
  match op with
  | .and => some (.bool (left && right))
  | .or => some (.bool (left || right))
  | .eq => some (.bool (left == right))
  | .neq => some (.bool (left != right))
  | _ => none

/-- `??` answers with the left side unless that is null. -/
def foldCoalesce (lhs rhs : InitType) : Option InitType :=
  let chosen := match lhs with
    | .nullVal => rhs
    | _ => lhs
  match chosen with
  | .none | .runtime => none
  | value => some value

def foldConstantBinary (M : Libm) (op : BinaryOp) (lhs rhs : InitType) : Option InitType :=
  if op = .coalesce then foldCoalesce lhs rhs
  else
    match lhs, rhs with
    | .string l, .string r => foldStrings op l r
    | .bool l, .bool r => foldBools op l r
    | .float l, .float r => foldFloats M op l r
    | .float l, .int r => foldFloats M op l r.toFloat
    | .int l, .float r => foldFloats M op l.toFloat r
    | .int l, .int r => foldInts M op l r
    | _, _ => none

def foldUnary (op : UnaryOp) (inner : InitType) : Option InitType :=
  match op, inner with
  | .neg, .int v => some (.int (0 - v))
  | .neg, .float d => some (.float (-d))
  | .bitNot, .int v => some (.int (~~~v))
  | .not, .bool b => some (.bool !b)
  | .not, .int v => some (.bool (v == 0))
  | .not, .float d => some (.bool (d == 0.0))
  | .not, .nullVal => some (.bool true)
  | .not, .string s => some (.bool s.isEmpty)
  | _, _ => none

def foldLiteral : Literal → Option InitType
  | .integer v => some (.int v)
  | .float bits => some (.float (Float.ofBits bits))
  | .string .plain s => some (.string (text s))
  -- a StringName or a NodePath is made at run time
  | .string _ _ => none
  | .bool b => some (.bool b)
  | .null => some .nullVal

/-- The names `fold_global_initializer` looks up. `lineage` lists the owning class and its bases,
`classLineage` the same for a class by its name; class constants are kept under `Class.NAME`. -/
structure ProgramNames where
  shadowed : Bytes → Bool
  lineage : List Bytes
  classLineage : Bytes → Option (List Bytes)
  classConstant : Bytes → Option InitType
  globalConst : Bytes → Option InitType
  enumMember : Bytes → Option Member
  enum : Bytes → Option (List Member)
  globalConstant : Bytes → Option GlobalConstant
  globalEnumValue : Bytes → Bytes → Option Int64

def ProgramNames.inherited (P : ProgramNames) (lineage : List Bytes) (name : Bytes) :
    Option InitType :=
  lineage.findSome? fun owner => P.classConstant (owner ++ bytes "." ++ name)

def Member.folded (m : Member) : Option InitType := if m.deferred then none else some (.int m.value)

def foldVariable (P : ProgramNames) (name : Bytes) : Option InitType :=
  if P.shadowed name then none
  else
    match P.inherited P.lineage name, P.globalConst name, P.enumMember name, P.globalConstant name with
    | some value, _, _, _ => some value
    | none, some value, _, _ => some value
    | none, none, some member, _ => member.folded
    | none, none, none, some (.int v) => some (.int v)
    | none, none, none, some (.float d) => some (.float d)
    | none, none, none, none => none

/-- `Class.NAME` and `Enum.MEMBER`. -/
def foldMember (P : ProgramNames) (object member : Bytes) : Option InitType :=
  if P.shadowed object then none
  else
    match P.classLineage object, P.enum object with
    | some lineage, _ => P.inherited lineage member
    | none, some members => (members.find? (·.name = member)).bind Member.folded
    | none, none => (P.globalEnumValue object member).map .int

def foldGlobalInitializer (M : Libm) (P : ProgramNames) : Expr L → Option InitType
  | .literal l => foldLiteral l
  | .unary op operand => do
      let inner ← foldGlobalInitializer M P operand
      foldUnary op inner
  | .binary left op right => do
      let lhs ← foldGlobalInitializer M P left
      let rhs ← foldGlobalInitializer M P right
      foldConstantBinary M op lhs rhs
  | .ternary condition trueValue falseValue => do
      let c ← foldGlobalInitializer M P condition
      let whenTrue ← foldGlobalInitializer M P trueValue
      let whenFalse ← foldGlobalInitializer M P falseValue
      let truth ← foldedTruth c
      return if truth then whenTrue else whenFalse
  | .variable name => foldVariable P name
  | .memberCall (.variable object) member [] _ false _ _ => foldMember P object member
  | .array [] => some .emptyArray
  | .dictionary [] => some .emptyDict
  | _ => none

/-! ## 3. The interpreter -/

def unaryOpcode : UnaryOp → Opcode
  | .neg => .neg
  | .not => .not
  | .bitNot => .bitNot

/-- An operator of two values at run time. Nothing in the interpreter computes `in`. -/
def runBinary (M : Libm) (op : BinaryOp) (left right : Value) : Except Fault Value :=
  match op with
  | .add => binaryOp M.fmod left right .add
  | .sub => binaryOp M.fmod left right .sub
  | .mul => binaryOp M.fmod left right .mul
  | .div => binaryOp M.fmod left right .div
  | .mod => binaryOp M.fmod left right .mod
  | .pow => binaryOp M.fmod left right .pow
  | .bitAnd => binaryOp M.fmod left right .bitAnd
  | .bitOr => binaryOp M.fmod left right .bitOr
  | .bitXor => binaryOp M.fmod left right .bitXor
  | .shl => binaryOp M.fmod left right .shl
  | .shr => binaryOp M.fmod left right .shr
  | .eq => compareOp left right .cmpEq
  | .neq => compareOp left right .cmpNeq
  | .lt => compareOp left right .cmpLt
  | .lte => compareOp left right .cmpLte
  | .gt => compareOp left right .cmpGt
  | .gte => compareOp left right .cmpGte
  | .and => .ok (intOfBool (left.getBool && right.getBool))
  | .or => .ok (intOfBool (left.getBool || right.getBool))
  | .coalesce => .ok (if left.isNil then right else left)
  | .contained => .error .malformed

/-- The tree evaluated with the operations of `IRInterpreter`. -/
def evaluate (M : Libm) : Expr L → Except Fault Value
  | .literal (.integer v) => .ok (.int v)
  | .literal (.bool b) => .ok (.bool b)
  | .unary op operand => do
      let value ← evaluate M operand
      unaryOp value (unaryOpcode op)
  | .binary left op right => do
      let l ← evaluate M left
      let r ← evaluate M right
      runBinary M op l r
  | .ternary condition trueValue falseValue => do
      let c ← evaluate M condition
      if c.getBool then evaluate M trueValue else evaluate M falseValue
  | _ => .error .malformed

/-! ## 4. Agreement -/

/-- Trees of integers and booleans, without the power operator and `??`. -/
inductive Arithmetic : Expr L → Prop where
  | integer (v : Int64) : Arithmetic (.literal (.integer v))
  | bool (b : Bool) : Arithmetic (.literal (.bool b))
  | unary (op : UnaryOp) {e : Expr L} (operand : Arithmetic e) : Arithmetic (.unary op e)
  | binary {op : BinaryOp} {l r : Expr L} (noPower : op ≠ .pow) (noCoalesce : op ≠ .coalesce)
      (left : Arithmetic l) (right : Arithmetic r) : Arithmetic (.binary l op r)
  | ternary {c t f : Expr L} (condition : Arithmetic c) (trueValue : Arithmetic t)
    (falseValue : Arithmetic f) :
      Arithmetic (.ternary c t f)

def asInteger : InitType → Option Int64
  | .int v => some v
  | .bool b => some (integerOf b)
  | _ => none

/-- An integer or a boolean that stands for `v`. -/
inductive Holds (v : Int64) : Value → Prop where
  | int : Holds v (.int v)
  | bool (b : Bool) (hb : integerOf b = v) : Holds v (.bool b)

theorem integerOf_ne_zero (b : Bool) : (integerOf b != 0) = b := by cases b <;> rfl

theorem integerOf_eq_zero (b : Bool) : (integerOf b == 0) = !b := by cases b <;> rfl

namespace Holds

variable {v l r : Int64} {w left right : Value}

section

variable (h : Holds v w)
include h

theorem getInt : w.getInt = v := by
  cases h with
  | int => rfl
  | bool b hb => exact hb

theorem getBool : w.getBool = (v != 0) := by
  cases h with
  | int => exact decide_not
  | bool b hb => rw [← hb, integerOf_ne_zero]; rfl

theorem notString : w.isString = false := by cases h <;> rfl

theorem notFloat : w.isFloat = false := by cases h <;> rfl

theorem notNil : w.isNil = false := by cases h <;> rfl

end

theorem binaryOp (hl : Holds l left) (hr : Holds r right) (fmod : Float → Float → Float)
    (op : Opcode) :
    Ir.binaryOp fmod left right op = Ir.binaryOp fmod (.int l) (.int r) op := by
  have hl' : Holds l (.int l) := .int
  have hr' : Holds r (.int r) := .int
  simp only [Ir.binaryOp, hl.notString, hr.notString, hl'.notString, hr'.notString, hl.notFloat,
    hr.notFloat,
    hl'.notFloat, hr'.notFloat, hl.getInt, hr.getInt, hl'.getInt, hr'.getInt, Bool.or_self,
    Bool.false_eq_true, if_false]

theorem compareOp (hl : Holds l left) (hr : Holds r right) (op : Opcode) :
    Ir.compareOp left right op = .ok (intOfBool (compareInts l r op)) := by
  simp only [Ir.compareOp, hl.notNil, hr.notNil, hl.notString, hr.notString, hl.notFloat,
    hr.notFloat, hl.getInt, hr.getInt, Bool.or_self, Bool.false_eq_true, if_false]

end Holds

theorem foldedTruth_asInteger {c : InitType} {v : Int64} (h : asInteger c = some v) :
    foldedTruth c = some (v != 0) := by
  cases c with
  | int w => cases h; rfl
  | bool b => cases h; rw [integerOf_ne_zero]; rfl
  | _ => cases h

section Operators

variable {M : Libm} {op : BinaryOp} {l r v : Int64} {c : InitType}

/-- What both folders make of two integers is what the interpreter computes. -/
theorem foldInts_agrees (hop : op ≠ .pow) (hv : foldIntBinary M op l r = .ok v)
    (hc : foldInts M op l r = some c) :
    asInteger c = some v ∧ ∃ w, runBinary M op (.int l) (.int r) = .ok w ∧ Holds v w := by
  cases op with
  | add | sub | mul | bitAnd | bitOr | bitXor | eq | neq | lt | lte | gt | gte =>
    cases hv
    cases hc
    exact ⟨rfl, _, rfl, .int⟩
  | div | mod =>
    simp only [foldInts, foldIntBinary] at hc hv
    split at hc
    · cases hc
    · rename_i hdefined
      have hzero : r ≠ 0 := fun h => hdefined (.inl h)
      have hover : ¬(r = -1 ∧ l = int64Min) := fun h => hdefined (.inr h)
      rw [if_neg hzero, if_neg fun h => hover h.symm] at hv
      cases hv
      cases hc
      refine ⟨rfl, _, ?_, .int⟩
      show (if r = 0 then _ else _) = _
      rw [if_neg hzero]
      exact if_neg hover
  | shl | shr =>
    simp only [foldInts] at hc
    split at hc
    · cases hc
    · cases hv
      cases hc
      exact ⟨rfl, _, rfl, .int⟩
  | pow => exact absurd rfl hop
  | and | or | coalesce | contained => cases hc

theorem foldBools_agrees {a b : Bool} (hv : foldIntBinary M op (integerOf a) (integerOf b) = .ok v)
    (hc : foldBools op a b = some c) :
    asInteger c = some v ∧ ∃ w, runBinary M op (.bool a) (.bool b) = .ok w ∧ Holds v w := by
  cases op with
  | and | or | eq | neq =>
    cases hv
    cases hc
    cases a <;> cases b <;> exact ⟨rfl, _, rfl, .int⟩
  | _ => cases hc

theorem runBinary_holds {left right : Value} (hl : Holds l left) (hr : Holds r right)
    (hop : op ≠ .coalesce) :
    runBinary M op left right = runBinary M op (.int l) (.int r) := by
  cases op with
  | add | sub | mul | div | mod | pow | bitAnd | bitOr | bitXor | shl | shr =>
    exact hl.binaryOp hr M.fmod _
  | eq | neq | lt | lte | gt | gte =>
    exact (hl.compareOp hr _).trans (Holds.int.compareOp .int _).symm
  | and | or =>
    simp only [runBinary, hl.getBool, hr.getBool, (Holds.int : Holds l _).getBool,
      (Holds.int : Holds r _).getBool]
  | coalesce => exact absurd rfl hop
  | contained => rfl

theorem binary_agrees {lhs rhs : InitType} {left right : Value} (hpow : op ≠ .pow)
    (hcoalesce : op ≠ .coalesce) (hlhs : asInteger lhs = some l) (hrhs : asInteger rhs = some r)
    (hl : Holds l left) (hr : Holds r right) (hv : foldIntBinary M op l r = .ok v)
    (hc : foldConstantBinary M op lhs rhs = some c) :
    asInteger c = some v ∧ ∃ w, runBinary M op left right = .ok w ∧ Holds v w := by
  rw [runBinary_holds hl hr hcoalesce]
  unfold foldConstantBinary at hc
  rw [if_neg hcoalesce] at hc
  cases lhs with
  | int a =>
    cases rhs with
    | int b =>
      cases hlhs
      cases hrhs
      exact foldInts_agrees hpow hv hc
    | _ => cases hrhs <;> cases hc
  | bool a =>
    cases rhs with
    | bool b =>
      cases hlhs
      cases hrhs
      rw [← runBinary_holds (.bool a rfl) (.bool b rfl) hcoalesce]
      exact foldBools_agrees hv hc
    | _ => cases hrhs <;> cases hc
  | _ => cases hlhs

theorem unary_agrees {u : UnaryOp} {inner : InitType} {operand : Value}
    (hinner : asInteger inner = some l) (hl : Holds l operand) (hc : foldUnary u inner = some c) :
    asInteger c = some (foldIntUnary u l) ∧
      ∃ w, unaryOp operand (unaryOpcode u) = .ok w ∧ Holds (foldIntUnary u l) w := by
  cases inner with
  | int a =>
    cases hinner
    cases u with
    | neg =>
      cases hc
      refine ⟨rfl, .int (0 - operand.getInt), ?_, hl.getInt ▸ .int⟩
      simp only [unaryOp, unaryOpcode, hl.notFloat, Bool.false_eq_true, if_false]
    | bitNot =>
      cases hc
      exact ⟨rfl, _, rfl, hl.getInt ▸ .int⟩
    | not =>
      cases hc
      exact ⟨rfl, _, rfl, .bool _ (by rw [hl.getBool, bne, Bool.not_not]; rfl)⟩
  | bool b =>
    cases hinner
    cases u with
    | neg | bitNot => cases hc
    | not =>
      cases hc
      refine ⟨?_, _, rfl, .bool _ ?_⟩
      · rw [foldIntUnary, integerOf_eq_zero]
        rfl
      · rw [hl.getBool, integerOf_ne_zero, foldIntUnary, integerOf_eq_zero]
  | _ => cases hinner

end Operators

/-- The two evaluators give a tree that both accept the same value, and it is the one the
interpreter computes. -/
theorem evaluators_agree (M : Libm) (N : FileNames) (P : ProgramNames) {e : Expr L}
    (he : Arithmetic e) {v : Int64} {c : InitType} (hv : tryFoldInt M N e = .ok v)
    (hc : foldGlobalInitializer M P e = some c) :
    asInteger c = some v ∧ ∃ w, evaluate M e = .ok w ∧ w.getInt = v := by
  suffices h : asInteger c = some v ∧ ∃ w, evaluate M e = .ok w ∧ Holds v w by
    obtain ⟨hagree, w, hw, hholds⟩ := h
    exact ⟨hagree, w, hw, hholds.getInt⟩
  induction he generalizing v c with
  | integer a =>
    cases hv
    cases hc
    exact ⟨rfl, _, rfl, .int⟩
  | bool b =>
    cases hv
    cases hc
    exact ⟨rfl, _, rfl, .bool b rfl⟩
  | unary op _ ih =>
    obtain ⟨a, ha, hpure⟩ := bind_eq_ok.mp hv
    cases hpure
    obtain ⟨inner, hinner, hfold⟩ := Option.bind_eq_some_iff.mp hc
    obtain ⟨hagree, w, hw, hholds⟩ := ih ha hinner
    obtain ⟨hresult, w', hw', hholds'⟩ := unary_agrees hagree hholds hfold
    exact ⟨hresult, w', bind_eq_ok.mpr ⟨w, hw, hw'⟩, hholds'⟩
  | binary noPower noCoalesce _ _ ihl ihr =>
    obtain ⟨a, ha, hv⟩ := bind_eq_ok.mp hv
    obtain ⟨b, hb, hv⟩ := bind_eq_ok.mp hv
    obtain ⟨lhs, hlhs, hc⟩ := Option.bind_eq_some_iff.mp hc
    obtain ⟨rhs, hrhs, hc⟩ := Option.bind_eq_some_iff.mp hc
    obtain ⟨hleft, l, hl, hholdsl⟩ := ihl ha hlhs
    obtain ⟨hright, r, hr, hholdsr⟩ := ihr hb hrhs
    obtain ⟨hresult, w, hw, hholds⟩ :=
      binary_agrees noPower noCoalesce hleft hright hholdsl hholdsr (ok_of_mapError hv) hc
    exact ⟨hresult, w, bind_eq_ok.mpr ⟨l, hl, bind_eq_ok.mpr ⟨r, hr, hw⟩⟩, hholds⟩
  | ternary _ _ _ ihc iht ihf =>
    obtain ⟨a, ha, hv⟩ := bind_eq_ok.mp hv
    obtain ⟨t, ht, hv⟩ := bind_eq_ok.mp hv
    obtain ⟨f, hf, hv⟩ := bind_eq_ok.mp hv
    obtain ⟨condition, hcondition, hc⟩ := Option.bind_eq_some_iff.mp hc
    obtain ⟨whenTrue, htrue, hc⟩ := Option.bind_eq_some_iff.mp hc
    obtain ⟨whenFalse, hfalse, hc⟩ := Option.bind_eq_some_iff.mp hc
    obtain ⟨hagree, w, hw, hholds⟩ := ihc ha hcondition
    rw [foldedTruth_asInteger hagree] at hc
    cases hc
    cases hv
    -- the interpreter takes the branch that both folders chose
    by_cases hzero : a = 0
    · obtain ⟨hresult, w', hw', hholds'⟩ := ihf hf hfalse
      have hbool : w.getBool = false := by simp [hholds.getBool, hzero]
      refine ⟨by simpa [hzero] using hresult, w', bind_eq_ok.mpr ⟨w, hw, ?_⟩,
        by simpa [hzero] using hholds'⟩
      simpa [hbool] using hw'
    · obtain ⟨hresult, w', hw', hholds'⟩ := iht ht htrue
      have hbool : w.getBool = true := by simp [hholds.getBool, hzero]
      refine ⟨by simpa [hzero] using hresult, w', bind_eq_ok.mpr ⟨w, hw, ?_⟩,
        by simpa [hzero] using hholds'⟩
      simpa [hbool] using hw'

def noFileNames : FileNames := ⟨fun _ => none, fun _ => none, fun _ => none⟩

def noProgramNames : ProgramNames where
  shadowed _ := false
  lineage := []
  classLineage _ := none
  classConstant _ := none
  globalConst _ := none
  enumMember _ := none
  enum _ := none
  globalConstant _ := none
  globalEnumValue _ _ := none

-- `-7 % 3 if 1 << 65 == 2 else 0`
def remainderIfShifted : Expr Empty :=
  .ternary (.binary (.binary (.literal (.integer 1)) .shl (.literal (.integer 65))) .eq
    (.literal (.integer 2)))
    (.binary (.unary .neg (.literal (.integer 7))) .mod (.literal (.integer 3))) (.literal (.integer 0))

theorem remainderIfShifted_arithmetic : Arithmetic remainderIfShifted :=
  .ternary (.binary (by decide) (by decide) (.binary (by decide) (by decide) (.integer 1)
    (.integer 65)) (.integer 2))
    (.binary (by decide) (by decide) (.unary .neg (.integer 7)) (.integer 3)) (.integer 0)

def libmFirst : Libm := ⟨fun l _ => l, fun l _ => l⟩

theorem evaluators_agree_remainder :
    asInteger (.int (-1)) = some (-1) ∧ ∃ w, evaluate libmFirst remainderIfShifted = .ok w ∧
      w.getInt = -1 :=
  evaluators_agree libmFirst noFileNames noProgramNames remainderIfShifted_arithmetic rfl rfl

end Constants
