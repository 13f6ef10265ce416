import GdscriptCompiler.Lib.Allocation
import GdscriptCompiler.Parsing.Ast

/-!
# Clone — the copies of a trait's members

`ast_clone.cpp`. The strict parser makes no `ErrorExpr`, and an assignment has a name or a target,
an `if` a condition or a binding, as its constructor leaves them.
-/

namespace Parsing.Clone

open Lib Lexing

/-! ## 1. Trees -/

inductive Kind where
  | expr | stmt | pattern | function | var | parameter | branch | element | entry | structEntry
  | opt (k : Kind) | list (k : Kind)

/-- Where an object lies in memory, and where its text stands. -/
structure Site where
  address : Nat
  line : Int
  column : Int

inductive PatternKind where
  | value | wildcard | bind | array | dictionary | struct

structure MatchPattern where
  kind : PatternKind := .value
  name : Bytes := []
  structName : Bytes := []
  isOpen : Bool := false

structure Parameter where
  name : Bytes
  typeHint : TypeExpr

structure RPCConfig where
  name : Bytes
  rpcMode : Int
  transferMode : Int
  callLocal : Bool
  channel : Int

structure FunctionDecl where
  name : Bytes
  returnType : TypeExpr
  docComment : Bytes := []
  isCoroutine : Bool := false
  isStatic : Bool := false
  isAbstract : Bool := false
  requiresHostHook : Bool := false
  isTest : Bool := false
  traitOrigin : Bytes := []
  rpcConfig : Option RPCConfig := none
  chainLink : Int := 0
  chainName : Bytes := []

structure ExportHint where
  hint : Int := 0
  hintString : Bytes := []
  usage : Int := 0

structure ExportSection where
  category : Bytes := []
  group : Bytes := []
  groupPrefix : Bytes := []
  subgroup : Bytes := []
  subgroupPrefix : Bytes := []

structure VarDeclStmt where
  name : Bytes
  typeHint : TypeExpr := .mk [] [] false false
  isConst : Bool := false
  isProperty : Bool := false
  isStatic : Bool := false
  isOnready : Bool := false
  -- `var x := v`
  inferred : Bool := false
  traitOrigin : Bytes := []
  docComment : Bytes := []
  chainLink : Int := 0
  exportHint : ExportHint := {}
  exportSection : ExportSection := {}
  setterName : Bytes := []
  getterName : Bytes := []

/-- A tree as it lies in memory. The structures above are the fields of an object that hold no
others. -/
inductive Tree : Kind → Type
  | literal (site : Site) (value : Literal) : Tree .expr
  | variable (site : Site) (name : Bytes) : Tree .expr
  | binary (site : Site) (left : Tree .expr) (op : BinaryOp) (right : Tree .expr) : Tree .expr
  | await (site : Site) (operand : Tree .expr) : Tree .expr
  | lambda (site : Site) (decl : Tree .function) (liftedName : Bytes) : Tree .expr
  | unary (site : Site) (op : UnaryOp) (operand : Tree .expr) : Tree .expr
  | typeTest (site : Site) (value : Tree .expr) (type : TypeExpr) : Tree .expr
  | cast (site : Site) (value : Tree .expr) (typeName : Bytes)
    (typeArguments : List TypeExpr) : Tree .expr
  | ternary (site : Site) (condition trueValue falseValue : Tree .expr) : Tree .expr
  | call (site : Site) (functionName : Bytes) (arguments : Tree (.list .expr))
    (argumentNames : List Bytes)
      (isNodePathSugar : Bool) : Tree .expr
  | memberCall (site : Site) (object : Tree .expr) (memberName : Bytes) (arguments : Tree (.list .expr))
      (isMethodCall : Bool) (argumentNames : List Bytes) (safe safeChainRoot : Bool) : Tree .expr
  | index (site : Site) (object index : Tree .expr) (safeChainRoot : Bool) : Tree .expr
  | array (site : Site) (elements : Tree (.list .expr)) : Tree .expr
  | dictionary (site : Site) (elements : Tree (.list .element)) : Tree .expr
  | element (key value : Tree .expr) : Tree .element
  | pattern (site : Site) (own : MatchPattern) (value : Tree (.opt .expr))
    (elements : Tree (.list .pattern))
      (entries : Tree (.list .entry)) (structEntries : Tree (.list .structEntry)) : Tree .pattern
  | entry (key : Tree .expr) (value : Tree (.opt .pattern)) : Tree .entry
  | structEntry (name : Bytes) (value : Tree .pattern) : Tree .structEntry
  | exprStmt (site : Site) (expression : Tree .expr) : Tree .stmt
  | varStmt (decl : Tree .var) : Tree .stmt
  | breakpoint (site : Site) : Tree .stmt
  | assign (site : Site) (name : Bytes) (value : Tree .expr) : Tree .stmt
  | assignTarget (site : Site) (target value : Tree .expr) : Tree .stmt
  | returnStmt (site : Site) (value : Tree (.opt .expr)) : Tree .stmt
  | ifStmt (site : Site) (condition : Tree .expr)
    (thenBranch elseBranch : Tree (.list .stmt)) : Tree .stmt
  | ifBinding (site : Site) (binding : Tree .var)
    (thenBranch elseBranch : Tree (.list .stmt)) : Tree .stmt
  | whileStmt (site : Site) (condition : Tree .expr) (body : Tree (.list .stmt)) : Tree .stmt
  | forStmt (site : Site) (name : Bytes) (iterable : Tree .expr) (body : Tree (.list .stmt)) : Tree .stmt
  | breakStmt (site : Site) : Tree .stmt
  | continueStmt (site : Site) : Tree .stmt
  | passStmt (site : Site) : Tree .stmt
  | matchStmt (site : Site) (subject : Tree .expr) (branches : Tree (.list .branch))
    (isSwitch : Bool) : Tree .stmt
  | branch (patterns : Tree (.list .pattern)) (guard : Tree (.opt .expr))
    (body : Tree (.list .stmt)) : Tree .branch
  | parameter (site : Site) (own : Parameter) (defaultValue : Tree (.opt .expr)) : Tree .parameter
  | function (site : Site) (own : FunctionDecl) (parameters : Tree (.list .parameter))
    (body : Tree (.list .stmt)) :
      Tree .function
  | var (site : Site) (own : VarDeclStmt) (initializer : Tree (.opt .expr))
      (setterBody getterBody : Tree (.opt .function)) : Tree .var
  | null {k : Kind} : Tree (.opt k)
  | pointer {k : Kind} (target : Tree k) : Tree (.opt k)
  | nil {k : Kind} : Tree (.list k)
  | cons {k : Kind} (head : Tree k) (tail : Tree (.list k)) : Tree (.list k)

/-! ## 2. Copies -/

/-- A new object with the position of another; the state is the next address. -/
def positioned (original : Site) : StateM Nat Site := fun next =>
  ({ address := next, line := original.line, column := original.column }, next + 1)

def cloneLiteral : Literal → Literal
  | .integer v => .integer v
  | .float bits => .float bits
  | .string type s => .string type s
  | .bool b => .bool b
  | .null => .null

@[simp] theorem cloneLiteral_eq (value : Literal) : cloneLiteral value = value := by
  cases value <;> rfl

def clonePattern (p : MatchPattern) : MatchPattern where
  kind := p.kind
  name := p.name
  structName := p.structName
  isOpen := p.isOpen

def cloneParameter (p : Parameter) : Parameter where
  name := p.name
  typeHint := p.typeHint

def cloneFunction (f : FunctionDecl) : FunctionDecl where
  name := f.name
  returnType := f.returnType
  docComment := f.docComment
  isCoroutine := f.isCoroutine
  isStatic := f.isStatic
  isAbstract := f.isAbstract
  requiresHostHook := f.requiresHostHook
  isTest := f.isTest
  traitOrigin := f.traitOrigin
  rpcConfig := f.rpcConfig
  chainLink := f.chainLink
  chainName := f.chainName

-- `inferred` is not among the fields it sets
def cloneVar (v : VarDeclStmt) : VarDeclStmt where
  name := v.name
  isConst := v.isConst
  typeHint := v.typeHint
  isProperty := v.isProperty
  isStatic := v.isStatic
  isOnready := v.isOnready
  traitOrigin := v.traitOrigin
  docComment := v.docComment
  chainLink := v.chainLink
  exportHint := v.exportHint
  exportSection := v.exportSection
  setterName := v.setterName
  getterName := v.getterName

/-- `clone_expr`, `clone_pattern`, `clone_stmt`, `clone_parameter`, `clone_function` and
`clone_var`, by the kind of the tree; at a list, `clone_exprs`, `clone_stmts` and the other loops.
-/
def clone : {k : Kind} → Tree k → StateM Nat (Tree k)
  | _, .literal site value => return .literal (← positioned site) (cloneLiteral value)
  | _, .variable site name => return .variable (← positioned site) name
  | _, .binary site left op right => do
      let left ← clone left
      let right ← clone right
      return .binary (← positioned site) left op right
  | _, .await site operand => do
      let operand ← clone operand
      return .await (← positioned site) operand
  | _, .lambda site decl liftedName => do
      let decl ← clone decl
      return .lambda (← positioned site) decl liftedName
  | _, .unary site op operand => do
      let operand ← clone operand
      return .unary (← positioned site) op operand
  | _, .typeTest site value type => do
      let value ← clone value
      return .typeTest (← positioned site) value type
  | _, .cast site value typeName typeArguments => do
      let value ← clone value
      return .cast (← positioned site) value typeName typeArguments
  | _, .ternary site condition trueValue falseValue => do
      let condition ← clone condition
      let trueValue ← clone trueValue
      let falseValue ← clone falseValue
      return .ternary (← positioned site) condition trueValue falseValue
  | _, .call site functionName arguments argumentNames isNodePathSugar => do
      let arguments ← clone arguments
      return .call (← positioned site) functionName arguments argumentNames isNodePathSugar
  | _, .memberCall site object memberName arguments isMethodCall argumentNames safe safeChainRoot => do
      let object ← clone object
      let arguments ← clone arguments
      return .memberCall (← positioned site) object memberName arguments isMethodCall argumentNames
        safe safeChainRoot
  | _, .index site object index safeChainRoot => do
      let object ← clone object
      let index ← clone index
      return .index (← positioned site) object index safeChainRoot
  | _, .array site elements => do
      let elements ← clone elements
      return .array (← positioned site) elements
  | _, .dictionary site elements => do
      let elements ← clone elements
      return .dictionary (← positioned site) elements
  | _, .element key value => return .element (← clone key) (← clone value)
  | _, .pattern site own value elements entries structEntries => do
      let value ← clone value
      let elements ← clone elements
      let entries ← clone entries
      let structEntries ← clone structEntries
      return .pattern (← positioned site) (clonePattern own) value elements entries structEntries
  | _, .entry key value => return .entry (← clone key) (← clone value)
  | _, .structEntry name value => return .structEntry name (← clone value)
  | _, .exprStmt site expression => do
      let expression ← clone expression
      return .exprStmt (← positioned site) expression
  | _, .varStmt decl => return .varStmt (← clone decl)
  | _, .breakpoint site => return .breakpoint (← positioned site)
  | _, .assign site name value => do
      let value ← clone value
      return .assign (← positioned site) name value
  | _, .assignTarget site target value => do
      let target ← clone target
      let value ← clone value
      return .assignTarget (← positioned site) target value
  | _, .returnStmt site value => do
      let value ← clone value
      return .returnStmt (← positioned site) value
  | _, .ifStmt site condition thenBranch elseBranch => do
      let condition ← clone condition
      let thenBranch ← clone thenBranch
      let elseBranch ← clone elseBranch
      return .ifStmt (← positioned site) condition thenBranch elseBranch
  | _, .ifBinding site binding thenBranch elseBranch => do
      let binding ← clone binding
      let thenBranch ← clone thenBranch
      let elseBranch ← clone elseBranch
      return .ifBinding (← positioned site) binding thenBranch elseBranch
  | _, .whileStmt site condition body => do
      let condition ← clone condition
      let body ← clone body
      return .whileStmt (← positioned site) condition body
  | _, .forStmt site name iterable body => do
      let iterable ← clone iterable
      let body ← clone body
      return .forStmt (← positioned site) name iterable body
  | _, .breakStmt site => return .breakStmt (← positioned site)
  | _, .continueStmt site => return .continueStmt (← positioned site)
  | _, .passStmt site => return .passStmt (← positioned site)
  | _, .matchStmt site subject branches isSwitch => do
      let branches ← clone branches
      let subject ← clone subject
      return .matchStmt (← positioned site) subject branches isSwitch
  | _, .branch patterns guard body => return .branch (← clone patterns) (← clone guard) (← clone body)
  | _, .parameter site own defaultValue => do
      let defaultValue ← clone defaultValue
      return .parameter (← positioned site) (cloneParameter own) defaultValue
  | _, .function site own parameters body => do
      let parameters ← clone parameters
      let body ← clone body
      return .function (← positioned site) (cloneFunction own) parameters body
  | _, .var site own initializer setterBody getterBody => do
      let initializer ← clone initializer
      let setterBody ← clone setterBody
      let getterBody ← clone getterBody
      return .var (← positioned site) (cloneVar own) initializer setterBody getterBody
  | _, .null => return .null
  | _, .pointer target => return .pointer (← clone target)
  | _, .nil => return .nil
  | _, .cons head tail => return .cons (← clone head) (← clone tail)

/-! ## 3. What a copy keeps -/

@[simp] def Site.erase (site : Site) : Site := { site with address := 0 }

/-- The same tree at no place in particular. -/
@[simp] def Tree.erase : {k : Kind} → Tree k → Tree k
  | _, .literal site value => .literal site.erase value
  | _, .variable site name => .variable site.erase name
  | _, .binary site left op right => .binary site.erase left.erase op right.erase
  | _, .await site operand => .await site.erase operand.erase
  | _, .lambda site decl liftedName => .lambda site.erase decl.erase liftedName
  | _, .unary site op operand => .unary site.erase op operand.erase
  | _, .typeTest site value type => .typeTest site.erase value.erase type
  | _, .cast site value typeName typeArguments => .cast site.erase value.erase typeName typeArguments
  | _, .ternary site condition trueValue falseValue =>
    .ternary site.erase condition.erase trueValue.erase falseValue.erase
  | _, .call site functionName arguments argumentNames isNodePathSugar =>
    .call site.erase functionName arguments.erase argumentNames isNodePathSugar
  | _, .memberCall site object memberName arguments isMethodCall argumentNames safe safeChainRoot =>
    .memberCall site.erase object.erase memberName arguments.erase isMethodCall argumentNames safe
      safeChainRoot
  | _, .index site object key safeChainRoot => .index site.erase object.erase key.erase safeChainRoot
  | _, .array site elements => .array site.erase elements.erase
  | _, .dictionary site elements => .dictionary site.erase elements.erase
  | _, .element key value => .element key.erase value.erase
  | _, .pattern site own value elements entries structEntries =>
    .pattern site.erase own value.erase elements.erase entries.erase structEntries.erase
  | _, .entry key value => .entry key.erase value.erase
  | _, .structEntry name value => .structEntry name value.erase
  | _, .exprStmt site expression => .exprStmt site.erase expression.erase
  | _, .varStmt decl => .varStmt decl.erase
  | _, .breakpoint site => .breakpoint site.erase
  | _, .assign site name value => .assign site.erase name value.erase
  | _, .assignTarget site target value => .assignTarget site.erase target.erase value.erase
  | _, .returnStmt site value => .returnStmt site.erase value.erase
  | _, .ifStmt site condition thenBranch elseBranch =>
    .ifStmt site.erase condition.erase thenBranch.erase elseBranch.erase
  | _, .ifBinding site binding thenBranch elseBranch =>
    .ifBinding site.erase binding.erase thenBranch.erase elseBranch.erase
  | _, .whileStmt site condition body => .whileStmt site.erase condition.erase body.erase
  | _, .forStmt site name iterable body => .forStmt site.erase name iterable.erase body.erase
  | _, .breakStmt site => .breakStmt site.erase
  | _, .continueStmt site => .continueStmt site.erase
  | _, .passStmt site => .passStmt site.erase
  | _, .matchStmt site subject branches isSwitch =>
    .matchStmt site.erase subject.erase branches.erase isSwitch
  | _, .branch patterns guard body => .branch patterns.erase guard.erase body.erase
  | _, .parameter site own defaultValue => .parameter site.erase own defaultValue.erase
  | _, .function site own parameters body => .function site.erase own parameters.erase body.erase
  | _, .var site own initializer setterBody getterBody =>
    .var site.erase own initializer.erase setterBody.erase getterBody.erase
  | _, .null => .null
  | _, .pointer target => .pointer target.erase
  | _, .nil => .nil
  | _, .cons head tail => .cons head.erase tail.erase

/-- All fields are equal, here and below; only the addresses may differ. -/
def Equal {k : Kind} (t t' : Tree k) : Prop := t.erase = t'.erase

section Collect

variable {α : Type} (ofSite : Site → List α) (ofVar : VarDeclStmt → List α)

/-- What the objects of a tree have at their sites and as declarations of variables. -/
@[simp] def Tree.collect : {k : Kind} → Tree k → List α
  | _, .literal s _ | _, .variable s _ | _, .breakpoint s | _, .breakStmt s | _,
    .continueStmt s | _, .passStmt s =>
    ofSite s
  | _, .await s x | _, .lambda s x _ | _, .unary s _ x | _, .typeTest s x _ | _, .cast s x _ _ | _,
    .call s _ x _ _
  | _, .array s x | _, .dictionary s x | _, .exprStmt s x | _, .assign s _ x | _, .returnStmt s x
  | _, .parameter s _ x => ofSite s ++ x.collect
  | _, .binary s x _ y | _, .memberCall s x _ y _ _ _ _ | _, .index s x y _ | _, .assignTarget s x y
  | _, .whileStmt s x y | _, .forStmt s _ x y | _, .matchStmt s x y _ | _, .function s _ x y =>
    ofSite s ++ (x.collect ++ y.collect)
  | _, .ternary s x y z | _, .ifStmt s x y z | _, .ifBinding s x y z =>
    ofSite s ++ (x.collect ++ (y.collect ++ z.collect))
  | _, .pattern s _ x y z w => ofSite s ++ (x.collect ++ (y.collect ++ (z.collect ++ w.collect)))
  | _, .var s own x y z => ofVar own ++ (ofSite s ++ (x.collect ++ (y.collect ++ z.collect)))
  | _, .varStmt x | _, .structEntry _ x | _, .pointer x => x.collect
  | _, .element x y | _, .entry x y | _, .cons x y => x.collect ++ y.collect
  | _, .branch x y z => x.collect ++ (y.collect ++ z.collect)
  | _, .null | _, .nil => []

end Collect

@[simp] def Tree.addresses {k : Kind} (t : Tree k) : List Nat :=
  t.collect (fun s => [s.address]) fun _ => []

/-- The variables declared in the tree. -/
@[simp] def Tree.declarations {k : Kind} (t : Tree k) : List VarDeclStmt :=
  t.collect (fun _ => []) fun own => [own]

/-- `t'` is a copy made with the addresses from `b` on. -/
def Copied {k : Kind} (b : Nat) (t t' : Tree k) : Prop :=
  (t'.erase = t.erase ↔ t.declarations.all (!·.inferred)) ∧ t'.addresses.all (b ≤ ·)

-- the last step of a copy
theorem above_positioned {k : Kind} {b : Nat} {site : Site} {t : Tree k} {make : Site → Tree k}
    (h : ∀ s : Site, b ≤ s.address ∧ s.line = site.line ∧ s.column = site.column →
        Copied b t (make s)) :
    Above b (do return make (← positioned site)) (Copied b t) :=
  fun next hnext => ⟨Nat.le_succ_of_le hnext, h ⟨next, site.line, site.column⟩ ⟨hnext, rfl, rfl⟩⟩

theorem cloneVar_eq_iff (own : VarDeclStmt) : cloneVar own = own ↔ own.inferred = false := by
  obtain ⟨name, typeHint, isConst, isProperty, isStatic, isOnready, inferred⟩ := own
  simp [cloneVar, eq_comm]

theorem above_clone {k : Kind} (t : Tree k) (b : Nat) : Above b (clone t) (Copied b t) := by
  induction t with
  -- by the number of children, and in the order they are cloned
  | literal | «variable» | breakpoint | breakStmt | continueStmt | passStmt =>
    exact above_positioned fun s hs => by simp_all [Copied]
  | await _ _ ihx | lambda _ _ _ ihx | unary _ _ _ ihx | typeTest _ _ _ ihx | cast _ _ _ _ ihx
  | call _ _ _ _ _ ihx | array _ _ ihx | dictionary _ _ ihx | exprStmt _ _ ihx | assign _ _ _ ihx
  | returnStmt _ _ ihx =>
    exact ihx.bind fun x hx => above_positioned fun s hs => by simp_all [Copied]
  | binary _ _ _ _ ihx ihy | memberCall _ _ _ _ _ _ _ _ ihx ihy | index _ _ _ _ ihx ihy
  | assignTarget _ _ _ ihx ihy | whileStmt _ _ _ ihx ihy | forStmt _ _ _ _ ihx ihy
  | matchStmt _ _ _ _ ihy ihx =>
    exact ihx.bind fun x hx => ihy.bind fun y hy =>
      above_positioned fun s hs => by simp_all [Copied]
  | ternary _ _ _ _ ihx ihy ihz | ifStmt _ _ _ _ ihx ihy ihz | ifBinding _ _ _ _ ihx ihy ihz =>
    exact ihx.bind fun x hx => ihy.bind fun y hy => ihz.bind fun z hz =>
      above_positioned fun s hs => by simp_all [Copied]
  -- values, which have no address
  | null | nil => exact .pure (by simp_all [Copied])
  | pointer _ ihx | structEntry _ _ ihx | varStmt _ ihx =>
    exact ihx.bind fun x hx => .pure (by simp_all [Copied])
  | element _ _ ihx ihy | entry _ _ ihx ihy | cons _ _ ihx ihy =>
    exact ihx.bind fun x hx => ihy.bind fun y hy => .pure (by simp_all [Copied])
  | branch _ _ _ ihx ihy ihz =>
    exact ihx.bind fun x hx => ihy.bind fun y hy => ihz.bind fun z hz =>
      .pure (by simp_all [Copied])
  -- the classes whose other fields are copied one by one
  | parameter site own defaultValue ihx =>
    exact ihx.bind fun x hx => above_positioned fun s hs => by simp_all [Copied, cloneParameter]
  | pattern site own value elements entries structEntries ihx ihy ihz ihw =>
    exact ihx.bind fun x hx => ihy.bind fun y hy => ihz.bind fun z hz => ihw.bind fun w hw =>
      above_positioned fun s hs => by simp_all [Copied, clonePattern]
  | function site own parameters body ihx ihy =>
    exact ihx.bind fun x hx => ihy.bind fun y hy =>
      above_positioned fun s hs => by simp_all [Copied, cloneFunction]
  | var site own initializer setterBody getterBody ihx ihy ihz =>
    exact ihx.bind fun x hx => ihy.bind fun y hy => ihz.bind fun z hz =>
      above_positioned fun s hs => by simp_all [Copied, cloneVar_eq_iff]

/-- A copy of a tree that was there before is equal to it exactly when no variable is declared by
`:=`, and shares no object with it. -/
theorem clone_faithful {k : Kind} (t : Tree k) (next : Nat)
    (hbefore : ∀ a ∈ t.addresses, a < next) :
    (Equal (clone t next).1 t ↔ ∀ own ∈ t.declarations, own.inferred = false) ∧
      ∀ a ∈ (clone t next).1.addresses, a ∉ t.addresses := by
  obtain ⟨-, hequal, hnew⟩ := above_clone t next next (Nat.le_refl next)
  refine ⟨hequal.trans (by simp only [List.all_eq_true, Bool.not_eq_true']), fun a ha hold => ?_⟩
  have hle : next ≤ a := of_decide_eq_true (List.all_eq_true.mp hnew a ha)
  exact Nat.lt_irrefl a (Nat.lt_of_lt_of_le (hbefore a hold) hle)

/-- `func(): var x := 1`, or the same with `var x = 1`. -/
def lambdaDeclaring (inferred : Bool) : Tree .expr :=
  .lambda ⟨0, 1, 13⟩ (.function ⟨1, 1, 13⟩ { name := [], returnType := .mk [] [] false false } .nil
    (.cons (.varStmt (.var ⟨2, 1, 21⟩ { name := bytes "x", inferred }
      (.pointer (.literal ⟨3, 1, 30⟩ (.integer 1))) .null .null)) .nil)) []

theorem clone_faithful_lambda :
    Equal (clone (lambdaDeclaring false) 4).1 (lambdaDeclaring false) ∧
      ∀ a ∈ (clone (lambdaDeclaring false) 4).1.addresses,
        a ∉ (lambdaDeclaring false).addresses := by
  obtain ⟨hequal, hapart⟩ := clone_faithful (lambdaDeclaring false) 4 (by decide)
  exact ⟨hequal.mpr (by decide), hapart⟩

/-- The copy of a lambda with `var x := 1` is one with `var x = 1`. -/
theorem clone_forgets_inferred :
    ¬Equal (clone (lambdaDeclaring true) 4).1 (lambdaDeclaring true) := by
  intro hequal
  have hcopied := (above_clone (lambdaDeclaring true) 4 4 (Nat.le_refl 4)).2.1.mp hequal
  revert hcopied
  decide

end Parsing.Clone
