import GdscriptCompiler.Parsing.Ast

/-!
# Declarations — a script as the passes over whole programs see it

What merging and splicing carry along unread (parameters, bodies, initial values, attributes) has
type `P`.
-/

namespace Program

open Lexing Parsing

variable {P : Type}

structure FunctionDecl (P : Type) where
  name : String
  line : Nat
  column : Nat
  isAbstract : Bool
  traitOrigin : String := ""
  chainLink : Nat := 0
  -- the declared name, once an override has moved this copy to another symbol
  chainName : String := ""
  body : P

/-- `declared_name`: what `super()` in the body looks up. -/
def FunctionDecl.declaredName (f : FunctionDecl P) : String :=
  if f.chainName = "" then f.name else f.chainName

structure VarDecl (P : Type) where
  name : String
  typeHint : TypeExpr
  initializer : P
  isConst : Bool
  isProperty : Bool
  isOnready : Bool
  traitOrigin : String := ""
  chainLink : Nat := 0
  setterBody : Option (FunctionDecl P) := none
  getterBody : Option (FunctionDecl P) := none
  line : Nat
  column : Nat

structure StructField (P : Type) where
  name : String
  typeHint : TypeExpr
  defaultValue : P
  traitOrigin : String := ""
  line : Nat
  column : Nat

structure SignalDecl (P : Type) where
  name : String
  parameters : P
  line : Nat
  column : Nat

structure EnumDecl (P : Type) where
  name : String
  members : P
  line : Nat
  column : Nat

structure StructDecl (P : Type) where
  name : String
  isClass : Bool
  uses : List String
  fields : List (StructField P)
  methods : List (FunctionDecl P)
  constants : List (StructField P)
  line : Nat
  column : Nat

structure TraitDecl (P : Type) where
  name : String
  baseName : String
  uses : List String
  vars : List (VarDecl P)
  constants : List (StructField P)
  enums : List (EnumDecl P)
  signals : List (SignalDecl P)
  methods : List (FunctionDecl P)
  line : Nat
  column : Nat

/-- `ChainInfo::Origin`: a link that declares a function, and the symbol its copy ends up under. -/
structure Origin where
  link : Nat
  symbol : String
  deriving DecidableEq

structure ChainInfo where
  classNames : List String
  paths : List String
  functions : String → List Origin

structure Script (P : Type) where
  isTool : Bool
  className : String
  classNameLine : Nat
  classNameColumn : Nat
  baseClass : String
  baseIsPath : Bool
  baseClassLine : Nat
  baseClassColumn : Nat
  nativeBaseClass : String
  nativeBaseIsPath : Bool
  uses : List String
  chain : ChainInfo
  globals : List (VarDecl P)
  structs : List (StructDecl P)
  traits : List (TraitDecl P)
  enums : List (EnumDecl P)
  signals : List (SignalDecl P)
  functions : List (FunctionDecl P)

/-- A `CompilerException` of a semantic error. -/
structure SemanticError where
  message : String
  file : String := ""
  line : Nat
  column : Nat
  hint : String := ""
  deriving DecidableEq

/-- `super_of`: the last origin below the link. -/
def ChainInfo.superOf (chain : ChainInfo) (name : String) (link : Nat) : Option Origin :=
  ((chain.functions name).filter (·.link < link)).getLast?

/-- The function a call of the symbol runs; the last of the name, as `m_local_signatures` keeps it.
-/
def Script.callee (script : Script P) (symbol : String) : Option (FunctionDecl P) :=
  script.functions.reverse.find? (·.name = symbol)

/-- A name as the lexer gives it, with none of the marks that symbols of the compiler's own contain.
-/
def IsIdentifier (name : String) : Prop := ∀ c ∈ name.toList, c ≠ '@' ∧ c ≠ '.'

instance (name : String) : Decidable (IsIdentifier name) := List.decidableBAll _ _

/-- `displaced_trait_symbol`: a trait's method that the class overrides. -/
def displacedTraitSymbol (trait method : String) : String := "@trait." ++ trait ++ "." ++ method

end Program
