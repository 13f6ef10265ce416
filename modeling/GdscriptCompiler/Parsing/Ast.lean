import GdscriptCompiler.Lexing.Token

/-!
# Ast — expressions as the parser builds them

Positions are left out, and the statements of a lambda are a parameter.
-/

namespace Parsing

open Lexing

inductive StringType where
  | plain | stringName | nodePath
  deriving DecidableEq

inductive Literal where
  | integer (v : Int64)
  -- a double, as its bit pattern
  | float (bits : UInt64)
  | string (type : StringType) (s : Bytes)
  | bool (b : Bool)
  | null
  deriving DecidableEq

/-- A type: names joined by `|`, the arguments of a sole container name, and whether null is a
member. -/
inductive TypeExpr where
  | mk (names : List Bytes) (arguments : List TypeExpr) (nullable spelledNullable : Bool)

mutual

/-- `TypeExpr::to_string`. -/
def TypeExpr.toText : TypeExpr → Bytes
  | .mk names arguments nullable spelledNullable =>
    let element := if names.length = 1 && !arguments.isEmpty then bytes "[" ++
      separated arguments ++ bytes "]" else []
    let union := fun (result name : Bytes) => if result.isEmpty then name else result ++
      bytes " | " ++ name
    let result := names.foldl (fun result name => union result name ++ element) []
    if !nullable then result
    else if spelledNullable && names.length = 1 then result ++ bytes "?"
    else union result (bytes "null")

def TypeExpr.separated : List TypeExpr → Bytes
  | [] => []
  | [type] => type.toText
  | type :: rest => type.toText ++ bytes ", " ++ separated rest

end

inductive BinaryOp where
  | add | sub | mul | div | mod | pow
  | eq | neq | lt | lte | gt | gte
  | and | or
  | bitAnd | bitOr | bitXor | shl | shr
  | contained
  | coalesce
  deriving DecidableEq

inductive UnaryOp where
  | neg | not | bitNot
  deriving DecidableEq

inductive Expr (L : Type) where
  | literal (l : Literal)
  | variable (name : Bytes)
  | binary (left : Expr L) (op : BinaryOp) (right : Expr L)
  | await (operand : Expr L)
  | lambda (decl : L)
  | unary (op : UnaryOp) (operand : Expr L)
  | typeTest (value : Expr L) (type : TypeExpr)
  | cast (value : Expr L) (typeName : Bytes) (typeArguments : List TypeExpr)
  | ternary (condition trueValue falseValue : Expr L)
  | call (functionName : Bytes) (arguments : List (Expr L)) (argumentNames : List Bytes)
    (isNodePathSugar : Bool)
  | memberCall (object : Expr L) (memberName : Bytes) (arguments : List (Expr L))
    (argumentNames : List Bytes)
      (isMethodCall safe safeChainRoot : Bool)
  | index (object index : Expr L) (safeChainRoot : Bool)
  | array (elements : List (Expr L))
  | dictionary (elements : List (Expr L × Expr L))

end Parsing
