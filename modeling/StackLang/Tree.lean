import StackLang.Token

namespace StackLang

structure DataType where
  isArray : Bool
  name : Option Token
  deriving Repr, DecidableEq

structure VarDef where
  type : Option DataType
  name : Option Token
  deriving Repr, DecidableEq

mutual

/-- A first operand and, behind an operator, the rest. The negation applies to the whole; it is
left open in an expression that only wraps a call. -/
inductive Expr where
  | mk (negated : Option Bool) (first : Term) (op : Option Token) (rest : Option Expr)

inductive Term where
  | literal (value : Token)
  | create (type : Token) (size : Option Expr) (args : Option (List Expr))
  | path (refs : List Ref)
  | call (callee : Token) (args : Option (List Expr))
  | group (inner : Expr)

/-- One step of a path: a variable or field, with an index or without. -/
inductive Ref where
  | mk (name : Token) (index : Option Expr)

end

namespace Expr

def negated : Expr → Option Bool
  | mk negated _ _ _ => negated

def first : Expr → Term
  | mk _ first _ _ => first

def op : Expr → Option Token
  | mk _ _ op _ => op

def rest : Expr → Option Expr
  | mk _ _ _ rest => rest

/-- An operand on its own. -/
def operand (t : Term) : Expr := mk (some false) t none none

def negate : Expr → Expr
  | mk _ first op rest => mk (some true) first op rest

def withFirst : Expr → Term → Expr
  | mk negated _ op rest, t => mk negated t op rest

def withRest : Expr → Expr → Expr
  | mk negated first op _, r => mk negated first op (some r)

end Expr

namespace Ref

def name : Ref → Token
  | mk name _ => name

def index : Ref → Option Expr
  | mk _ index => index

end Ref

structure VarDecl where
  var : VarDef
  init : Option Expr

structure Assign where
  target : List Ref
  value : Expr

mutual

inductive Stmt where
  | ret (value : Expr)
  | decl (d : VarDecl)
  | assign (a : Assign)
  | loop (condition : Expr) (body : List Stmt)
  | count (init : VarDecl) (condition : Expr) (step : Assign) (body : List Stmt)
  | choice (first : Branch) (others : List Branch) (otherwise : List Stmt)
  | call (callee : Token) (args : Option (List Expr))
  | expr (e : Expr)

inductive Branch where
  | mk (condition : Expr) (body : List Stmt)

end

namespace Branch

def condition : Branch → Expr
  | mk condition _ => condition

def body : Branch → List Stmt
  | mk _ body => body

end Branch

structure StructDef where
  name : Token
  fields : List VarDef

structure FunDef where
  returns : DataType
  name : Token
  params : List VarDef
  body : List Stmt

structure Program where
  structs : List StructDef
  functions : List FunDef

/-- Any part of a tree. -/
inductive Node where
  | program (p : Program)
  | structDef (d : StructDef)
  | funDef (d : FunDef)
  | stmt (s : Stmt)
  | expr (e : Expr)
  | dataType (t : DataType)
  | varDef (d : VarDef)
  | term (t : Term)
  | ref (r : Ref)
  | branch (b : Branch)

/-- The type of a field. -/
def StructDef.fieldType? (d : StructDef) (field : String) : Option DataType :=
  match d.fields.find? fun v => (v.name.map Token.lexeme) == some field with
  | some v => v.type
  | none => none

end StackLang
