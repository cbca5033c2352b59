import Mathlib.Data.List.Forall2
import StackLang.Feed
import StackLang.Tree

namespace StackLang

/-- A token of a rendering: one that stands in the tree, or a sign of which only the kind counts. -/
inductive Mark where
  | held (t : Token)
  | sign (k : Token.Kind)
  deriving Repr, DecidableEq

namespace Mark

def kind : Mark → Token.Kind
  | held t => t.kind
  | sign k => k

/-- Whether a token may stand for a mark. A sign has any text and any place. -/
def fits : Mark → Token → Bool
  | held t, u => u == t
  | sign k, u => u.kind == k

theorem kind_of_fits {m : Mark} {t : Token} (h : m.fits t) : t.kind = m.kind := by
  cases m with
  | held u => rw [eq_of_beq h, kind]
  | sign k => exact eq_of_beq h

end Mark

/-- Tokens that are written down as a list of marks, one for each. -/
def Fits (ms : List Mark) (ts : List Token) : Prop := List.Forall₂ (fun m t => m.fits t) ms ts

instance (ms : List Mark) (ts : List Token) : Decidable (Fits ms ts) :=
  inferInstanceAs (Decidable (List.Forall₂ _ ms ts))

theorem Fits.of_concat {ms : List Mark} {ts : List Token} {m : Mark} {t : Token}
    (h : Fits (ms ++ [m]) (ts ++ [t])) : Fits ms ts := by
  have hlen : ms.length = ts.length := by simpa using h.length_eq
  have htake := List.forall₂_take ms.length h
  rwa [List.take_left, hlen, List.take_left] at htake

def inParens (ms : List Mark) : List Mark := .sign .lparen :: (ms ++ [.sign .rparen])

def inBrackets (ms : List Mark) : List Mark := .sign .lbracket :: (ms ++ [.sign .rbracket])

def inBraces (ms : List Mark) : List Mark := .sign .lbrace :: (ms ++ [.sign .rbrace])

theorem inParens_append (ms ns : List Mark) :
    inParens ms ++ ns = .sign .lparen :: (ms ++ (.sign .rparen :: ns)) := by
  simp [inParens]

def Token.Kind.namesType (k : Token.Kind) : Bool := k == .id || k.isBaseType

mutual

/-- Negation, first operand, operator and the rest, in this order. -/
def Expr.marks : Expr → List Mark
  | .mk negated first op rest =>
    (if negated = some true then [.sign .notOp] else []) ++ (first.marks ++ restMarks op rest)

def restMarks (op : Option Token) : Option Expr → List Mark
  | some e => (op.map Mark.held).toList ++ e.marks
  | none => []

def Term.marks : Term → List Mark
  | .literal t => [.held t]
  | .create type size args => .sign .newKw :: .held type :: (indexMarks size ++ listMarks args)
  | .path refs => pathMarks refs
  | .call _ _ => []
  | .group e => inParens e.marks

def listMarks : Option (List Expr) → List Mark
  | some l => inParens (argumentMarks l)
  | none => []

def argumentMarks : List Expr → List Mark
  | [] => []
  | e :: l => e.marks ++ moreMarks l

/-- Arguments behind a first one, each with a comma before it. -/
def moreMarks : List Expr → List Mark
  | [] => []
  | e :: l => .sign .comma :: (e.marks ++ moreMarks l)

def Ref.marks : Ref → List Mark
  | .mk name index => .held name :: indexMarks index

def indexMarks : Option Expr → List Mark
  | some e => inBrackets e.marks
  | none => []

def pathMarks : List Ref → List Mark
  | [] => []
  | r :: l => r.marks ++ selectorMarks l

/-- The steps of a path behind the first one, each with a dot before it. -/
def selectorMarks : List Ref → List Mark
  | [] => []
  | r :: l => .sign .dot :: (r.marks ++ selectorMarks l)

end

mutual

/-- Expressions with all their parts and without a call. -/
def Expr.regular : Expr → Bool
  | .mk negated first op rest =>
    negated.isSome && first.regular && op.isSome == rest.isSome &&
      op.all (·.kind.isOperator) && regularIfAny rest

def Term.regular : Term → Bool
  | .literal t => t.kind.isLiteral
  | .create type size args =>
    type.kind.namesType && size.isNone == args.isSome && regularIfAny size && regularList args
  | .path refs => !refs.isEmpty && regularRefs refs
  | .call _ _ => false
  | .group e => e.regular

def regularIfAny : Option Expr → Bool
  | some e => e.regular
  | none => true

def regularList : Option (List Expr) → Bool
  | some l => regularExprs l
  | none => true

def regularExprs : List Expr → Bool
  | [] => true
  | e :: l => e.regular && regularExprs l

def regularRefs : List Ref → Bool
  | [] => true
  | .mk name index :: l => name.kind == .id && regularIfAny index && regularRefs l

end

namespace DataType

def marks (t : DataType) : List Mark :=
  (if t.isArray then [.sign .arrayKw] else []) ++ (t.name.map Mark.held).toList

/-- A base type, a struct or an array of either. -/
def regular (t : DataType) : Bool := t.name.any (·.kind.namesType)

/-- Base types and arrays, which a first token other than a name shows. -/
def begins (t : DataType) : Bool := t.isArray || t.name.any (·.kind.isBaseType)

def isVoid (t : DataType) : Bool := !t.isArray && t.name.any (·.kind == .voidType)

end DataType

namespace VarDef

def marks (d : VarDef) : List Mark :=
  (d.type.map DataType.marks).getD [] ++ (d.name.map Mark.held).toList

def regular (d : VarDef) : Bool := d.type.any DataType.regular && d.name.any (·.kind == .id)

end VarDef

def fieldMarks : List VarDef → List Mark
  | [] => []
  | d :: l => d.marks ++ (.sign .semicolon :: fieldMarks l)

def moreParameterMarks : List VarDef → List Mark
  | [] => []
  | d :: l => .sign .comma :: (d.marks ++ moreParameterMarks l)

def parameterMarks : List VarDef → List Mark
  | [] => []
  | d :: l => d.marks ++ moreParameterMarks l

namespace VarDecl

def initMarks : Option Expr → List Mark
  | some e => .sign .assign :: e.marks
  | none => []

def marks (d : VarDecl) : List Mark := d.var.marks ++ initMarks d.init

def regular (d : VarDecl) : Bool := d.var.regular && regularIfAny d.init

end VarDecl

namespace Assign

def marks (a : Assign) : List Mark := pathMarks a.target ++ (.sign .assign :: a.value.marks)

def regular (a : Assign) : Bool := !a.target.isEmpty && regularRefs a.target && a.value.regular

end Assign

def Stmt.isCall : Stmt → Bool
  | .call _ _ => true
  | _ => false

mutual

def Stmt.marks : Stmt → List Mark
  | .ret e => .sign .returnKw :: (e.marks ++ [.sign .semicolon])
  | .decl d => d.marks ++ [.sign .semicolon]
  | .assign a => a.marks ++ [.sign .semicolon]
  | .loop condition body =>
    .sign .whileKw :: (inParens condition.marks ++ inBraces (stmtMarks body))
  | .count init condition step body =>
    .sign .forKw :: (inParens (init.marks ++ (.sign .semicolon ::
      (condition.marks ++ (.sign .semicolon :: step.marks)))) ++ inBraces (stmtMarks body))
  | .choice (.mk condition body) others otherwise =>
    .sign .ifKw :: (inParens condition.marks ++ (inBraces (stmtMarks body) ++
      (branchMarks others ++
        if otherwise.isEmpty then [] else .sign .elseKw :: inBraces (stmtMarks otherwise))))
  | .call callee args =>
    .held callee :: (listMarks args ++ [.sign .semicolon])
  | .expr _ => []

def stmtMarks : List Stmt → List Mark
  | [] => []
  | s :: l => s.marks ++ stmtMarks l

def branchMarks : List Branch → List Mark
  | [] => []
  | .mk condition body :: l =>
    .sign .elseifKw :: (inParens condition.marks ++ (inBraces (stmtMarks body) ++ branchMarks l))

end

mutual

/-- Statements without a hole. The call statements of an alternative branch are left out: the
parser keeps them twice. -/
def Stmt.regular : Stmt → Bool
  | .ret e => e.regular
  | .decl d => d.regular
  | .assign a => a.regular
  | .loop condition body => condition.regular && regularStmts body
  | .count init condition step body =>
    init.regular && init.var.type.any DataType.begins && condition.regular && step.regular &&
      regularStmts body
  | .choice (.mk condition body) others otherwise =>
    condition.regular && regularStmts body && regularBranches others &&
      regularStmts otherwise && otherwise.all (!·.isCall)
  | .call callee args => callee.kind == .id && args.isSome && regularList args
  | .expr _ => false

def regularStmts : List Stmt → Bool
  | [] => true
  | s :: l => s.regular && regularStmts l

def regularBranches : List Branch → Bool
  | [] => true
  | .mk condition body :: l =>
    condition.regular && regularStmts body && body.all (!·.isCall) && regularBranches l

end

namespace StructDef

def marks (d : StructDef) : List Mark :=
  .sign .structKw :: .held d.name :: inBraces (fieldMarks d.fields)

def regular (d : StructDef) : Bool := d.name.kind == .id && d.fields.all VarDef.regular

end StructDef

namespace FunDef

def marks (d : FunDef) : List Mark :=
  d.returns.marks ++ (.held d.name :: (inParens (parameterMarks d.params) ++
    inBraces (stmtMarks d.body)))

def regular (d : FunDef) : Bool :=
  (d.returns.regular || d.returns.isVoid) && d.name.kind == .id &&
    d.params.all VarDef.regular && regularStmts d.body

end FunDef

namespace Program

def marks (p : Program) : List Mark :=
  p.structs.flatMap StructDef.marks ++ p.functions.flatMap FunDef.marks

def regular (p : Program) : Bool := p.structs.all StructDef.regular && p.functions.all FunDef.regular

end Program

mutual

def Expr.tokens : Expr → List Token
  | .mk _ first op rest => first.tokens ++ (op.toList ++ tokensIfAny rest)

/-- The token behind the sign of a creation counts if it names a type. Otherwise it is seen there,
but it belongs to something else. -/
def Term.tokens : Term → List Token
  | .literal t => [t]
  | .create type size args =>
    (if type.kind.namesType then [type] else []) ++ (tokensIfAny size ++ listTokens args)
  | .path refs => refTokens refs
  | .call callee args => callee :: listTokens args
  | .group e => e.tokens

def tokensIfAny : Option Expr → List Token
  | some e => e.tokens
  | none => []

def listTokens : Option (List Expr) → List Token
  | some l => exprTokens l
  | none => []

def exprTokens : List Expr → List Token
  | [] => []
  | e :: l => e.tokens ++ exprTokens l

def refTokens : List Ref → List Token
  | [] => []
  | .mk name index :: l => name :: (tokensIfAny index ++ refTokens l)

end

def DataType.tokens (t : DataType) : List Token := t.name.toList

def VarDef.tokens (d : VarDef) : List Token := d.type.elim [] DataType.tokens ++ d.name.toList

def VarDecl.tokens (d : VarDecl) : List Token := d.var.tokens ++ tokensIfAny d.init

def Assign.tokens (a : Assign) : List Token := refTokens a.target ++ a.value.tokens

mutual

def Stmt.tokens : Stmt → List Token
  | .ret e => e.tokens
  | .decl d => d.tokens
  | .assign a => a.tokens
  | .loop condition body => condition.tokens ++ stmtTokens body
  | .count init condition step body =>
    init.tokens ++ (condition.tokens ++ (step.tokens ++ stmtTokens body))
  | .choice (.mk condition body) others otherwise =>
    condition.tokens ++ (stmtTokens body ++ (branchTokens others ++ stmtTokens otherwise))
  | .call callee args => callee :: listTokens args
  | .expr e => e.tokens

def stmtTokens : List Stmt → List Token
  | [] => []
  | s :: l => s.tokens ++ stmtTokens l

def branchTokens : List Branch → List Token
  | [] => []
  | .mk condition body :: l => condition.tokens ++ (stmtTokens body ++ branchTokens l)

end

def StructDef.tokens (d : StructDef) : List Token := d.name :: d.fields.flatMap VarDef.tokens

def FunDef.tokens (d : FunDef) : List Token :=
  d.returns.tokens ++ d.name :: (d.params.flatMap VarDef.tokens ++ stmtTokens d.body)

def Program.tokens (p : Program) : List Token :=
  p.structs.flatMap StructDef.tokens ++ p.functions.flatMap FunDef.tokens

end StackLang
