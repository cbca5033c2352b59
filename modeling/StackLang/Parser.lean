import StackLang.Feed
import StackLang.Tree

namespace StackLang.Parser

open Parse

def callee (e : Expr) : Parse Token :=
  match e.first with
  | .path (r :: _) => pure r.name
  | .path [] => throw (.crash .outOfRange)
  | _ => throw (.crash .missingPart)

/-- What the arguments of a call may start with. -/
def opensArgument (k : Token.Kind) : Bool :=
  k.isOperator || k.isLiteral || k == .lparen || k == .notOp || k == .id || k == .newKw

mutual

def expr : Nat → Parse Expr
  | 0 => throw (.crash .exhausted)
  | n + 1 => do
    match ← kind with
    | .intVal | .doubleVal | .boolVal | .stringVal | .nullVal | .newKw | .id =>
      operation n (← operand n)
    | .notOp =>
      advance
      return (← expr n).negate
    | .lparen =>
      advance
      let inner ← expr n
      expect .rparen .groupEnd
      operation n (.group inner)
    | _ => reject .operand

/-- A first operand with the operator and the right side that follow it, if any do. -/
def operation : Nat → Term → Parse Expr
  | 0, _ => throw (.crash .exhausted)
  | n + 1, first => do
    let t ← look
    if t.kind.isOperator then
      advance
      return .mk (some false) first (some t) (some (← expr n))
    else return .operand first

def operand : Nat → Parse Term
  | 0 => throw (.crash .exhausted)
  | n + 1 => do
    match ← kind with
    | .newKw => creation n
    | .id => return .path (← path n (← take .id))
    | _ =>
      let t ← look
      advance
      return .literal t

def creation : Nat → Parse Term
  | 0 => throw (.crash .exhausted)
  | n + 1 => do
    eat .newKw
    let type ← look
    if type.kind = .id ∨ type.kind.isBaseType then advance
    match ← kind with
    | .lparen =>
      advance
      if ← sees .rparen then
        advance
        return .create type none (some [])
      let first ← expr n
      let others ← moreArguments n
      eat .rparen
      return .create type none (some (first :: others))
    | .lbracket => return .create type (← index n) none
    | _ => return .create type none (some [])

def moreArguments : Nat → Parse (List Expr)
  | 0 => throw (.crash .exhausted)
  | n + 1 => do
    if ← sees .comma then
      advance
      let e ← expr n
      return e :: (← moreArguments n)
    else return []

/-- An index in brackets, if a bracket is next. -/
def index : Nat → Parse (Option Expr)
  | 0 => throw (.crash .exhausted)
  | n + 1 => do
    if ← sees .lbracket then
      advance
      let e ← expr n
      eat .rbracket
      return some e
    else return none

def selectors : Nat → Parse (List Ref)
  | 0 => throw (.crash .exhausted)
  | n + 1 => do
    if ← sees .dot then
      advance
      let name ← take .id
      let i ← index n
      return .mk name i :: (← selectors n)
    else return []

def path : Nat → Token → Parse (List Ref)
  | 0, _ => throw (.crash .exhausted)
  | n + 1, name => do
    let i ← index n
    return .mk name i :: (← selectors n)

end

/-- The arguments of a call, absent when no parenthesis follows the callee. A first argument that
is itself a call is the only one. -/
def arguments : Nat → Parse (Option (List Expr))
  | 0 => throw (.crash .exhausted)
  | n + 1 => do
    if ← sees .lparen then
      advance
      let args ←
        if opensArgument (← kind) then do
          let e ← expr n
          if ← sees .lparen then
            let name ← callee e
            let inner ← arguments n
            pure [e.withFirst (.call name inner)]
          else pure (e :: (← moreArguments n))
        else pure []
      expect .rparen .callEnd
      return some args
    else return none

/-- A type. Where none stands there is nothing to read it from. -/
def dataType : Parse DataType := do
  let t ← look
  match t.kind with
  | .intType | .doubleType | .boolType | .stringType | .id =>
    advance
    return ⟨false, some t⟩
  | .voidType => return ⟨false, some t⟩
  | .arrayKw =>
    advance
    let e ← look
    if e.kind = .id ∨ e.kind.isBaseType then
      advance
      return ⟨true, some e⟩
    else return ⟨true, none⟩
  | _ => throw (.crash .wrongKind)

/-- The name and type of a declaration. A name that stands where a type may stand is the variable,
and its type is the name read before it, `named`. -/
def declared (named : Option Token) : Parse VarDef := do
  let t ← look
  if t.kind.isBaseType ∨ t.kind = .arrayKw then
    let type ← dataType
    return ⟨some type, some (← take .id)⟩
  else if t.kind = .id then
    advance
    return ⟨some ⟨false, named⟩, some t⟩
  else return ⟨none, none⟩

def declaration (n : Nat) (named : Option Token) : Parse VarDecl := do
  let var ← declared named
  if ← sees .assign then
    advance
    let e ← expr n
    if ← sees .lparen then
      let name ← callee e
      return ⟨var, some (e.withFirst (.call name (← arguments n)))⟩
    else return ⟨var, some e⟩
  else return ⟨var, none⟩

def assignment (n : Nat) (name : Token) : Parse Assign := do
  let target ← path n name
  eat .assign
  return ⟨target, ← expr n⟩

/-- An expression whose last operand turns out to be a call. -/
def callInRest (n : Nat) (e : Expr) : Parse Expr := do
  match e.rest with
  | none => throw (.crash .missingPart)
  | some r =>
    let name ← callee r
    return e.withRest (.operand (.call name (← arguments n)))

def condition (n : Nat) : Parse Expr := do
  let e ← expr n
  if ← sees .lparen then
    if e.op.isNone then
      let name ← callee e
      return e.withFirst (.call name (← arguments n))
    else callInRest n e
  else return e

/-- Operators and calls that follow a returned call; the last of them counts. -/
def returnedCalls : Nat → Expr → Parse Expr
  | 0, _ => throw (.crash .exhausted)
  | n + 1, e => do
    let op ← look
    if op.kind.isOperator then
      advance
      let name ← look
      advance
      let r := Expr.operand (.call name (← arguments n))
      returnedCalls n (.mk e.negated e.first (some op) (some r))
    else return e

/-- What follows `return`. A call is allowed where the expression starts with a path. -/
def returned (n : Nat) : Parse Expr := do
  let e ← expr n
  match e.first with
  | .path _ =>
    if ← sees .lparen then
      if e.op.isNone then
        let name ← callee e
        returnedCalls n (e.withFirst (.call name (← arguments n)))
      else callInRest n e
    else return e
  | _ => return e

/-- A statement as it is kept in an alternative branch: a call is kept twice, the first time
wrapped as an expression. -/
def echo : Stmt → List Stmt
  | .call name args => [.expr (.mk none (.call name args) none none), .call name args]
  | s => [s]

mutual

def stmt : Nat → Parse Stmt
  | 0 => throw (.crash .exhausted)
  | n + 1 => do
    match ← kind with
    | .whileKw =>
      advance
      eat .lparen
      if ← sees .rparen then reject .whileCondition
      let e ← expr n
      eat .rparen
      return .loop e (← block n)
    | .elseifKw | .elseKw => reject .ifBefore
    | .ifKw =>
      advance
      eat .lparen
      if ← sees .rparen then reject .ifCondition
      let e ← expr n
      eat .rparen
      let body ← block n
      let (others, otherwise) ← alternatives n
      return .choice (.mk e body) others otherwise
    | .forKw =>
      advance
      eat .lparen
      let init ← declaration n none
      eat .semicolon
      let e ← condition n
      eat .semicolon
      let name ← look
      advance
      let step ← assignment n name
      eat .rparen
      return .count init e step (← block n)
    | .returnKw =>
      advance
      let e ← returned n
      eat .semicolon
      return .ret e
    | .intType | .doubleType | .boolType | .stringType | .arrayKw =>
      let d ← declaration n none
      eat .semicolon
      return .decl d
    | .id =>
      let name ← take .id
      let s ←
        match ← kind with
        | .lparen => pure (.call name (← arguments n))
        | .lbrace | .dot | .assign | .lbracket => pure (.assign (← assignment n name))
        | _ => pure (.decl (← declaration n (some name)))
      eat .semicolon
      return s
    | _ => reject .statement

def alternatives : Nat → Parse (List Branch × List Stmt)
  | 0 => throw (.crash .exhausted)
  | n + 1 => do
    match ← kind with
    | .elseifKw =>
      advance
      eat .lparen
      let e ← expr n
      eat .rparen
      let body ← block n
      let (others, otherwise) ← alternatives n
      return (.mk e (body.flatMap echo) :: others, otherwise)
    | .elseKw =>
      advance
      let body ← block n
      return ([], body.flatMap echo)
    | _ => return ([], [])

def block : Nat → Parse (List Stmt)
  | 0 => throw (.crash .exhausted)
  | n + 1 => do
    eat .lbrace
    let body ← stmts n
    eat .rbrace
    return body

def stmts : Nat → Parse (List Stmt)
  | 0 => throw (.crash .exhausted)
  | n + 1 => do
    if ← sees .rbrace then return []
    let s ← stmt n
    return s :: (← stmts n)

end

/-- The statements of a function. Unlike those of an inner block they may run into the end. -/
def body : Nat → Parse (List Stmt)
  | 0 => throw (.crash .exhausted)
  | n + 1 => do
    let k ← kind
    if k = .rbrace ∨ k = .eos then return []
    let s ← stmt n
    return s :: (← body n)

def fields : Nat → Parse (List VarDef)
  | 0 => throw (.crash .exhausted)
  | n + 1 => do
    if ← sees .rbrace then return []
    let type ← dataType
    let name ← take .id
    eat .semicolon
    return ⟨some type, some name⟩ :: (← fields n)

def structDef (n : Nat) : Parse StructDef := do
  eat .structKw
  let name ← take .id
  eat .lbrace
  let fs ← fields n
  eat .rbrace
  return ⟨name, fs⟩

def parameter : Parse VarDef := do
  let type ← dataType
  return ⟨some type, some (← take .id)⟩

def moreParameters : Nat → Parse (List VarDef)
  | 0 => throw (.crash .exhausted)
  | n + 1 => do
    if ← sees .comma then
      advance
      let p ← parameter
      return p :: (← moreParameters n)
    else return []

def parameters (n : Nat) : Parse (List VarDef) := do
  if ← sees .rparen then return []
  let p ← parameter
  return p :: (← moreParameters n)

def returnType : Parse DataType := do
  match ← kind with
  | .intType | .doubleType | .boolType | .stringType | .id | .arrayKw => dataType
  | .voidType =>
    let type ← dataType
    advance
    return type
  | _ => reject .definition

def funDef (n : Nat) : Parse FunDef := do
  let type ← returnType
  let name ← take .id
  eat .lparen
  let params ← parameters n
  expect .rparen .parametersEnd
  eat .lbrace
  let stmts ← body n
  expect .rbrace .bodyEnd
  return ⟨type, name, params, stmts⟩

def definitions : Nat → Parse Program
  | 0 => throw (.crash .exhausted)
  | n + 1 => do
    match ← kind with
    | .eos => return ⟨[], []⟩
    | .structKw =>
      let d ← structDef n
      let p ← definitions n
      return { p with structs := d :: p.structs }
    | _ =>
      let d ← funDef n
      let p ← definitions n
      return { p with functions := d :: p.functions }

def program : Parse Program := do
  let n := depth (← get)
  advance
  let p ← definitions n
  eat .eos
  return p

/-- The tree of a source, or the failure at which reading it ends. -/
def parse (source : Source) : Except Failure Program :=
  match program.run (Feed.ofSource source) with
  | .ok p _ => .ok p
  | .error e _ => .error e

end StackLang.Parser
