import StackLang.Feed

namespace StackLang.Recognizer

open Parse

mutual

def expr : Nat → Parse Unit
  | 0 => throw (.crash .exhausted)
  | n + 1 => do
    match ← kind with
    | .intVal | .doubleVal | .boolVal | .stringVal | .nullVal | .newKw | .id =>
      operand n
      operation n
    | .notOp =>
      advance
      expr n
    | .lparen =>
      advance
      expr n
      eat .rparen
      operation n
    | .rparen => pure ()
    | _ => reject .expression

/-- An operator and its right side, if an operator is next. -/
def operation : Nat → Parse Unit
  | 0 => throw (.crash .exhausted)
  | n + 1 => do
    if (← kind).isOperator then
      advance
      expr n

def operand : Nat → Parse Unit
  | 0 => throw (.crash .exhausted)
  | n + 1 => do
    match ← kind with
    | .newKw => creation n
    | .id =>
      advance
      match ← kind with
      | .lbracket | .dot => path n
      | .lparen => arguments n
      | _ => pure ()
    | _ => advance

def creation : Nat → Parse Unit
  | 0 => throw (.crash .exhausted)
  | n + 1 => do
    eat .newKw
    let k ← kind
    if k = .id ∨ k.isBaseType then advance
    match ← kind with
    | .lparen =>
      advance
      expr n
      moreArguments n
      eat .rparen
    | .lbracket => index n
    | _ => pure ()

def arguments : Nat → Parse Unit
  | 0 => throw (.crash .exhausted)
  | n + 1 => do
    eat .lparen
    if ← sees .rparen then advance
    else
      expr n
      moreArguments n
      eat .rparen

def moreArguments : Nat → Parse Unit
  | 0 => throw (.crash .exhausted)
  | n + 1 => do
    if ← sees .comma then
      advance
      expr n
      moreArguments n

/-- An index in brackets, if a bracket is next. -/
def index : Nat → Parse Unit
  | 0 => throw (.crash .exhausted)
  | n + 1 => do
    if ← sees .lbracket then
      advance
      expr n
      eat .rbracket

def selectors : Nat → Parse Unit
  | 0 => throw (.crash .exhausted)
  | n + 1 => do
    if ← sees .dot then
      advance
      eat .id
      index n
      selectors n

/-- What may follow the name that a path starts with. -/
def path : Nat → Parse Unit
  | 0 => throw (.crash .exhausted)
  | n + 1 => do
    index n
    selectors n

end

/-- A type; where none stands, what may follow a name is taken in its place. -/
def dataType : Nat → Parse Unit
  | 0 => throw (.crash .exhausted)
  | n + 1 => do
    match ← kind with
    | .intType | .doubleType | .boolType | .stringType | .id => advance
    | .arrayKw =>
      advance
      dataType n
    | _ => path n

def declaration (n : Nat) : Parse Unit := do
  let k ← kind
  dataType n
  if k.isBaseType ∨ k = .arrayKw then eat .id
  if ← sees .assign then
    advance
    expr n

def assignment (n : Nat) : Parse Unit := do
  if ← sees .id then advance
  path n
  eat .assign
  expr n

mutual

def stmt : Nat → Parse Unit
  | 0 => throw (.crash .exhausted)
  | n + 1 => do
    match ← kind with
    | .whileKw =>
      advance
      eat .lparen
      if ← sees .rparen then reject .whileCondition
      expr n
      eat .rparen
      block n
    | .elseifKw | .elseKw => reject .ifBefore
    | .ifKw =>
      advance
      eat .lparen
      if ← sees .rparen then reject .ifCondition
      expr n
      eat .rparen
      block n
      alternatives n
    | .forKw =>
      advance
      eat .lparen
      declaration n
      eat .semicolon
      expr n
      eat .semicolon
      assignment n
      eat .rparen
      block n
    | .returnKw =>
      advance
      expr n
      eat .semicolon
    | .intType | .doubleType | .boolType | .stringType | .arrayKw =>
      declaration n
      eat .semicolon
    | .id =>
      advance
      match ← kind with
      | .lparen => arguments n
      | .lbrace | .dot | .assign => assignment n
      | _ => declaration n
      eat .semicolon
    | _ => reject .statement

def alternatives : Nat → Parse Unit
  | 0 => throw (.crash .exhausted)
  | n + 1 => do
    match ← kind with
    | .elseifKw =>
      advance
      eat .lparen
      expr n
      eat .rparen
      block n
      alternatives n
    | .elseKw =>
      advance
      block n
    | _ => pure ()

def block : Nat → Parse Unit
  | 0 => throw (.crash .exhausted)
  | n + 1 => do
    eat .lbrace
    stmts n
    eat .rbrace

def stmts : Nat → Parse Unit
  | 0 => throw (.crash .exhausted)
  | n + 1 => do
    unless ← sees .rbrace do
      stmt n
      stmts n

end

/-- The statements of a function. Unlike those of an inner block they may run into the end. -/
def body : Nat → Parse Unit
  | 0 => throw (.crash .exhausted)
  | n + 1 => do
    let k ← kind
    unless k = .rbrace ∨ k = .eos do
      stmt n
      body n

def fields : Nat → Parse Unit
  | 0 => throw (.crash .exhausted)
  | n + 1 => do
    unless ← sees .rbrace do
      dataType n
      eat .id
      eat .semicolon
      fields n

def structDef (n : Nat) : Parse Unit := do
  eat .structKw
  eat .id
  eat .lbrace
  fields n
  eat .rbrace

def moreParameters : Nat → Parse Unit
  | 0 => throw (.crash .exhausted)
  | n + 1 => do
    if ← sees .comma then
      advance
      dataType n
      eat .id
      moreParameters n

def parameters (n : Nat) : Parse Unit := do
  unless ← sees .rparen do
    dataType n
    eat .id
    moreParameters n

def funDef (n : Nat) : Parse Unit := do
  match ← kind with
  | .intType | .doubleType | .boolType | .stringType | .id | .arrayKw => dataType n
  | .voidType => advance
  | _ => reject .definition
  eat .id
  eat .lparen
  parameters n
  expect .rparen .parametersEnd
  eat .lbrace
  body n
  expect .rbrace .bodyEnd

def definitions : Nat → Parse Unit
  | 0 => throw (.crash .exhausted)
  | n + 1 => do
    match ← kind with
    | .eos => pure ()
    | .structKw =>
      structDef n
      definitions n
    | _ =>
      funDef n
      definitions n

/-- Accepts a whole program. -/
def program : Parse Unit := do
  let n := depth (← get)
  advance
  definitions n
  eat .eos

end StackLang.Recognizer
