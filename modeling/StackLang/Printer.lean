import StackLang.Tree
import StackLang.Write

namespace StackLang.Printer

open Write

/-- What opens a block. -/
def opening : String := " \x7b\n"

def closing : String := "\x7d"

def literal (t : Token) : Write := do
  if t.kind = .stringVal then
    emit "\""
    emit t.lexeme
    emit "\""
  else emit t.lexeme

mutual

def expr : Expr → Write
  | .mk negated first op rest => do
    if negated = some true then emit "not "
    term first
    match op with
    | some t => emit (" " ++ t.lexeme ++ " ")
    | none => pure ()
    match rest with
    | some e => expr e
    | none => pure ()

def term : Term → Write
  | .literal t => literal t
  | .create type size args => do
    emit ("new " ++ type.lexeme)
    match size with
    | some e => expr e
    | none => throw (.crash .missingPart)
    match args with
    | some l => exprs l
    | none => throw (.crash .wrongKind)
  | .path refs => refs.forM fun r => emit r.name.lexeme
  | .call name args => do
    emit (name.lexeme ++ "(")
    match args with
    | some l => arguments l
    | none => throw (.crash .wrongKind)
    emit ")"
  | .group e => do
    emit "("
    expr e
    emit ")"

def exprs : List Expr → Write
  | [] => pure ()
  | e :: l => do
    expr e
    exprs l

/-- The negation of an argument is written twice. -/
def arguments : List Expr → Write
  | [] => pure ()
  | e :: l => do
    if e.negated = some true then emit "not "
    expr e
    arguments l

end

def dataType (t : DataType) : Write := do
  unless t.isArray do
    let name ← need t.name
    if name.lexeme = "void" then emit "void" else emit (name.lexeme ++ " ")

def varDef (d : VarDef) : Write := do
  dataType (← need d.type)
  emit (← need d.name).lexeme

def varDecl (d : VarDecl) : Write := do
  varDef d.var
  emit " = "
  expr (← need d.init)

def assign (a : Assign) : Write := do
  a.target.forM fun r => if r.index.isNone then emit (r.name.lexeme ++ " = ") else pure ()
  expr a.value

/-- Statements that end in a semicolon when they stand on a line of their own. -/
def terminator : Stmt → String
  | .decl _ | .assign _ | .ret _ | .call .. => ";"
  | _ => ""

mutual

def stmt (pad : String) : Stmt → Write
  | .ret e => do
    emit "return "
    expr e
  | .decl d => varDecl d
  | .assign a => assign a
  | .loop condition body => do
    emit "while ("
    expr condition
    emit (")" ++ opening)
    block pad body
    emit (pad ++ closing)
  | .count init condition step body => do
    emit "for ("
    varDecl init
    emit "; "
    expr condition
    emit "; "
    assign step
    emit (")" ++ opening)
    block pad body
    emit (pad ++ closing)
  | .choice (.mk condition body) others otherwise => do
    emit "if ("
    expr condition
    emit (")" ++ opening)
    block pad body
    emit (pad ++ closing ++ "\n")
    branches pad others
    alternatives pad otherwise
  | .call name args => term (.call name args)
  | .expr e => expr e

/-- The statements of a block, a line each. -/
def block (pad : String) : List Stmt → Write
  | [] => pure ()
  | s :: l => do
    emit (pad ++ pad)
    stmt pad s
    emit (terminator s ++ "\n")
    block pad l

def branches (pad : String) : List Branch → Write
  | [] => pure ()
  | .mk condition body :: l => do
    emit (pad ++ "else if (")
    expr condition
    emit (")" ++ opening)
    block pad body
    emit (pad ++ closing ++ "\n")
    branches pad l

/-- The last alternative. Each of its statements is taken for a block of statements. -/
def alternatives (pad : String) : List Stmt → Write
  | [] => pure ()
  | .loop _ body :: l => do
    emit (pad ++ "else" ++ opening)
    block pad body
    emit (pad ++ closing ++ "\n")
    alternatives pad l
  | .count _ _ _ body :: l => do
    emit (pad ++ "else" ++ opening)
    block pad body
    emit (pad ++ closing ++ "\n")
    alternatives pad l
  | _ :: _ => do
    emit (pad ++ "else" ++ opening)
    throw (.crash .missingPart)

end

def structDef (d : StructDef) : Write := do
  emit ("struct " ++ d.name.lexeme ++ opening)
  d.fields.forM fun f => do
    emit "  "
    varDef f
    emit ";\n"
  emit (closing ++ "\n")

def funDef (d : FunDef) : Write := do
  dataType d.returns
  emit (" " ++ d.name.lexeme ++ "(")
  separated ", " varDef d.params
  emit (")" ++ opening)
  d.body.forM fun s => do
    emit "  "
    stmt "  " s
    emit (terminator s ++ "\n")
  emit (closing ++ "\n")

def program (p : Program) : Write := do
  p.structs.forM fun d => do
    structDef d
    emit "\n"
  p.functions.forM fun d => do
    funDef d
    emit "\n"

/-- Any part of a tree. Steps of a path and branches are only written as part of what holds them. -/
def node : Node → Write
  | .program p => program p
  | .structDef d => structDef d
  | .funDef d => funDef d
  | .stmt s => stmt "" s
  | .expr e => expr e
  | .dataType t => dataType t
  | .varDef d => varDef d
  | .term t => term t
  | .ref _ | .branch _ => throw (.crash .missingPart)

end StackLang.Printer
