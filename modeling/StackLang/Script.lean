import StackLang.Tree.Equality
import StackLang.Write

namespace StackLang.Script

open Write

def literal (t : Token) : Write := do
  if t.kind = .stringVal then emit ("\"" ++ t.lexeme ++ "\"") else emit t.lexeme

mutual

def expr : Expr → Write
  | .mk negated first op rest => do
    if negated = some true then emit "not "
    term first
    match op with
    | some t => emit (" " ++ t.lexeme ++ " ")
    | none => pure ()
    match rest with
    | some e => expr e
    | none => pure ()

def term : Term → Write
  | .literal t => literal t
  | .create .. => pure ()
  | .path refs => refs.forM fun r => emit r.name.lexeme
  | .call name args => do
    emit (name.lexeme ++ "(")
    match args with
    | some l => arguments l.getLast? l
    | none => throw (.crash .wrongKind)
    emit ")"
  | .group _ => pure ()

/-- A comma follows each argument that differs from the last one. -/
def arguments (last : Option Expr) : List Expr → Write
  | [] => pure ()
  | e :: l => do
    expr e
    match last with
    | some e' => unless e.same e' do emit ", "
    | none => pure ()
    arguments last l

end

def varDef (d : VarDef) : Write := do emit (← need d.name).lexeme

def stmt : Stmt → Write
  | .ret e => do
    emit "return "
    expr e
  | .call name args => term (.call name args)
  | .expr e => expr e
  | .decl _ | .assign _ | .loop .. | .count .. | .choice .. => pure ()

def funDef (d : FunDef) : Write := do
  emit ("def " ++ d.name.lexeme ++ "(")
  separated ", " varDef d.params
  emit "):\n"
  d.body.forM fun s => do
    emit "    "
    stmt s
    emit "\n"

/-- The script ends by calling the entry function. -/
def program (p : Program) : Write := do
  p.structs.forM fun _ => emit "\n"
  p.functions.forM fun d => do
    funDef d
    emit "\n"
  emit "main()"

/-- Any part of a tree. Steps of a path and branches are only written as part of what holds them. -/
def node : Node → Write
  | .program p => program p
  | .funDef d => funDef d
  | .stmt s => stmt s
  | .expr e => expr e
  | .varDef d => varDef d
  | .term t => term t
  | .structDef _ | .dataType _ => pure ()
  | .ref _ | .branch _ => throw (.crash .missingPart)

end StackLang.Script
