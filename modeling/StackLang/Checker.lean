import StackLang.Scopes
import StackLang.Tree
import StackLang.Failure

namespace StackLang

structure Checker where
  structs : Table String StructDef
  functions : Table String FunDef
  scopes : Scopes String
  current : Option DataType

abbrev Check := EStateM Failure Checker

namespace Checker

def empty : Checker := ⟨∅, ∅, .empty, none⟩

def baseTypes : List String := ["int", "double", "bool", "string"]

def builtIns : List String :=
  ["print", "input", "itos", "itod", "dtos", "dtoi", "stoi", "stod", "length", "get"]

def complain {α : Type} (e : StaticError) : Check α := throw (.static e)

def onScopes (f : Scopes String → Scopes String) : Check Unit :=
  modify fun c => { c with scopes := f c.scopes }

def dataType (t : DataType) : Check Unit := do
  let name ← need t.name
  let c ← get
  if name.lexeme = "void" ∨ name.lexeme ∈ baseTypes ∨ c.structs.contains name.lexeme then
    set { c with current := some t }
  else complain (.invalidType name.lexeme name)

/-- The name of a definition and the name of its type. -/
def definition (d : VarDef) : Check (Token × String) := do
  let name ← need d.name
  let type ← need d.type
  let typeName ← need type.name
  return (name, typeName.lexeme)

def varDef (d : VarDef) : Check Unit := do
  let (name, type) ← definition d
  let scopes := (← get).scopes
  unless type ∈ baseTypes ∨ scopes.contains type do complain (.unknownStruct type)
  if scopes.containsHere name.lexeme then complain (.alreadyDefined name.lexeme)
  onScopes (·.put name.lexeme type)

def literal (t : Token) : Check Unit := do
  let name : Option Token :=
    match t.kind with
    | .intVal => some ⟨.intType, "int", t.line, t.column⟩
    | .doubleVal => some ⟨.doubleType, "double", t.line, t.column⟩
    | .stringVal => some ⟨.stringType, "string", t.line, t.column⟩
    | .boolVal => some ⟨.boolType, "bool", t.line, t.column⟩
    | .nullVal => some ⟨.voidType, "void", t.line, t.column⟩
    | _ => none
  modify fun c => { c with current := some ⟨false, name⟩ }

/-- How many arguments a built-in function takes, in number and in words. -/
def arity? (function : String) : Option (Nat × String) :=
  if function ∈ ["itos", "dtos", "itod", "dtoi", "print", "length"] then some (1, "one argument")
  else if function = "get" then some (2, "two arguments")
  else if function = "input" then some (0, "0 arguments")
  else none

/-- The kind of literal that the argument of a built-in function must be, and its name. -/
def argumentType? (function : String) : Option (Token.Kind × String) :=
  if function ∈ ["itos", "itod"] then some (.intVal, "int")
  else if function ∈ ["dtos", "dtoi"] then some (.doubleVal, "double")
  else if function = "length" then some (.stringVal, "string")
  else none

/-- The second of two arguments, behind a literal of kind `first`. -/
def secondArgument (function : String) (first : Token.Kind) (e : Expr) : Check Unit := do
  match e.first with
  | .create .. => complain .getFromArray
  | .literal t =>
    if function = "get" then
      unless first = .intVal do complain .getFirstArgument
      unless t.kind = .stringVal do complain .getSecondArgument
  | _ => throw (.crash .missingPart)

/-- Number and types of the arguments of a call. Only a literal in the first place is looked at. -/
def arguments (function : String) (args : List Expr) : Check Unit := do
  match arity? function with
  | some (n, words) => unless args.length = n do complain (.argumentCount function words)
  | none => pure ()
  match args with
  | [] => pure ()
  | e :: others =>
    match e.first with
    | .group _ => throw (.crash .missingPart)
    | .literal t =>
      match argumentType? function with
      | some (kind, type) => unless t.kind = kind do complain (.argumentType function type)
      | none => pure ()
      match others with
      | [e'] => secondArgument function t.kind e'
      | _ => pure ()
    | _ => pure ()

mutual

def expr : Expr → Check Unit
  | .mk _ first _ rest => do
    term first
    match rest with
    | some e => expr e
    | none => pure ()

def term : Term → Check Unit
  | .literal t => literal t
  | .call name args => do
    match args with
    | some l =>
      arguments name.lexeme l
      exprs l
    | none => throw (.crash .wrongKind)
  | .create .. | .path _ | .group _ => pure ()

def exprs : List Expr → Check Unit
  | [] => pure ()
  | e :: l => do
    expr e
    exprs l

end

/-- The type that a declaration needs in order to take what a built-in function returns. -/
def returnType? (function : String) : Option String :=
  if function ∈ ["itos", "dtos", "input", "get"] then some "string"
  else if function = "itod" then some "double"
  else if function ∈ ["dtoi", "length"] then some "int"
  else none

/-- Whether a literal may initialize a variable of a type. -/
def fits (type : String) (literal : Token.Kind) : Bool :=
  match type with
  | "int" => literal == .intVal
  | "double" => literal == .doubleVal
  | "string" => literal == .stringVal
  | "bool" => literal == .boolVal || literal == .intVal
  | _ => true

def fromPath (name : Token) (type : String) (refs : List Ref) : Check Unit := do
  let scopes := (← get).scopes
  match refs.head?, refs.getLast? with
  | some r, some last =>
    let source := r.name.lexeme
    if scopes.containsHere source then
      match scopes.get? source with
      | some sourceType =>
        if sourceType ∈ baseTypes ∧ type ≠ sourceType then
          complain (.typesDiffer name type source sourceType)
      | none => pure ()
    unless scopes.get? last.name.lexeme = some type do complain .badPath
  | _, _ => throw (.crash .outOfRange)

/-- The value that a variable is declared with, unless it is a group. -/
def initializer (d : VarDecl) (name : Token) (type : String) (e : Expr) : Check Unit := do
  match e.first with
  | .group _ => pure ()
  | .call function _ =>
    expr e
    match returnType? function.lexeme with
    | some needed => unless type = needed do complain (.badReturn function.lexeme needed)
    | none => pure ()
  | .literal t =>
    expr e
    unless t.kind = .nullVal ∨ fits type t.kind do complain (.badInitializer type)
    if d.var.type.any DataType.isArray then complain .arrayNotCreated
  | .path refs =>
    expr e
    fromPath name type refs
  | .create .. => expr e

def varDecl (d : VarDecl) : Check Unit := do
  varDef d.var
  let (name, type) ← definition d.var
  match d.init with
  | some e => initializer d name type e
  | none => pure ()

def stmt : Stmt → Check Unit
  | .decl d => varDecl d
  | .call name args => term (.call name args)
  | .expr e => expr e
  | .ret _ | .assign _ | .loop .. | .count .. | .choice .. => pure ()

def structDef (d : StructDef) : Check Unit := d.fields.forM varDef

def funDef (d : FunDef) : Check Unit := do
  onScopes Scopes.enter
  dataType d.returns
  onScopes Scopes.enter
  d.params.forM varDef
  d.body.forM stmt
  onScopes Scopes.leave
  onScopes Scopes.leave

def recordStruct (d : StructDef) : Check Unit := do
  let name := d.name.lexeme
  if (← get).structs.contains name then complain (.duplicate name d.name)
  modify fun c => { c with structs := c.structs.put name d }

def recordFunction (d : FunDef) : Check Unit := do
  let name := d.name.lexeme
  if (← get).functions.contains name then complain (.duplicate name d.name)
  if name ∈ builtIns then complain (.redefinesBuiltIn d.name)
  if name = "main" then
    let type ← need d.returns.name
    unless type.lexeme = "void" do complain (.mainNotVoid type)
    unless d.params.isEmpty do complain (.mainWithParameters d.name)
  modify fun c => { c with functions := c.functions.put name d }

/-- A program together with all that was recorded before it. -/
def program (p : Program) : Check Unit := do
  p.structs.forM recordStruct
  p.functions.forM recordFunction
  unless (← get).functions.contains "main" do complain .missingMain
  onScopes Scopes.enter
  let c ← get
  c.structs.keys.forM fun name => onScopes (·.put name "struct")
  c.structs.values.forM structDef
  c.functions.values.forM funDef
  onScopes Scopes.leave

/-- Any part of a tree. Steps of a path and branches are only checked as part of what holds them. -/
def node : Node → Check Unit
  | .program p => program p
  | .structDef d => structDef d
  | .funDef d => funDef d
  | .stmt s => stmt s
  | .expr e => expr e
  | .dataType t => dataType t
  | .varDef d => varDef d
  | .term t => term t
  | .ref _ | .branch _ => throw (.crash .missingPart)

end Checker
end StackLang
