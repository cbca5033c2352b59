import StackLang.Instr
import StackLang.Number.Numeral
import StackLang.Offsets
import StackLang.Tree

namespace StackLang

structure Generator where
  image : Image
  current : Option Template
  offsets : Offsets
  structs : Table String StructDef

abbrev Gen := EStateM Failure Generator

namespace Generator

def ofImage (image : Image) : Generator := ⟨image, none, .empty, ∅⟩

def template : Gen Template := do
  match (← get).current with
  | some t => return t
  | none => throw (.crash .missingPart)

def onCode (f : Array Instr → Array Instr) : Gen Unit :=
  modify fun g => { g with current := g.current.map fun t => { t with code := f t.code } }

def here : Gen Nat := do
  return (← template).code.size

def emit (op : Op) : Gen Unit := do
  let _ ← template
  onCode (·.push (.plain op))

def patch (i : Nat) (op : Op) : Gen Unit := onCode (·.setIfInBounds i (.plain op))

def pending : Value := .int (-1)

def address (n : Nat) : Value := .int n

def onOffsets (f : Offsets → Offsets) : Gen Unit :=
  modify fun g => { g with offsets := f g.offsets }

/-- The offset of a variable; absent for a name that is not declared. -/
def offset (name : String) : Gen Value := do
  match (← get).offsets.offset? name with
  | some n => return address n
  | none => return .absent

/-- The text of a literal: two-letter escapes become the line break and the tab, and the empty text
becomes a space. -/
def unescape (escape replacement : Char) : List Char → List Char
  | '\\' :: c :: rest =>
    if c = escape then replacement :: unescape escape replacement rest
    else '\\' :: unescape escape replacement (c :: rest)
  | c :: rest => c :: unescape escape replacement rest
  | [] => []

def literalText (s : String) : String :=
  if s = "" then " " else String.ofList (unescape 't' '\t' (unescape 'n' '\n' s.toList))

/-- The value of a literal; a word that names none has no value. -/
def literalValue (t : Token) : Gen (Option Value) := do
  match t.kind with
  | .intVal =>
    match Numeral.int? t.lexeme with
    | some i => return some (.int i)
    | none => throw (.crash .badNumeral)
  | .doubleVal =>
    match Numeral.double? t.lexeme with
    | some d => return some (.double d)
    | none => throw (.crash .badNumeral)
  | .stringVal => return some (.text (literalText t.lexeme))
  | _ =>
    match t.lexeme with
    | "true" => return some (.bool true)
    | "false" => return some (.bool false)
    | "null" => return some .null
    | _ => return none

def literal (t : Token) : Gen Unit := do
  match ← literalValue t with
  | some v => emit (.push v)
  | none => pure ()

def operator? : String → Option Op
  | "+" => some .add
  | "-" => some .sub
  | "*" => some .mul
  | "/" => some .div
  | "and" => some .and
  | "or" => some .or
  | "<" | ">" => some .less
  | "<=" | ">=" => some .lessEq
  | "==" => some .equal
  | "!=" => some .notEqual
  | _ => none

def swaps (op : Option Token) : Bool := op.any fun t => t.lexeme == ">" || t.lexeme == ">="

/-- The operation of a built-in function of one argument. -/
def conversion? : String → Option Op
  | "print" => some .write
  | "stoi" | "dtoi" => some .toInt
  | "itos" | "dtos" => some .toText
  | "stod" | "itod" => some .toDouble
  | "length" => some .length
  | _ => none

/-- The length of an empty literal is that of the empty text. -/
def emitConversion (op : Op) : Gen Unit := do
  if op = .length then
    onCode fun code =>
      if code.back? = some (.plain (.push (.text " "))) then
        code.pop.push (.plain (.push (.text "")))
      else code
  emit op

def field (struct : String) (i : Nat) : Gen String := do
  match (← get).structs.get? struct with
  | none => throw (.crash .unknownKey)
  | some d =>
    match d.fields[i]? with
    | none => throw (.crash .outOfRange)
    | some v => return (← need v.name).lexeme

mutual

def expr : Expr → Gen Unit
  | .mk negated first op rest => do
    if swaps op then
      match rest with
      | some e => expr e
      | none => throw (.crash .missingPart)
      term first
    else
      term first
      if negated = some true then emit .not
      match rest with
      | some e => expr e
      | none => pure ()
    match op.bind fun t => operator? t.lexeme with
    | some o => emit o
    | none => pure ()

def term : Term → Gen Unit
  | .literal t => literal t
  | .create type size args => do
    match size with
    | some e =>
      expr e
      emit .allocArray
    | none =>
      emit .allocStruct
      match args with
      | some l => initializers type.lexeme 0 l
      | none => throw (.crash .wrongKind)
  | .path refs => path refs
  | .call name args => do
    match conversion? name.lexeme with
    | some op =>
      match args with
      | some (e :: _) =>
        expr e
        emitConversion op
      | some [] => throw (.crash .outOfRange)
      | none => throw (.crash .wrongKind)
    | none =>
      if name.lexeme = "get" then
        match args with
        | some (e :: e' :: _) =>
          expr e
          expr e'
          emit .charAt
        | some [e] =>
          expr e
          throw (.crash .outOfRange)
        | some [] => throw (.crash .outOfRange)
        | none => throw (.crash .wrongKind)
      else if name.lexeme = "input" then emit .read
      else
        match args with
        | some l => arguments l
        | none => throw (.crash .wrongKind)
        emit (.call (.text name.lexeme))
  | .group e => expr e

def arguments : List Expr → Gen Unit
  | [] => pure ()
  | e :: l => do
    expr e
    arguments l

/-- The fields of a new struct, from the one at place `i` on. -/
def initializers (struct : String) (i : Nat) : List Expr → Gen Unit
  | [] => pure ()
  | e :: l => do
    let name ← field struct i
    emit .dup
    expr e
    emit (.setField (.text name))
    initializers struct (i + 1) l

/-- The value that a path leads to: a variable, and then the fields. -/
def path : List Ref → Gen Unit
  | [] => pure ()
  | .mk name i :: refs => do
    emit (.load (← offset name.lexeme))
    match i with
    | some e =>
      expr e
      emit .getItem
    | none => pure ()
    selectors refs

/-- A field with an index is taken for a variable if there is a variable or a struct of its name. -/
def selectors : List Ref → Gen Unit
  | [] => pure ()
  | .mk name i :: refs => do
    match i with
    | some e =>
      let at? ← offset name.lexeme
      if at? = .absent ∧ !(← get).structs.contains name.lexeme then
        emit (.getField (.text name.lexeme))
      else emit (.load at?)
      expr e
      emit .getItem
    | none => emit (.getField (.text name.lexeme))
    selectors refs

end

def varDecl (d : VarDecl) : Gen Unit := do
  let name := (← need d.var.name).lexeme
  onOffsets (·.declare name)
  match d.init with
  | some e => expr e
  | none => emit (.push .null)
  emit (.store (← offset name))

/-- The fields between the first and the last step of a path that is assigned to. -/
def inner (step : String → Gen Unit) (refs : List Ref) : Gen Unit :=
  refs.tail.dropLast.forM fun r => step r.name.lexeme

def assign (a : Assign) : Gen Unit := do
  match a.target with
  | [] => pure ()
  | [.mk name none] =>
    let at? ← offset name.lexeme
    expr a.value
    emit (.store at?)
  | [.mk name (some i)] =>
    emit (.load (← offset name.lexeme))
    expr i
    expr a.value
    emit .setItem
  | .mk name i :: refs =>
    emit (.load (← offset name.lexeme))
    match i with
    | none => inner (fun field => emit (.getField (.text field))) a.target
    | some e =>
      expr e
      emit .getItem
      inner (fun field => do
        emit (.load (← offset field))
        emit (.getField (.text field))) a.target
    expr a.value
    match refs.getLast? with
    | some last => emit (.setField (.text last.name.lexeme))
    | none => pure ()

def inScope (code : Gen Unit) : Gen Unit := do
  onOffsets Offsets.enter
  code
  onOffsets Offsets.leave

mutual

def stmt : Stmt → Gen Unit
  | .ret e => do
    expr e
    emit .ret
  | .decl d => varDecl d
  | .assign a => assign a
  | .loop condition body => do
    let start ← here
    expr condition
    let exit ← here
    emit (.jumpFalse pending)
    inScope (stmts body)
    emit (.jump (address start))
    emit .nop
    patch exit (.jumpFalse (address ((← here) - 1)))
  | .count init condition step body => do
    onOffsets Offsets.enter
    varDecl init
    let start ← here
    expr condition
    let exit ← here
    emit (.jumpFalse pending)
    inScope (stmts body)
    assign step
    emit (.jump (address start))
    emit .nop
    patch exit (.jumpFalse (address ((← here) - 1)))
    onOffsets Offsets.leave
  | .choice (.mk condition body) others otherwise => do
    expr condition
    let skip ← here
    emit (.jumpFalse pending)
    inScope (stmts body)
    let finish ← here
    emit (.jump pending)
    match others with
    | [] =>
      match otherwise with
      | [] =>
        emit .nop
        let last := address ((← here) - 1)
        patch skip (.jumpFalse last)
        patch finish (.jump last)
      | _ :: _ =>
        let next := address (← here)
        patch skip (.jumpFalse next)
        patch finish (.jump next)
        throw (.crash .noPendingJump)
    | _ :: _ =>
      patch skip (.jumpFalse (address (← here)))
      branches others
      match otherwise with
      | [] => pure ()
      | _ :: _ =>
        inScope (stmts otherwise)
        patch finish (.jump (address (← here)))
  | .call name args => term (.call name args)
  | .expr e => expr e

def stmts : List Stmt → Gen Unit
  | [] => pure ()
  | s :: l => do
    stmt s
    stmts l

/-- Alternatives with a condition each. The jump behind each of them stays incomplete. -/
def branches : List Branch → Gen Unit
  | [] => pure ()
  | .mk condition body :: l => do
    expr condition
    let skip ← here
    emit (.jumpFalse pending)
    inScope (stmts body)
    emit (.jump pending)
    patch skip (.jumpFalse (address (← here)))
    branches l

end

/-- The value that is returned where nothing else is. -/
def emitReturn : Gen Unit := do
  emit (.push .null)
  emit .ret

def parameter (d : VarDef) : Gen Unit := do
  let name := (← need d.name).lexeme
  onOffsets (·.declare name)
  emit (.store (← offset name))

/-- The main function takes no arguments and always ends by returning. -/
def mainBody (body : List Stmt) : Gen Unit := do
  if body.isEmpty then emitReturn
  else
    stmts body
    match (← template).code.back? with
    | none => throw (.crash .outOfRange)
    | some i => unless i = .plain .ret do emitReturn

/-- Functions open a scope before and another one behind their code, and close neither. -/
def funDef (d : FunDef) : Gen Unit := do
  modify fun g => { g with current := some ⟨d.name.lexeme, d.params.length, #[]⟩ }
  onOffsets Offsets.enter
  if d.name.lexeme = "main" then mainBody d.body
  else
    d.params.forM parameter
    if d.body.isEmpty then emitReturn else stmts d.body
  onOffsets Offsets.enter
  let t ← template
  modify fun g => { g with image := g.image.install t }

def structDef (d : StructDef) : Gen Unit :=
  modify fun g => { g with structs := g.structs.put d.name.lexeme d }

def program (p : Program) : Gen Unit := do
  p.structs.forM structDef
  p.functions.forM funDef

/-- Any part of a tree. Steps of a path and branches only have code as part of what holds them. -/
def node : Node → Gen Unit
  | .program p => program p
  | .structDef d => structDef d
  | .funDef d => funDef d
  | .stmt s => stmt s
  | .expr e => expr e
  | .term t => term t
  | .dataType _ | .varDef _ => pure ()
  | .ref _ | .branch _ => throw (.crash .missingPart)

end Generator
end StackLang
