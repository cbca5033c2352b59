import StackLang.Proofs.Pacing
import StackLang.Recognizer

namespace StackLang.Recognizer

open Descent

inductive Call : Type → Type where
  | expr : Call Unit
  | operation : Call Unit
  | operand : Call Unit
  | creation : Call Unit
  | arguments : Call Unit
  | moreArguments : Call Unit
  | index : Call Unit
  | selectors : Call Unit
  | path : Call Unit
  | dataType : Call Unit
  | stmt : Call Unit
  | alternatives : Call Unit
  | block : Call Unit
  | stmts : Call Unit
  | body : Call Unit
  | fields : Call Unit
  | moreParameters : Call Unit
  | definitions : Call Unit

namespace Plan

def declaration : Descent Call Unit := do
  let k ← kind
  call .dataType
  if k.isBaseType ∨ k = .arrayKw then eat .id
  if ← sees .assign then
    advance
    call .expr

def assignment : Descent Call Unit := do
  if ← sees .id then advance
  call .path
  eat .assign
  call .expr

def structDef : Descent Call Unit := do
  eat .structKw
  eat .id
  eat .lbrace
  call .fields
  eat .rbrace

def parameters : Descent Call Unit := do
  unless ← sees .rparen do
    call .dataType
    eat .id
    call .moreParameters

def funDef : Descent Call Unit := do
  match ← kind with
  | .intType | .doubleType | .boolType | .stringType | .id | .arrayKw => call .dataType
  | .voidType => advance
  | _ => reject .definition
  eat .id
  eat .lparen
  parameters
  expect .rparen .parametersEnd
  eat .lbrace
  call .body
  expect .rbrace .bodyEnd

end Plan

def Call.plan {β : Type} : Call β → Descent Call β
  | .expr => do
    match ← kind with
    | .intVal | .doubleVal | .boolVal | .stringVal | .nullVal | .newKw | .id =>
      call .operand
      call .operation
    | .notOp =>
      advance
      call .expr
    | .lparen =>
      advance
      call .expr
      eat .rparen
      call .operation
    | .rparen => pure ()
    | _ => reject .expression
  | .operation => do
    if (← kind).isOperator then
      advance
      call .expr
  | .operand => do
    match ← kind with
    | .newKw => call .creation
    | .id =>
      advance
      match ← kind with
      | .lbracket | .dot => call .path
      | .lparen => call .arguments
      | _ => pure ()
    | _ => advance
  | .creation => do
    eat .newKw
    let k ← kind
    if k = .id ∨ k.isBaseType then advance
    match ← kind with
    | .lparen =>
      advance
      call .expr
      call .moreArguments
      eat .rparen
    | .lbracket => call .index
    | _ => pure ()
  | .arguments => do
    eat .lparen
    if ← sees .rparen then advance
    else
      call .expr
      call .moreArguments
      eat .rparen
  | .moreArguments => do
    if ← sees .comma then
      advance
      call .expr
      call .moreArguments
  | .index => do
    if ← sees .lbracket then
      advance
      call .expr
      eat .rbracket
  | .selectors => do
    if ← sees .dot then
      advance
      eat .id
      call .index
      call .selectors
  | .path => do
    call .index
    call .selectors
  | .dataType => do
    match ← kind with
    | .intType | .doubleType | .boolType | .stringType | .id => advance
    | .arrayKw =>
      advance
      call .dataType
    | _ => call .path
  | .stmt => do
    match ← kind with
    | .whileKw =>
      advance
      eat .lparen
      if ← sees .rparen then reject .whileCondition
      call .expr
      eat .rparen
      call .block
    | .elseifKw | .elseKw => reject .ifBefore
    | .ifKw =>
      advance
      eat .lparen
      if ← sees .rparen then reject .ifCondition
      call .expr
      eat .rparen
      call .block
      call .alternatives
    | .forKw =>
      advance
      eat .lparen
      Plan.declaration
      eat .semicolon
      call .expr
      eat .semicolon
      Plan.assignment
      eat .rparen
      call .block
    | .returnKw =>
      advance
      call .expr
      eat .semicolon
    | .intType | .doubleType | .boolType | .stringType | .arrayKw =>
      Plan.declaration
      eat .semicolon
    | .id =>
      advance
      match ← kind with
      | .lparen => call .arguments
      | .lbrace | .dot | .assign => Plan.assignment
      | _ => Plan.declaration
      eat .semicolon
    | _ => reject .statement
  | .alternatives => do
    match ← kind with
    | .elseifKw =>
      advance
      eat .lparen
      call .expr
      eat .rparen
      call .block
      call .alternatives
    | .elseKw =>
      advance
      call .block
    | _ => pure ()
  | .block => do
    eat .lbrace
    call .stmts
    eat .rbrace
  | .stmts => do
    unless ← sees .rbrace do
      call .stmt
      call .stmts
  | .body => do
    let k ← kind
    unless k = .rbrace ∨ k = .eos do
      call .stmt
      call .body
  | .fields => do
    unless ← sees .rbrace do
      call .dataType
      eat .id
      eat .semicolon
      call .fields
  | .moreParameters => do
    if ← sees .comma then
      advance
      call .dataType
      eat .id
      call .moreParameters
  | .definitions => do
    match ← kind with
    | .eos => pure ()
    | .structKw =>
      Plan.structDef
      call .definitions
    | _ =>
      Plan.funDef
      call .definitions

def Call.perform (n : Nat) ⦃β : Type⦄ : Call β → Parse β
  | .expr => Recognizer.expr n
  | .operation => Recognizer.operation n
  | .operand => Recognizer.operand n
  | .creation => Recognizer.creation n
  | .arguments => Recognizer.arguments n
  | .moreArguments => Recognizer.moreArguments n
  | .index => Recognizer.index n
  | .selectors => Recognizer.selectors n
  | .path => Recognizer.path n
  | .dataType => Recognizer.dataType n
  | .stmt => Recognizer.stmt n
  | .alternatives => Recognizer.alternatives n
  | .block => Recognizer.block n
  | .stmts => Recognizer.stmts n
  | .body => Recognizer.body n
  | .fields => Recognizer.fields n
  | .moreParameters => Recognizer.moreParameters n
  | .definitions => Recognizer.definitions n

section

variable (n : Nat)

theorem interp_declaration : Plan.declaration.interp (Call.perform n) = declaration n := by
  simp [declaration, Plan.declaration, Call.perform]

theorem interp_assignment : Plan.assignment.interp (Call.perform n) = assignment n := by
  simp [assignment, Plan.assignment, Call.perform]

theorem interp_structDef : Plan.structDef.interp (Call.perform n) = structDef n := by
  simp [structDef, Plan.structDef, Call.perform]

theorem interp_parameters : Plan.parameters.interp (Call.perform n) = parameters n := by
  simp [parameters, Plan.parameters, Call.perform]

theorem interp_funDef : Plan.funDef.interp (Call.perform n) = funDef n := by
  simp only [funDef, Plan.funDef, interp_bind, interp_kind]
  refine bind_congr fun k => ?_
  split <;> simp [Call.perform, interp_parameters]

end

theorem perform_succ {β : Type} (n : Nat) (c : Call β) :
    c.perform (n + 1) = c.plan.interp (Call.perform n) := by
  cases c with
  | expr | dataType | alternatives | definitions =>
    simp only [Call.perform, expr, dataType, alternatives, definitions, Call.plan, interp_bind,
      interp_kind]
    refine bind_congr fun k => ?_
    split <;> simp [Call.perform, interp_structDef, interp_funDef]
  | operand =>
    simp only [Call.perform, operand, Call.plan, interp_bind, interp_kind]
    refine bind_congr fun k => ?_
    split
    · simp [Call.perform]
    · simp only [interp_bind, interp_kind, interp_advance]
      refine bind_congr fun _ => bind_congr fun k => ?_
      split <;> simp [Call.perform]
    · simp
  | creation =>
    simp only [Call.perform, creation, Call.plan, interp_bind, interp_kind, interp_eat, interp_ite,
      interp_advance]
    refine bind_congr fun _ => bind_congr fun k => ?_
    split
    · refine bind_congr fun _ => bind_congr fun k => ?_
      split <;> simp [Call.perform]
    · refine bind_congr fun k => ?_
      split <;> simp [Call.perform]
  | stmt =>
    simp only [Call.perform, stmt, Call.plan, interp_bind, interp_kind]
    refine bind_congr fun k => ?_
    split
    case h_12 =>
      simp only [interp_bind, interp_advance, interp_kind]
      refine bind_congr fun _ => bind_congr fun k => ?_
      split <;> simp [Call.perform, interp_declaration, interp_assignment]
    all_goals simp [Call.perform, interp_declaration, interp_assignment]
  | _ =>
    simp [Call.perform, Call.plan, operation, arguments, moreArguments, index, selectors, path,
      block, stmts, body, fields, moreParameters]

@[simp] def Call.routine {β : Type} : Call β → Routine
  | .expr => .expr
  | .operation => .operation
  | .operand => .operand
  | .creation => .creation
  | .arguments => .arguments
  | .moreArguments => .moreArguments
  | .index => .index
  | .selectors => .selectors
  | .path => .path
  | .dataType => .dataType
  | .stmt => .stmt
  | .alternatives => .alternatives
  | .block => .block
  | .stmts => .stmts
  | .body => .body
  | .fields => .fields
  | .moreParameters => .moreParameters
  | .definitions => .definitions

instance : Plans Call where
  routine := Call.routine
  plan := Call.plan
  perform := Call.perform
  perform_succ := perform_succ

@[simp] def Call.exit {β : Type} : Call β → Nat
  | .expr | .operation => Routine.rank .operation
  | .operand | .creation | .selectors | .path | .dataType => Routine.rank .selectors
  | .index => Routine.rank .index
  | .moreArguments => Routine.rank .moreArguments
  | .moreParameters => Routine.rank .moreParameters
  | .stmts | .body | .fields => Routine.rank .stmts
  | .stmt | .alternatives => Routine.rank .alternatives
  | .definitions => Routine.rank .definitions
  | .arguments | .block => span

/-- The recognizer fails in no other way than by rejecting a token. -/
def pace : Pace Call where
  needs _ _ := True
  exit := Call.exit
  holds _ _ := True
  fails _ _ _ := False

section

variable {α β : Type} {c : Call β}

@[simp] theorem rank_call : rank c = c.routine.rank := rfl

@[simp] theorem pace_needs {t : Token} : pace.needs c t := trivial

@[simp] theorem pace_exit : pace.exit c = c.exit := rfl

@[simp] theorem pace_holds {a : β} : pace.holds c a := trivial

end

theorem fulfils_operation : pace.Fulfils .operation := by
  intro t _
  have h : t.kind.isOperator → t.kind ≠ .eos := Token.Kind.ne_eos_of_isOperator
  simp +contextual [Call.plan, plan, h]

theorem fulfils_operand : pace.Fulfils .operand := by
  intro t _
  simp only [plan, Call.plan, paced_bind, paced_kind]
  split
  · simp
  · simp only [paced_bind, paced_kind, paced_advance]
    intro t
    split <;> simp [*]
  · simp only [paced_advance]
    split <;> simp

theorem fulfils_creation : pace.Fulfils .creation := by
  intro t _
  simp only [plan, Call.plan, paced_bind, paced_kind, paced_eat, paced_ite, paced_advance]
  refine fun _ t => ⟨fun _ t => ?_, fun _ => ?_⟩ <;> split <;> simp [*]

theorem fulfils_stmt : pace.Fulfils .stmt := by
  intro t _
  simp only [plan, Call.plan, paced_bind, paced_kind]
  split
  case h_12 =>
    -- Behind a name the next token decides.
    simp only [paced_bind, paced_kind, paced_advance]
    intro t
    split <;> simp +contextual [*, Plan.assignment, Plan.declaration]
  all_goals simp +contextual [*, Plan.assignment, Plan.declaration]

theorem fulfils_definitions : pace.Fulfils .definitions := by
  intro t _
  simp only [plan, Call.plan, paced_bind, paced_kind]
  split
  · simp
  · simp [Plan.structDef]
  · simp only [Plan.funDef, Plan.parameters, paced_bind, paced_kind]
    split <;> simp [*]

theorem pace_kept : pace.Kept := by
  intro β c
  cases c with
  | operation => exact fulfils_operation
  | operand => exact fulfils_operand
  | creation => exact fulfils_creation
  | stmt => exact fulfils_stmt
  | definitions => exact fulfils_definitions
  | expr | dataType | alternatives =>
    intro t _
    simp only [plan, Call.plan, paced_bind, paced_kind]
    split <;> simp [*]
  | _ =>
    intro t _
    simp +contextual [plan, Call.plan]

end StackLang.Recognizer
