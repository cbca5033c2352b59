import StackLang.Proofs.Pacing
import StackLang.Parser

namespace StackLang.Parser

open Descent

/-- Where a type is read: in a field, in a parameter, or where the token that begins it has been
seen. -/
inductive TypeSite where
  | field
  | parameter
  | inSight
  deriving Repr, DecidableEq

inductive Call : Type → Type where
  | expr : Call Expr
  | operation (first : Term) : Call Expr
  | operand : Call Term
  | creation : Call Term
  | moreArguments : Call (List Expr)
  | index : Call (Option Expr)
  | selectors : Call (List Ref)
  | path (name : Token) : Call (List Ref)
  | callee (e : Expr) : Call Token
  | arguments : Call (Option (List Expr))
  | returnedCalls (e : Expr) : Call Expr
  | dataType (place : TypeSite) : Call DataType
  | stmt : Call Stmt
  | alternatives : Call (List Branch × List Stmt)
  | block : Call (List Stmt)
  | stmts : Call (List Stmt)
  | body : Call (List Stmt)
  | fields : Call (List VarDef)
  | moreParameters : Call (List VarDef)
  | definitions : Call Program

namespace Plan

def declared (named : Option Token) : Descent Call VarDef := do
  let t ← look
  if t.kind.isBaseType ∨ t.kind = .arrayKw then
    let type ← call (.dataType .inSight)
    return ⟨some type, some (← take .id)⟩
  else if t.kind = .id then
    advance
    return ⟨some ⟨false, named⟩, some t⟩
  else return ⟨none, none⟩

def declaration (named : Option Token) : Descent Call VarDecl := do
  let var ← declared named
  if ← sees .assign then
    advance
    let e ← call .expr
    if ← sees .lparen then
      let name ← call (.callee e)
      return ⟨var, some (e.withFirst (.call name (← call .arguments)))⟩
    else return ⟨var, some e⟩
  else return ⟨var, none⟩

def assignment (name : Token) : Descent Call Assign := do
  let target ← call (.path name)
  eat .assign
  return ⟨target, ← call .expr⟩

def callInRest (e : Expr) : Descent Call Expr := do
  match e.rest with
  | none => fail (.crash .missingPart)
  | some r =>
    let name ← call (.callee r)
    return e.withRest (.operand (.call name (← call .arguments)))

def condition : Descent Call Expr := do
  let e ← call .expr
  if ← sees .lparen then
    if e.op.isNone then
      let name ← call (.callee e)
      return e.withFirst (.call name (← call .arguments))
    else callInRest e
  else return e

def returned : Descent Call Expr := do
  let e ← call .expr
  match e.first with
  | .path _ =>
    if ← sees .lparen then
      if e.op.isNone then
        let name ← call (.callee e)
        call (.returnedCalls (e.withFirst (.call name (← call .arguments))))
      else callInRest e
    else return e
  | _ => return e

def structDef : Descent Call StructDef := do
  eat .structKw
  let name ← take .id
  eat .lbrace
  let fs ← call .fields
  eat .rbrace
  return ⟨name, fs⟩

def parameter : Descent Call VarDef := do
  let type ← call (.dataType .parameter)
  return ⟨some type, some (← take .id)⟩

def parameters : Descent Call (List VarDef) := do
  if ← sees .rparen then return []
  let p ← parameter
  return p :: (← call .moreParameters)

def returnType : Descent Call DataType := do
  match ← kind with
  | .intType | .doubleType | .boolType | .stringType | .id | .arrayKw => call (.dataType .inSight)
  | .voidType =>
    let type ← call (.dataType .inSight)
    advance
    return type
  | _ => reject .definition

def funDef : Descent Call FunDef := do
  let type ← returnType
  let name ← take .id
  eat .lparen
  let params ← parameters
  expect .rparen .parametersEnd
  eat .lbrace
  let stmts ← call .body
  expect .rbrace .bodyEnd
  return ⟨type, name, params, stmts⟩

end Plan

def Call.plan {β : Type} : Call β → Descent Call β
  | .expr => do
    match ← kind with
    | .intVal | .doubleVal | .boolVal | .stringVal | .nullVal | .newKw | .id =>
      call (.operation (← call .operand))
    | .notOp =>
      advance
      return (← call .expr).negate
    | .lparen =>
      advance
      let inner ← call .expr
      expect .rparen .groupEnd
      call (.operation (.group inner))
    | _ => reject .operand
  | .operation first => do
    let t ← look
    if t.kind.isOperator then
      advance
      return .mk (some false) first (some t) (some (← call .expr))
    else return .operand first
  | .operand => do
    match ← kind with
    | .newKw => call .creation
    | .id => return .path (← call (.path (← take .id)))
    | _ =>
      let t ← look
      advance
      return .literal t
  | .creation => do
    eat .newKw
    let type ← look
    if type.kind = .id ∨ type.kind.isBaseType then advance
    match ← kind with
    | .lparen =>
      advance
      if ← sees .rparen then
        advance
        return .create type none (some [])
      let first ← call .expr
      let others ← call .moreArguments
      eat .rparen
      return .create type none (some (first :: others))
    | .lbracket => return .create type (← call .index) none
    | _ => return .create type none (some [])
  | .moreArguments => do
    if ← sees .comma then
      advance
      let e ← call .expr
      return e :: (← call .moreArguments)
    else return []
  | .index => do
    if ← sees .lbracket then
      advance
      let e ← call .expr
      eat .rbracket
      return some e
    else return none
  | .selectors => do
    if ← sees .dot then
      advance
      let name ← take .id
      let i ← call .index
      return .mk name i :: (← call .selectors)
    else return []
  | .path name => do
    let i ← call .index
    return .mk name i :: (← call .selectors)
  | .callee e =>
    match e.first with
    | .path (r :: _) => pure r.name
    | .path [] => fail (.crash .outOfRange)
    | _ => fail (.crash .missingPart)
  | .arguments => do
    if ← sees .lparen then
      advance
      let args ←
        if opensArgument (← kind) then do
          let e ← call .expr
          if ← sees .lparen then
            let name ← call (.callee e)
            let inner ← call .arguments
            pure [e.withFirst (.call name inner)]
          else pure (e :: (← call .moreArguments))
        else pure []
      expect .rparen .callEnd
      return some args
    else return none
  | .returnedCalls e => do
    let op ← look
    if op.kind.isOperator then
      advance
      let name ← look
      advance
      let r := Expr.operand (.call name (← call .arguments))
      call (.returnedCalls (.mk e.negated e.first (some op) (some r)))
    else return e
  | .dataType _ => do
    let t ← look
    match t.kind with
    | .intType | .doubleType | .boolType | .stringType | .id =>
      advance
      return ⟨false, some t⟩
    | .voidType => return ⟨false, some t⟩
    | .arrayKw =>
      advance
      let e ← look
      if e.kind = .id ∨ e.kind.isBaseType then
        advance
        return ⟨true, some e⟩
      else return ⟨true, none⟩
    | _ => fail (.crash .wrongKind)
  | .stmt => do
    match ← kind with
    | .whileKw =>
      advance
      eat .lparen
      if ← sees .rparen then reject .whileCondition
      let e ← call .expr
      eat .rparen
      return .loop e (← call .block)
    | .elseifKw | .elseKw => reject .ifBefore
    | .ifKw =>
      advance
      eat .lparen
      if ← sees .rparen then reject .ifCondition
      let e ← call .expr
      eat .rparen
      let body ← call .block
      let (others, otherwise) ← call .alternatives
      return .choice (.mk e body) others otherwise
    | .forKw =>
      advance
      eat .lparen
      let init ← Plan.declaration none
      eat .semicolon
      let e ← Plan.condition
      eat .semicolon
      let name ← look
      advance
      let step ← Plan.assignment name
      eat .rparen
      return .count init e step (← call .block)
    | .returnKw =>
      advance
      let e ← Plan.returned
      eat .semicolon
      return .ret e
    | .intType | .doubleType | .boolType | .stringType | .arrayKw =>
      let d ← Plan.declaration none
      eat .semicolon
      return .decl d
    | .id =>
      let name ← take .id
      let s ←
        match ← kind with
        | .lparen => pure (.call name (← call .arguments))
        | .lbrace | .dot | .assign | .lbracket => pure (.assign (← Plan.assignment name))
        | _ => pure (.decl (← Plan.declaration (some name)))
      eat .semicolon
      return s
    | _ => reject .statement
  | .alternatives => do
    match ← kind with
    | .elseifKw =>
      advance
      eat .lparen
      let e ← call .expr
      eat .rparen
      let body ← call .block
      let (others, otherwise) ← call .alternatives
      return (.mk e (body.flatMap echo) :: others, otherwise)
    | .elseKw =>
      advance
      let body ← call .block
      return ([], body.flatMap echo)
    | _ => return ([], [])
  | .block => do
    eat .lbrace
    let body ← call .stmts
    eat .rbrace
    return body
  | .stmts => do
    if ← sees .rbrace then return []
    let s ← call .stmt
    return s :: (← call .stmts)
  | .body => do
    let k ← kind
    if k = .rbrace ∨ k = .eos then return []
    let s ← call .stmt
    return s :: (← call .body)
  | .fields => do
    if ← sees .rbrace then return []
    let type ← call (.dataType .field)
    let name ← take .id
    eat .semicolon
    return ⟨some type, some name⟩ :: (← call .fields)
  | .moreParameters => do
    if ← sees .comma then
      advance
      let p ← Plan.parameter
      return p :: (← call .moreParameters)
    else return []
  | .definitions => do
    match ← kind with
    | .eos => return ⟨[], []⟩
    | .structKw =>
      let d ← Plan.structDef
      let p ← call .definitions
      return { p with structs := d :: p.structs }
    | _ =>
      let d ← Plan.funDef
      let p ← call .definitions
      return { p with functions := d :: p.functions }

def Call.perform (n : Nat) ⦃β : Type⦄ : Call β → Parse β
  | .expr => Parser.expr n
  | .operation first => Parser.operation n first
  | .operand => Parser.operand n
  | .creation => Parser.creation n
  | .moreArguments => Parser.moreArguments n
  | .index => Parser.index n
  | .selectors => Parser.selectors n
  | .path name => Parser.path n name
  | .callee e => Parser.callee e
  | .arguments => Parser.arguments n
  | .returnedCalls e => Parser.returnedCalls n e
  | .dataType _ => Parser.dataType
  | .stmt => Parser.stmt n
  | .alternatives => Parser.alternatives n
  | .block => Parser.block n
  | .stmts => Parser.stmts n
  | .body => Parser.body n
  | .fields => Parser.fields n
  | .moreParameters => Parser.moreParameters n
  | .definitions => Parser.definitions n

section

variable (n : Nat)

attribute [local simp] Call.perform

theorem interp_declared (named : Option Token) :
    (Plan.declared named).interp (Call.perform n) = declared named := by
  simp [declared, Plan.declared]

theorem interp_declaration (named : Option Token) :
    (Plan.declaration named).interp (Call.perform n) = declaration n named := by
  simp [declaration, Plan.declaration, interp_declared]

theorem interp_assignment (name : Token) :
    (Plan.assignment name).interp (Call.perform n) = assignment n name := by
  simp [assignment, Plan.assignment]

theorem interp_callInRest (e : Expr) :
    (Plan.callInRest e).interp (Call.perform n) = callInRest n e := by
  unfold callInRest Plan.callInRest
  cases e.rest <;> simp

theorem interp_condition : Plan.condition.interp (Call.perform n) = condition n := by
  simp [condition, Plan.condition, interp_callInRest]

theorem interp_returned : Plan.returned.interp (Call.perform n) = returned n := by
  simp only [returned, Plan.returned, interp_bind, interp_call]
  refine bind_congr fun e => ?_
  cases e.first <;> simp [interp_callInRest]

theorem interp_structDef : Plan.structDef.interp (Call.perform n) = structDef n := by
  simp [structDef, Plan.structDef]

theorem interp_parameter : Plan.parameter.interp (Call.perform n) = parameter := by
  simp [parameter, Plan.parameter]

theorem interp_parameters : Plan.parameters.interp (Call.perform n) = parameters n := by
  simp [parameters, Plan.parameters, interp_parameter]

theorem interp_returnType : Plan.returnType.interp (Call.perform n) = returnType := by
  simp only [returnType, Plan.returnType, interp_bind, interp_kind]
  refine bind_congr fun k => ?_
  split <;> simp

theorem interp_funDef : Plan.funDef.interp (Call.perform n) = funDef n := by
  simp [funDef, Plan.funDef, interp_returnType, interp_parameters]

end

theorem perform_succ {β : Type} (n : Nat) (c : Call β) :
    c.perform (n + 1) = c.plan.interp (Call.perform n) := by
  cases c with
  | dataType =>
    simp only [Call.perform, dataType, Call.plan, interp_bind, interp_look]
    refine bind_congr fun t => ?_
    cases t.kind <;> simp
  | expr | alternatives | definitions | operand =>
    simp only [Call.perform, expr, operand, alternatives, definitions, Call.plan, interp_bind,
      interp_kind]
    refine bind_congr fun k => ?_
    split <;> simp [Call.perform, interp_structDef, interp_funDef]
  | callee e =>
    simp only [Call.perform, callee, Call.plan]
    cases e.first with
    | path refs => cases refs <;> rfl
    | _ => rfl
  | creation =>
    simp only [Call.perform, creation, Call.plan, interp_bind, interp_kind, interp_eat, interp_ite,
      interp_advance, interp_look]
    refine bind_congr fun _ => bind_congr fun type => ?_
    split
    · refine bind_congr fun _ => bind_congr fun k => ?_
      split <;> simp [Call.perform]
    · refine bind_congr fun k => ?_
      split <;> simp [Call.perform]
  | stmt =>
    simp only [Call.perform, stmt, Call.plan, interp_bind, interp_kind]
    refine bind_congr fun k => ?_
    split
    case h_12 =>
      simp only [interp_bind, interp_take, interp_kind]
      refine bind_congr fun _ => bind_congr fun k => ?_
      split <;> simp [Call.perform, interp_declaration, interp_assignment]
    all_goals
      simp [Call.perform, interp_declaration, interp_assignment, interp_condition, interp_returned]
  | _ =>
    simp [Call.perform, Call.plan, operation, arguments, moreArguments, index, selectors, path,
      block, stmts, body, fields, moreParameters, returnedCalls, interp_parameter]

@[simp] def Call.routine {β : Type} : Call β → Routine
  | .expr => .expr
  | .operation _ => .operation
  | .operand => .operand
  | .creation => .creation
  | .moreArguments => .moreArguments
  | .index => .index
  | .selectors => .selectors
  | .path _ => .path
  | .callee _ => .callee
  | .arguments => .arguments
  | .returnedCalls _ => .returnedCalls
  | .dataType _ => .dataType
  | .stmt => .stmt
  | .alternatives => .alternatives
  | .block => .block
  | .stmts => .stmts
  | .body => .body
  | .fields => .fields
  | .moreParameters => .moreParameters
  | .definitions => .definitions

instance : Plans Call where
  routine := Call.routine
  plan := Call.plan
  perform := Call.perform
  perform_succ := perform_succ

/-- Neither the expression nor its rest starts with an empty path, and an operator has a rest. -/
structure Rooted (e : Expr) : Prop where
  first : e.first ≠ .path []
  rest : e.op.isSome → ∃ r, e.rest = some r ∧ r.first ≠ .path []

/-- What a type begins with. -/
def startsType : Token.Kind → Bool
  | .intType | .doubleType | .boolType | .stringType | .id | .voidType | .arrayKw => true
  | _ => false

theorem startsType_of_isBaseType {k : Token.Kind} (h : k.isBaseType ∨ k = .arrayKw) :
    startsType k := by
  cases k <;> simp_all [Token.Kind.isBaseType, startsType]

@[simp] def Call.needs {β : Type} : Call β → Token → Prop
  | .operation first, _ => first ≠ .path []
  | .callee e, t => e.first ≠ .path [] ∧ t.kind = .lparen
  | .dataType place, t => place = .inSight → startsType t.kind
  | _, _ => True

@[simp] def Call.exit {β : Type} : Call β → Nat
  | .expr | .operation _ => Routine.rank .operation
  | .operand | .creation | .selectors | .path _ | .dataType _ => Routine.rank .selectors
  | .index => Routine.rank .index
  | .callee _ => Routine.rank .callee
  | .arguments | .moreArguments => Routine.rank .arguments
  | .returnedCalls _ => Routine.rank .returnedCalls
  | .moreParameters => Routine.rank .moreParameters
  | .stmts | .body | .fields => Routine.rank .stmts
  | .stmt | .alternatives => Routine.rank .alternatives
  | .definitions => Routine.rank .definitions
  | .block => span

@[simp] def Call.holds {β : Type} : Call β → β → Prop
  | .expr, e | .operation _, e => Rooted e
  | .operand, x | .creation, x => x ≠ .path []
  | .path _, l => l ≠ []
  | _, _ => True

/-- The parser fails at a token that begins no type where it takes one, and at a call of something
that does not start with a path. -/
@[simp] def Call.fails {β : Type} : Call β → Token → Failure → Prop
  | .dataType _, t, f => f = .crash .wrongKind ∧ startsType t.kind = false
  | .callee e, _, f => f = .crash .missingPart ∧ ∀ l, e.first ≠ .path l
  | _, _, _ => False

def pace : Pace Call where
  needs := Call.needs
  exit := Call.exit
  holds := Call.holds
  fails := Call.fails

section

variable {β : Type} {c : Call β} {t : Token}

@[simp] theorem rank_call : rank c = c.routine.rank := rfl

@[simp] theorem pace_needs : pace.needs c t ↔ c.needs t := .rfl

@[simp] theorem pace_exit : pace.exit c = c.exit := rfl

@[simp] theorem pace_holds {a : β} : pace.holds c a ↔ c.holds a := .rfl

@[simp] theorem pace_fails {f : Failure} : pace.fails c t f ↔ c.fails t f := .rfl

end

theorem Rooted.negate {e : Expr} (h : Rooted e) : Rooted e.negate := by
  cases e
  exact ⟨h.first, h.rest⟩

section Helpers

variable {F : Failure → Prop} {t : Token} {g : Nat}

theorem paced_callInRest {e : Expr} {Q : Expr → Token → Nat → Prop} (he : Rooted e)
    (hop : e.op.isNone = false) (ht : t.kind = .lparen) (hg : Routine.rank .callee < g)
    (hQ : ∀ e t g, Q e t g) : (Plan.callInRest e).Paced pace F t g Q := by
  obtain ⟨r, hr, hfirst⟩ := he.rest (by simpa using hop)
  have hrank : 2 < g := hg
  simp [Plan.callInRest, hr, hfirst, ht, hrank, hQ]

theorem paced_declaration {named : Option Token} {Q : VarDecl → Token → Nat → Prop}
    (hg : Routine.rank .dataType < g) (hQ : ∀ d t g, Q d t g) :
    (Plan.declaration named).Paced pace F t g Q := by
  have hrank : 8 < g := hg
  simp +contextual [Plan.declaration, Plan.declared, hrank, hQ, Rooted.first,
    startsType_of_isBaseType]

theorem paced_condition {Q : Expr → Token → Nat → Prop} (hg : Routine.rank .expr < g)
    (hQ : ∀ e t g, Q e t g) : Plan.condition.Paced pace F t g Q := by
  simp only [Plan.condition, paced_bind, paced_call, paced_sees, paced_ite, beq_iff_eq]
  refine ⟨trivial, hg, fun e t he => ⟨fun ht => ⟨fun _ => ?_, fun hop => ?_⟩, fun _ => hQ _ _ _⟩⟩
  · simp [(show Rooted e from he).first, ht, hQ]
  · exact paced_callInRest he (Bool.not_eq_true _ ▸ hop) ht (by decide) hQ

theorem paced_returned {Q : Expr → Token → Nat → Prop} (hg : Routine.rank .expr < g)
    (hQ : ∀ e t g, Q e t g) : Plan.returned.Paced pace F t g Q := by
  simp only [Plan.returned, paced_bind, paced_call]
  refine ⟨trivial, hg, fun e t he => ?_⟩
  split
  · simp only [paced_bind, paced_sees, paced_ite, beq_iff_eq]
    refine ⟨fun ht => ⟨fun _ => ?_, fun hop => ?_⟩, fun _ => hQ _ _ _⟩
    · simp [(show Rooted e from he).first, ht, hQ]
    · exact paced_callInRest he (Bool.not_eq_true _ ▸ hop) ht (by decide) hQ
  · exact hQ _ _ _

end Helpers

-- Made known here, the equations of the plans are derived once for all the lemmas below.
attribute [local simp] Call.plan

theorem fulfils_operation (first : Term) : pace.Fulfils (.operation first) := by
  intro t hfirst
  simp only [plan, Call.plan, paced_bind, paced_look, paced_ite, paced_advance, paced_call,
    paced_pure]
  refine ⟨fun hop t' => ?_, fun _ => ⟨⟨hfirst, fun h => by cases h⟩, Nat.le_refl _⟩⟩
  rw [if_neg (Token.Kind.ne_eos_of_isOperator hop)]
  refine ⟨trivial, by decide, fun r _ hr => ⟨⟨hfirst, fun _ => ⟨r, rfl, ?_⟩⟩, Nat.le_refl _⟩⟩
  exact Rooted.first hr

theorem fulfils_operand : pace.Fulfils .operand := by
  intro t _
  simp only [plan, Call.plan, paced_bind, paced_kind]
  split
  · simp
  · simp +contextual
  · simp only [paced_bind, paced_look, paced_advance, paced_pure]
    intro t'
    split <;> simp

theorem fulfils_creation : pace.Fulfils .creation := by
  intro t _
  simp only [plan, Call.plan, paced_bind, paced_kind, paced_eat, paced_ite, paced_advance,
    paced_look]
  refine fun _ t => ⟨fun _ t => ?_, fun _ => ?_⟩ <;> split <;> simp +contextual [*]

/-- No other failure than by a path without names, which is ruled out. -/
theorem fulfils_callee (e : Expr) : pace.Fulfils (.callee e) := by
  rintro t ⟨hfirst, -⟩
  simp only [plan, Call.plan]
  split
  · simp
  · exact (hfirst ‹_›).elim
  case h_3 hcons hnil =>
    apply Or.inr
    refine ⟨rfl, fun refs hrefs => ?_⟩
    cases refs with
    | nil => exact hnil hrefs
    | cons r refs => exact hcons r refs hrefs

theorem fulfils_returnedCalls (e : Expr) : pace.Fulfils (.returnedCalls e) := by
  intro t _
  have h : t.kind.isOperator → t.kind ≠ .eos := Token.Kind.ne_eos_of_isOperator
  simp +contextual [plan, Call.plan, h]

theorem fulfils_dataType (place : TypeSite) : pace.Fulfils (.dataType place) := by
  intro t _
  simp only [plan, Call.plan, paced_bind, paced_look]
  split
  case h_8 =>
    apply Or.inr
    refine ⟨rfl, ?_⟩
    unfold startsType
    split <;> simp_all
  all_goals simp [*]

theorem fulfils_stmt : pace.Fulfils .stmt := by
  intro t _
  simp only [plan, Call.plan, paced_bind, paced_kind]
  split
  case h_5 =>
    simp only [paced_bind, paced_look, paced_advance, paced_eat, reduceCtorEq, ↓reduceIte]
    refine fun t _ t => paced_declaration (by decide) fun d t g _ t => ?_
    refine paced_condition (by decide) fun e t g _ t t' => ?_
    simp [Plan.assignment]
  case h_6 hkind =>
    simp only [paced_bind, paced_advance, hkind, reduceCtorEq, ↓reduceIte]
    exact fun t => paced_returned (by decide) (by simp)
  case h_7 | h_8 | h_9 | h_10 | h_11 =>
    rw [paced_bind]
    exact paced_declaration (by decide) (by simp)
  case h_12 =>
    -- Behind a name the next token decides.
    simp only [paced_bind, paced_kind, paced_take]
    intro _ t'
    split
    case h_6 =>
      rw [paced_bind]
      exact paced_declaration (by decide) (by simp)
    all_goals simp [Plan.assignment]
  all_goals simp +contextual [*]

theorem fulfils_definitions : pace.Fulfils .definitions := by
  intro t _
  simp only [plan, Call.plan, paced_bind, paced_kind]
  split
  · simp
  · simp [Plan.structDef]
  · simp only [Plan.funDef, Plan.parameters, Plan.returnType, paced_bind, paced_kind]
    split <;> simp [*, Plan.parameter, startsType]

theorem pace_kept : pace.Kept := by
  intro β c
  cases c with
  | operation first => exact fulfils_operation first
  | operand => exact fulfils_operand
  | creation => exact fulfils_creation
  | callee e => exact fulfils_callee e
  | returnedCalls e => exact fulfils_returnedCalls e
  | dataType place => exact fulfils_dataType place
  | stmt => exact fulfils_stmt
  | definitions => exact fulfils_definitions
  | expr | alternatives =>
    intro t _
    simp only [plan, Call.plan, paced_bind, paced_kind]
    split <;> simp +contextual [*, Rooted.negate]
  | _ =>
    intro t _
    simp +contextual [plan, Call.plan, Plan.parameter, Rooted.first]

end StackLang.Parser
