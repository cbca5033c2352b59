import StackLang.Lexer

namespace StackLang

/-- A token and the place that the lexer has reached with it. -/
structure Reading where
  token : Token
  line : Nat
  column : Nat
  deriving Repr, DecidableEq

inductive Ending where
  /-- The next end mark; each one stands a column further. -/
  | marks (line column : Nat)
  /-- The lexer fails, behind a comment perhaps. -/
  | failure (f : Failure) (comment : Option Token) (line column : Nat)
  deriving Repr, DecidableEq

structure Feed where
  /-- The token that the parser looks at; none before the first. -/
  current : Option Token
  line : Nat
  column : Nat
  ahead : List Reading
  ending : Ending
  deriving Repr, DecidableEq

namespace Feed

def gather : Nat → Option Token → Lexer → List Reading × Ending
  | 0, comment, s => ([], .failure (.crash .exhausted) comment s.line s.column)
  | fuel + 1, comment, s =>
    match s.next with
    | .error e s' => ([], .failure e comment s'.line s'.column)
    | .ok t s' =>
      if t.kind = .eos then ([], .marks t.line t.column)
      else if t.kind = .comment then gather fuel (some t) s'
      else
        let more := gather fuel none s'
        (⟨t, s'.line, s'.column⟩ :: more.1, more.2)

def ofLexer (s : Lexer) : Feed :=
  let (ahead, ending) := gather (s.rest.length + 1) none s
  ⟨none, s.line, s.column, ahead, ending⟩

def ofSource (source : Source) : Feed := ofLexer (Lexer.ofSource source)

end Feed

/-- Parsing keeps the place in the stream that was reached when it fails. -/
abbrev Parse := EStateM Failure Feed

namespace Parse

def advance : Parse Unit := fun s =>
  match s.ahead with
  | r :: rs => .ok () { s with current := some r.token, line := r.line, column := r.column, ahead := rs }
  | [] =>
    match s.ending with
    | .marks line column =>
      .ok () ⟨some ⟨.eos, "", line, column⟩, line, column, [], .marks line (column + 1)⟩
    | .failure f comment line column =>
      .error f { s with current := comment <|> s.current, line := line, column := column }

def look : Parse Token := fun s =>
  match s.current with
  | some t => .ok t s
  | none => .error (.crash .missingPart) s

def kind : Parse Token.Kind := do
  return (← look).kind

def sees (k : Token.Kind) : Parse Bool := do
  return (← kind) == k

def reject {α : Type} (wanted : Expectation) : Parse α := do
  throw (.syntactic ⟨wanted, ← look⟩)

def expect (k : Token.Kind) (wanted : Expectation) : Parse Unit := do
  if ← sees k then advance else reject wanted

def eat (k : Token.Kind) : Parse Unit := expect k (.token k)

def take (k : Token.Kind) : Parse Token := do
  let t ← look
  eat k
  return t

/-- Bounds the depth of a recursive descent over a feed: along any chain of nested calls, every
few of them have a token between them. -/
def depth (s : Feed) : Nat := 16 * (s.ahead.length + 2)

end Parse

namespace Token.Kind

def isBaseType : Kind → Bool
  | intType | doubleType | boolType | stringType => true
  | _ => false

def isLiteral : Kind → Bool
  | intVal | doubleVal | boolVal | stringVal | nullVal => true
  | _ => false

def isOperator : Kind → Bool
  | plus | minus | times | divide | andOp | orOp | equal | less | greater | lessEq | greaterEq
  | notEqual => true
  | _ => false

end Token.Kind
end StackLang
