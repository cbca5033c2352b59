import StackLang.Failure
import StackLang.Source
import StackLang.Text.Blank
import StackLang.Text.Digit

namespace StackLang

/-- A lexer in the midst of its source. -/
structure Lexer where
  rest : Source
  line : Nat
  column : Nat
  deriving Repr, DecidableEq

namespace Lexer

open Text

abbrev Scan := EStateM Failure Lexer

abbrev Outcome := EStateM.Result Failure Lexer

def ofSource (source : Source) : Lexer := ⟨source, 1, 0⟩

/-- Consumes one unit. At the end there is none, and the column moves all the same. -/
def read : Scan (Option Char) := fun s =>
  match s.rest with
  | [] => .ok none ⟨[], s.line, s.column + 1⟩
  | c :: cs =>
    match c.value with
    | some x => .ok (some x) ⟨cs, s.line, s.column + 1⟩
    | none => .error (.crash .undecodable) ⟨cs, s.line, s.column + 1⟩

def peek : Scan (Option Char) := fun s =>
  match s.rest with
  | [] => .ok none s
  | c :: _ =>
    match c.sight with
    | some x => .ok (some x) s
    | none => .error (.crash .undecodable) s

def peekIs (p : Char → Bool) : Scan Bool := do
  return (← peek).any p

def collect (p : Char → Bool) (line : Nat) : Source → Nat → Outcome (List Char)
  | [], column => .ok [] ⟨[], line, column⟩
  | c :: cs, column =>
    match c.sight with
    | none => .error (.crash .undecodable) ⟨c :: cs, line, column⟩
    | some x =>
      if p x then
        match c.value with
        | none => .error (.crash .undecodable) ⟨cs, line, column + 1⟩
        | some y =>
          match collect p line cs (column + 1) with
          | .ok ys s => .ok (y :: ys) s
          | .error e s => .error e s
      else .ok [] ⟨c :: cs, line, column⟩

def readWhile (p : Char → Bool) : Scan (List Char) := fun s =>
  collect p s.line s.rest s.column

def skipBlank : Scan Unit := do
  if ← peekIs isBlank then discard read

/-- Consumes one separator: a line break begins a new line, and so does the end, in column 1. -/
def moveToNextLine : Scan Unit := do
  match ← peek with
  | none => modify fun s => { s with column := 1 }
  | some c =>
    if c = '\n' then
      discard read
      modify fun s => { s with line := s.line + 1, column := 1 }
    else if isBlank c then discard read

def skipBlanks (line : Nat) : Source → Nat → Outcome (Option Char)
  | [], column => .ok none ⟨[], line, column + 1⟩
  | c :: cs, column =>
    match c.value with
    | none => .error (.crash .undecodable) ⟨cs, line, column + 1⟩
    | some x =>
      if isBlank x then skipBlanks line cs (column + 1)
      else .ok (some x) ⟨cs, line, column + 1⟩

def skipLines : Source → Nat → Nat → Outcome (Option Char)
  | [], line, column => .ok none ⟨[], line, column + 1⟩
  | c :: cs, line, column =>
    match c.value with
    | none => .error (.crash .undecodable) ⟨cs, line, column + 1⟩
    | some x =>
      if x = '\n' then skipLines cs (line + 1) 0
      else if isBlank x then skipBlanks line cs (column + 1)
      else .ok (some x) ⟨cs, line, column + 1⟩

/-- Consumes blanks up to and including the first character of a token. Line breaks are counted
only before any other blank. -/
def start : Scan (Option Char) := fun s => skipLines s.rest s.line s.column

def here (kind : Token.Kind) (lexeme : String) : Scan Token := do
  let s ← get
  return ⟨kind, lexeme, s.line, s.column⟩

/-- Symbols of one character with a separator behind them, and whether they are placed on the line
they stand on or on the line that the separator leads to. -/
def symbol? : Char → Option (Token.Kind × Bool)
  | '.' => some (.dot, true)
  | ',' => some (.comma, true)
  | '(' => some (.lparen, true)
  | '+' => some (.plus, false)
  | '-' => some (.minus, false)
  | '*' => some (.times, false)
  | '[' => some (.lbracket, false)
  | ']' => some (.rbracket, false)
  | '{' => some (.lbrace, false)
  | '}' => some (.rbrace, false)
  | _ => none

def symbol (c : Char) (kind : Token.Kind) (own : Bool) : Scan Token := do
  let line := (← get).line
  moveToNextLine
  let s ← get
  return ⟨kind, c.toString, if own then line else s.line, s.column⟩

def semicolon : Scan Token := do
  let line := (← get).line
  if ← peekIs (· == '\n') then
    discard read
    modify fun s => { s with line := s.line + 1, column := 1 }
  else skipBlank
  return ⟨.semicolon, ";", line, (← get).column⟩

/-- A digit behind a closing parenthesis makes the token, and the parenthesis is dropped. -/
def closing : Scan Token := do
  let line := (← get).line
  moveToNextLine
  match ← peek with
  | some d =>
    if isDigit d then
      discard read
      return ⟨.intVal, d.toString, line, (← get).column⟩
    else here .rparen ")"
  | none => here .rparen ")"

/-- The text of a comment without its slashes. A character behind its line break is consumed
unless it can begin a word. -/
def commentText (line : Nat) : Source → Nat → Outcome (List Char)
  | [], column => .ok [] ⟨[], line, column + 1⟩
  | c :: cs, column =>
    match c.value with
    | none => .error (.crash .undecodable) ⟨cs, line, column + 1⟩
    | some x =>
      if x = '\n' then
        (do unless ← peekIs isWordChar do discard read
            return [] : Scan (List Char)) ⟨cs, line + 1, 0⟩
      else
        match commentText line cs (column + 1) with
        | .ok text s => .ok (if x = '/' then text else x :: text) s
        | .error e s => .error e s

def slash : Scan Token := do
  let s ← get
  if ← peekIs (· == '/') then
    let text ← (fun s => commentText s.line s.rest s.column : Scan (List Char))
    return ⟨.comment, String.ofList text, s.line, s.column⟩
  skipBlank
  here .divide "/"

def comparison (c : Char) (alone withEqual : Token.Kind) : Scan Token := do
  if ← peekIs (· == '=') then
    discard read
    skipBlank
    here withEqual (c.toString ++ "=")
  else
    skipBlank
    here alone c.toString

def less : Scan Token := do
  let s ← get
  if ← peekIs (· == '=') then
    discard read
    skipBlank
    here .lessEq "<="
  else
    moveToNextLine
    return ⟨.less, "<", s.line, s.column⟩

def bang : Scan Token := do
  if ← peekIs (· == '=') then
    discard read
    modify fun s => { s with column := s.column - 1 }
    skipBlank
    here .notEqual "!="
  else throw (.lexical .strayBang)

/-- A text runs to the next quote or to the end, and keeps no blanks at its ends. -/
def quoted : Scan Token := do
  let column := (← get).column
  let inner ← readWhile (· != '"')
  if ← peekIs (· == '"') then discard read
  let blanks ← readWhile isBlank
  return ⟨.stringVal, String.ofList (trim (inner ++ blanks)), (← get).line, column⟩

/-- What the first part of a numeral takes in: all but blanks and the signs that may follow it. -/
def inNumeral (c : Char) : Bool :=
  !(isBlank c || ['.', ';', ')', ',', ']', '}', '-', '+', '/', '*'].contains c)

def fraction (whole : List Char) : Scan (List Char) := do
  if ← peekIs (· == '.') then
    discard read
    unless ← peekIs isDigit do throw (.lexical .digitExpected)
    return whole ++ '.' :: (← readWhile isDigit)
  else return whole

def numeral (c : Char) : Scan Token := do
  let column := (← get).column
  let more ← readWhile inNumeral
  if c = '0' ∧ more ≠ [] then throw (.lexical .leadingZero)
  let lexeme ← fraction (c :: more)
  skipBlank
  match lexeme.zipIdx.find? fun x => !(isDigit x.1 || x.1 == '.') with
  | some (x, i) => throw (.lexical (.strayInNumeral x (i + 1)))
  | none =>
    let kind := if '.' ∈ lexeme then .doubleVal else .intVal
    return ⟨kind, String.ofList lexeme, (← get).line, column⟩

/-- Letters, numerals and underscores, up to the point where they spell a reserved word. The
letters behind an underscore are taken without that test (`run`), and so is the end of `elseif`. -/
def wordText (line : Nat) (run : Bool) (w : String) : Source → Nat → Outcome String
  | [], column => .ok w ⟨[], line, column⟩
  | c :: cs, column =>
    match c.sight with
    | none => .error (.crash .undecodable) ⟨c :: cs, line, column⟩
    | some x =>
      if run && isLetter x then
        match c.value with
        | none => .error (.crash .undecodable) ⟨cs, line, column + 1⟩
        | some y => wordText line true (w.push y) cs (column + 1)
      else if !(isWordChar x || x == '_') || (Token.reserved? w).isSome then
        .ok w ⟨c :: cs, line, column⟩
      else
        match c.value with
        | none => .error (.crash .undecodable) ⟨cs, line, column + 1⟩
        | some y =>
          match cs with
          | [] => .ok (w.push y) ⟨[], line, column + 1⟩
          | d :: ds =>
            match d.sight with
            | none => .error (.crash .undecodable) ⟨d :: ds, line, column + 1⟩
            | some z =>
              if z = '_' then wordText line true ((w.push y).push '_') ds (column + 2)
              else if w.push y = "else" ∧ z = 'i' then
                match ds with
                | [] => .ok "elsei" ⟨[], line, column + 3⟩
                | e :: es =>
                  match e.value with
                  | none => .error (.crash .undecodable) ⟨es, line, column + 3⟩
                  | some u => wordText line false ("elsei".push u) es (column + 3)
              else wordText line false (w.push y) (d :: ds) (column + 1)

def word (c : Char) : Scan Token := do
  let column := (← get).column
  let w ← (fun s => wordText s.line false c.toString s.rest s.column : Scan String)
  skipBlank
  if ← peekIs (· == '\n') then discard read
  return ⟨(Token.reserved? w).getD .id, w, (← get).line, column⟩

def stray (c : Char) : Scan Token := do
  if c = '#' then throw (.lexical .strayHash)
  let s ← get
  throw (.lexical (.located s!"Unexpected character '{c}'" s.line s.column))

def token (c : Char) : Scan Token :=
  match symbol? c with
  | some (kind, own) => symbol c kind own
  | none =>
    match c with
    | ';' => semicolon
    | '/' => slash
    | ')' => closing
    | '=' => comparison '=' .assign .equal
    | '<' => less
    | '>' => comparison '>' .greater .greaterEq
    | '!' => bang
    | '"' => quoted
    | _ => if isDigit c then numeral c else if isLetter c then word c else stray c

def next : Scan Token := do
  match ← start with
  | none => here .eos ""
  | some c => token c

/-- The tokens up to the end of the source, or up to a failure. -/
structure Listing where
  tokens : List Token
  failure : Option Failure
  lexer : Lexer
  deriving Repr

def listing : Nat → Lexer → Listing
  | 0, s => ⟨[], some (.crash .exhausted), s⟩
  | fuel + 1, s =>
    match next s with
    | .error e s' => ⟨[], some e, s'⟩
    | .ok t s' =>
      if t.kind = .eos then ⟨[t], none, s'⟩
      else
        let more := listing fuel s'
        { more with tokens := t :: more.tokens }

/-- All tokens of a source. Every token but the last consumes a unit, which bounds their number. -/
def tokens (s : Lexer) : Listing := listing (s.rest.length + 1) s

end Lexer
end StackLang
