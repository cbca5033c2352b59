import StackLang.Compiler
import StackLang.Printer
import StackLang.Recognizer
import StackLang.Script
import StackLang.Text.Digit

namespace StackLang.CommandLine

/-- What to do with a program; it is run unless something else is asked for. -/
inductive Mode where
  | lex | parse | print | check | code | script | run
  deriving Repr, DecidableEq

inductive Flag where
  | mode (m : Mode)
  | help
  deriving Repr, DecidableEq

def options : List (String × Flag) :=
  [("-h", .help), ("--help", .help), ("--lex", .mode .lex), ("--parse", .mode .parse),
    ("--print", .mode .print), ("--check", .mode .check), ("--ir", .mode .code),
    ("--py", .mode .script)]

/-- An argument on its own. -/
inductive Argument where
  | option (o : Flag)
  | valued (o : Flag)
  | unknown
  | ambiguous
  | positional (s : String)
  | terminator
  deriving Repr, DecidableEq

def lookup (name : String) : Option Flag := (options.find? (·.1 == name)).map Prod.snd

/-- A sign, digits with a point before the last of them or without one, and then a line break at
most. -/
def looksNegative (s : List Char) : Bool :=
  let digit (c : Char) := (Text.decimal? c).isSome
  let digits (cs : List Char) := cs.any digit && (cs = cs.filter digit || cs = cs.filter digit ++ ['\n'])
  match s with
  | '-' :: rest =>
    match rest.dropWhile digit with
    | '.' :: places => digits places
    | _ => digits rest
  | _ => false

/-- The options that an abbreviation stands for. A long one may be cut short; a short one may have
its value attached. -/
def candidates (s : String) : List Flag :=
  let cs := s.toList
  let name := cs.takeWhile (· ≠ '=')
  if cs.take 2 = ['-', '-'] then
    (options.filter fun o => name.isPrefixOf o.1.toList).map Prod.snd
  else (options.filter fun o => o.1.toList = cs.take 2).map Prod.snd

def classify (s : String) : Argument :=
  let cs := s.toList
  let name := String.ofList (cs.takeWhile (· ≠ '='))
  let plain := !('=' ∈ cs)
  if cs.head? ≠ some '-' ∨ cs.length = 1 then .positional s
  else
    match lookup s, lookup name with
    | some o, _ => .option o
    | none, some o => .valued o
    | none, none =>
      match candidates s with
      | [o] => if plain ∧ cs.take 2 = ['-', '-'] then .option o else .valued o
      | _ :: _ :: _ => .ambiguous
      | [] => if looksNegative cs ∨ ' ' ∈ cs then .positional s else .unknown

def classifyAll : List String → List Argument
  | [] => []
  | s :: rest =>
    if s = "--" then .terminator :: rest.map .positional else classify s :: classifyAll rest

/-- What is asked for. -/
inductive Request where
  | work (mode : Mode) (file : Option String)
  | help
  | misuse
  deriving Repr, DecidableEq

/-- The state of reading arguments from left to right: the mode asked for, the file name, whether
the place of the file name is used up, and whether it was so just now. -/
structure Progress where
  mode : Option Mode
  file : Option String
  used : Bool
  adjacent : Bool
  extra : Bool

def read : Progress → List Argument → Request
  | p, [] => if p.extra then .misuse else .work (p.mode.getD .run) p.file
  | p, a :: rest =>
    match a with
    | .option .help => .help
    | .option (.mode m) =>
      match p.mode with
      | some m' =>
        if m = m' then read { p with adjacent := false } rest else .misuse
      | none => read { p with mode := some m, adjacent := false } rest
    | .valued _ | .ambiguous => .misuse
    | .unknown => read { p with extra := true, adjacent := false } rest
    | .positional s =>
      if p.used then read { p with extra := true } rest
      else read { p with file := some s, used := true, adjacent := true } rest
    | .terminator =>
      if p.used ∧ ¬p.adjacent then read { p with extra := true } rest else read p rest

def request (args : List String) : Request :=
  let arguments := classifyAll args
  if .ambiguous ∈ arguments then .misuse
  else
    match read ⟨none, none, false, false, false⟩ arguments with
    | .work mode (some "") => .work mode none
    | r => r

/-- The end of a run: exit status, standard output, the script that was written if one was, and the
failure that was not caught if there is one. -/
structure Report where
  exit : Nat
  output : String
  script : Option String
  failure : Option Failure

namespace Report

def done (output : String) : Report := ⟨0, output, none, none⟩

def failed (output : String) : Failure → Report
  | .diagnosis d => ⟨1, output ++ d.message ++ "\n", none, none⟩
  | .crash c => ⟨1, output, none, some (.crash c)⟩

def ofOutcome (output : String) : Option Failure → Report
  | none => done output
  | some e => failed output e

end Report

def lexMode (source : Source) : Report :=
  let r := (Lexer.ofSource source).tokens
  let lines := String.join (r.tokens.map fun t => t.render ++ "\n")
  .ofOutcome (lines ++ (r.failure.map Failure.notice).getD "") r.failure

def parseMode (source : Source) : Report :=
  match Recognizer.program.run (Feed.ofSource source) with
  | .ok _ _ => .done ""
  | .error e _ => .failed e.notice e

def printMode (source : Source) : Report :=
  match Parser.parse source with
  | .ok p =>
    let (text, failure) := (Printer.program p).result
    .ofOutcome text failure
  | .error e => .failed e.notice e

def checkMode (source : Source) : Report :=
  match Parser.parse source with
  | .ok p => .ofOutcome "" (Compiler.check p).2
  | .error e => .failed e.notice e

def codeMode (source : Source) : Report :=
  match Compiler.compile true source with
  | (g, none) =>
    match g.image.render with
    | .ok text => .done (text ++ "\n")
    | .error c => .failed "" (.crash c)
  | (_, some e) => .failed e.notice e

def scriptMode (source : Source) : Report :=
  match Parser.parse source with
  | .ok p =>
    let (text, failure) := (Script.program p).result
    ⟨if failure.isSome then 1 else 0, "", some text, failure⟩
  | .error e => ⟨1, e.notice, none, some e⟩

def runMode (source : Source) (input : List Char) : Report :=
  let (m, failure) := Compiler.execute true false source input
  .ofOutcome m.output failure

def unifyLines : List Char → List Char
  | '\r' :: '\n' :: cs => '\n' :: unifyLines cs
  | '\r' :: cs => '\n' :: unifyLines cs
  | c :: cs => c :: unifyLines cs
  | [] => []

/-- What a program works on: the text of a file, or standard input itself. -/
def perform (mode : Mode) (source : Source) (input : List Char) : Report :=
  match mode with
  | .lex => lexMode source
  | .parse => parseMode source
  | .print => printMode source
  | .check => checkMode source
  | .code => codeMode source
  | .script => scriptMode source
  | .run => runMode source input

def usage : String :=
  "usage: [-h] [--lex | --parse | --print | --check | --ir | --py] [filename]\n"

/-- Answers a request, given the text of each file that can be opened and standard input. -/
def answer (file? : String → Option String) (stdin : String) : Request → Report
  | .misuse => ⟨2, "", none, none⟩
  | .help => .done usage
  | .work mode none => perform mode (.ofBytes stdin.toUTF8.toList) []
  | .work mode (some name) =>
    match file? name with
    | none => ⟨1, s!"ERROR: Could not open file '{name}'\n", none, none⟩
    | some text =>
      perform mode (.ofText (String.ofList (unifyLines text.toList))) (unifyLines stdin.toList)

end StackLang.CommandLine
