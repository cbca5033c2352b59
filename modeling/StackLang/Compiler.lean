import StackLang.Checker
import StackLang.Generator
import StackLang.Machine
import StackLang.Parser

namespace StackLang

def outcome {σ α : Type} : EStateM.Result Failure σ α → σ × Option Failure
  | .ok _ s => (s, none)
  | .error e s => (s, some e)

namespace Compiler

def check (p : Program) : Checker × Option Failure := outcome ((Checker.program p).run .empty)

def generate (p : Program) : Generator × Option Failure :=
  outcome ((Generator.program p).run (.ofImage .empty))

/-- The code of a source. A source that does not parse, or is to be checked and fails, has none. -/
def compile (checked : Bool) (source : Source) : Generator × Option Failure :=
  match Parser.parse source with
  | .error e => (.ofImage .empty, some e)
  | .ok p =>
    match if checked then (check p).2 else none with
    | some e => (.ofImage .empty, some e)
    | none => generate p

def patience : Nat := Nat.pow 10 15

/-- Runs code from the machine's present state on the given input, with no output yet. -/
def run (image : Image) (debug : Bool) (input : List Char) (m : Machine) :
    Machine × Option Failure :=
  outcome ((Machine.run image debug patience).run { m with input := input, output := "" })

def execute (checked debug : Bool) (source : Source) (input : List Char) :
    Machine × Option Failure :=
  match compile checked source with
  | (_, some e) => ({ Machine.empty with output := e.notice }, some e)
  | (g, none) => run g.image debug input .empty

end Compiler
end StackLang
