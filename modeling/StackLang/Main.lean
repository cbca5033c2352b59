import StackLang.CommandLine

namespace StackLang

open CommandLine

def fileText? (name : String) : IO (Option String) := do
  try
    return some (← IO.FS.readFile name)
  catch _ => return none

/-- Standard input, unless a request needs none. -/
def inputFor : Request → IO String
  | .work _ none | .work .run _ => do
    let stdin ← IO.getStdin
    stdin.readToEnd
  | _ => return ""

def deliver (r : Report) : IO UInt32 := do
  (← IO.getStdout).putStr r.output
  match r.script with
  | some text => IO.FS.writeFile "output.py" text
  | none => pure ()
  if r.exit = 2 then IO.eprint usage
  match r.failure with
  | some (.diagnosis d) => IO.eprintln d.message
  | some (.crash c) => IO.eprintln (reprStr c)
  | none => pure ()
  return r.exit.toUInt32

end StackLang

open StackLang StackLang.CommandLine in
def main (args : List String) : IO UInt32 := do
  let r := request args
  let name := match r with
    | .work _ (some name) => name
    | _ => ""
  let text ← fileText? name
  let stdin ← inputFor r
  deliver (answer (fun n => if n = name then text else none) stdin r)
