import StackLang.Compiler

namespace StackLang

structure Session where
  checker : Checker
  /-- The generator holds the functions that the machine can call. -/
  generator : Generator
  machine : Machine

namespace Session

def empty : Session := ⟨.empty, .ofImage .empty, .empty⟩

def check (s : Session) (source : Source) : Session × Option Failure :=
  match Parser.parse source with
  | .error e => (s, some e)
  | .ok p =>
    let (c, failure) := outcome ((Checker.program p).run s.checker)
    ({ s with checker := c }, failure)

def generate (s : Session) (source : Source) : Session × Option Failure :=
  match Parser.parse source with
  | .error e => (s, some e)
  | .ok p =>
    let (g, failure) := outcome ((Generator.program p).run s.generator)
    ({ s with generator := g }, failure)

def install (s : Session) (t : Template) : Session :=
  { s with generator := { s.generator with image := s.generator.image.install t } }

def run (s : Session) (debug : Bool) (input : List Char) : Session × Option Failure :=
  let (m, failure) := Compiler.run s.generator.image debug input s.machine
  ({ s with machine := m }, failure)

end Session
end StackLang
