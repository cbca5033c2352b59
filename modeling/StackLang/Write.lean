import StackLang.Failure

namespace StackLang

abbrev Write := EStateM Failure String Unit

namespace Write

def emit (s : String) : Write := modify (· ++ s)

/-- What is done for each element, with a separator written in between. -/
def separated {α : Type} (sep : String) (f : α → Write) : List α → Write
  | [] => pure ()
  | [a] => f a
  | a :: b :: l => do
    f a
    emit sep
    separated sep f (b :: l)

def result (w : Write) : String × Option Failure :=
  match w.run "" with
  | .ok _ s => (s, none)
  | .error e s => (s, some e)

end Write
end StackLang
