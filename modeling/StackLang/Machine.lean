import StackLang.Heap
import StackLang.Instr
import StackLang.Number.Numeral

namespace StackLang

/-- A call in progress. -/
structure Frame where
  template : Template
  pc : Value
  locals : List Value
  stack : List Value
  deriving Repr

def Frame.enter (t : Template) : Frame := ⟨t, .int 0, [], []⟩

structure Machine where
  heap : Heap
  frames : List Frame
  input : List Char
  output : String
  deriving Repr

abbrev Exec := EStateM Failure Machine

namespace Machine

def empty : Machine := ⟨.empty, [], [], ""⟩

def complain {α : Type} (e : MachineError) : Exec α := throw (.machine e)

def attempt {α : Type} : Except Crash α → Exec α
  | .ok a => pure a
  | .error c => throw (.crash c)

def found {α : Type} : Option α → Exec α
  | some a => pure a
  | none => throw (.crash .unknownKey)

def onFrame (f : Frame → Frame) : Exec Unit :=
  modify fun m =>
    match m.frames with
    | [] => m
    | top :: rest => { m with frames := f top :: rest }

def frame : Exec Frame := do
  match (← get).frames with
  | top :: _ => return top
  | [] => throw (.crash .outOfRange)

def push (v : Value) : Exec Unit := onFrame fun f => { f with stack := v :: f.stack }

def pop : Exec Value := do
  match (← frame).stack with
  | v :: rest =>
    onFrame fun f => { f with stack := rest }
    return v
  | [] => throw (.crash .outOfRange)

/-- Does nothing unless there are two operands. -/
def withTwo (k : Value → Value → Exec Unit) : Exec Unit := do
  match (← frame).stack with
  | _ :: _ :: _ =>
    let x ← pop
    let y ← pop
    k y x
  | _ => pure ()

def arithmetic (f : Value → Value → Except Crash Value) : Exec Unit :=
  withTwo fun y x => do
    if x = .absent ∨ y = .absent then complain .operandsAbsent
    push (← attempt (f y x))

def divide : Exec Unit :=
  withTwo fun y x => do
    if x = .absent ∨ y = .absent then complain .operandsAbsent
    if x.same (.int 0) then complain .divisionByZero
    push (← attempt (y.div x))

/-- Two operands that are both there, the upper one last. -/
def popPair : Exec (Value × Value) := do
  let x ← pop
  let y ← pop
  if x = .absent ∨ y = .absent then complain .operandAbsent
  return (y, x)

/-- Puts a value in at a place and moves the later ones up; a place beyond the end counts as the
end. -/
def insertAt (x : Value) : Nat → List Value → List Value
  | 0, vars => x :: vars
  | _ + 1, [] => [x]
  | n + 1, v :: vars => v :: insertAt x n vars

/-- Puts a value in at an offset; a negative one counts from the end. -/
def store (offset : Value) (x : Value) : Exec Unit := do
  let i ← attempt offset.position
  if Value.sizeLimit ≤ i ∨ i < -Value.sizeLimit then throw (.crash .tooLarge)
  onFrame fun f =>
    let k := if 0 ≤ i then i.toNat else (f.locals.length + i).toNat
    { f with locals := insertAt x k f.locals }

def load (offset : Value) : Exec Value := do
  let i ← attempt offset.position
  let vars := (← frame).locals
  match if 0 ≤ i then some i.toNat else place? vars.length i with
  | some k =>
    match vars[k]? with
    | some v => return v
    | none => throw (.crash .outOfRange)
  | none => throw (.crash .outOfRange)

def jump (target : Value) : Exec Unit := onFrame fun f => { f with pc := target }

/-- Moves operands of the caller, from its top down, onto the frame that was just entered. -/
def passArguments : Nat → Exec Unit
  | 0 => pure ()
  | n + 1 => do
    match (← get).frames with
    | callee :: caller :: rest =>
      match caller.stack with
      | v :: stack =>
        modify fun m => { m with
          frames := { callee with stack := v :: callee.stack } :: { caller with stack := stack } :: rest }
        passArguments n
      | [] => throw (.crash .outOfRange)
    | _ => throw (.crash .outOfRange)

def call (image : Image) (function : Value) : Exec Unit := do
  let t ← found (match function with
    | .text name => image.get? name
    | _ => none)
  modify fun m => { m with frames := Frame.enter t :: m.frames }
  passArguments t.arity.toNat

/-- Leaves the innermost call. A value returned from the outermost one is dropped. -/
def ret : Exec Unit := do
  let v ← pop
  modify fun m => { m with frames := m.frames.tail }
  push v

def print (s : String) : Exec Unit := modify fun m => { m with output := m.output ++ s }

def write : Exec Unit := do
  match (← frame).stack with
  | [] => pure ()
  | _ =>
    match ← pop with
    | .absent => print "null"
    | .bool b => print (if b then "true" else "false")
    | v => print (← attempt v.render)

def readLine : Exec String := do
  let m ← get
  if m.input = [] then throw (.crash .endOfInput)
  set { m with input := (m.input.dropWhile (· ≠ '\n')).tail }
  return String.ofList (m.input.takeWhile (· ≠ '\n'))

def length : Exec Unit := do
  match ← pop with
  | .text s => push (.int s.length)
  | .absent => complain .lengthOfAbsent
  | v => push (.int (← found ((← get).heap.array? v)).size)

/-- An index that is no larger than `last` and not negative, with the complaint for any other. -/
def characterIndex (last : Int) (i : Value) : Exec Nat := do
  if ← attempt (Value.less (.int last) i) then complain .characterOutOfRange
  if ← attempt (i.less (.int 0)) then complain .characterOutOfRange
  return (← attempt i.position).toNat

/-- An index into an array of `n` items, with the complaint for one beyond its ends. -/
def itemIndex (n : Nat) (i : Value) (e : MachineError) : Exec Nat := do
  if ← attempt (Value.lessEq (.int n) i) then complain e
  if ← attempt (i.less (.int 0)) then complain e
  return (← attempt i.position).toNat

def charAt : Exec Unit := do
  let x ← pop
  if x = .absent then complain .characterOfAbsent
  let y ← pop
  if y = .absent then complain .characterOfAbsent
  match x with
  | .text s =>
    let i ← characterIndex (s.length - 1) y
    match s.toList[i]? with
    | some c => push (.text c.toString)
    | none => throw (.crash .outOfRange)
  | _ => throw (.crash .wrongKind)

def digitsOnly (s : String) : Bool := s ≠ "" && s.toList.all Text.isDigit

def isNumber (s : String) : Bool :=
  s ≠ "" && s.toList.all (fun c => Text.isDigit c || c == '.') && s.toList.count '.' ≤ 1

def numeral {α : Type} : Option α → Exec α
  | some a => pure a
  | none => throw (.crash .badNumeral)

def toInt : Exec Unit := do
  match ← pop with
  | .absent => complain .conversionOfAbsent
  | .double d => push (← attempt (Value.wholePart d))
  | .text s =>
    if digitsOnly s then push (.int (← numeral (Numeral.int? s))) else complain .notWholeNumber
  | _ => complain .notWholeNumber

def toDouble : Exec Unit := do
  match ← pop with
  | .absent => complain .conversionOfAbsent
  | .text s =>
    if isNumber s then push (.double (← numeral (Numeral.double? s))) else complain .notNumber
  | v =>
    match v.number? with
    | some x => push (.double (← attempt x.toDouble))
    | none => throw (.crash .wrongKind)

def toText : Exec Unit := do
  let x ← pop
  if x = .absent then complain .conversionOfAbsent
  push (.text (← attempt x.render))

def allocate (o : Object) : Exec Value := do
  let m ← get
  set { m with heap := m.heap.alloc o }
  return .int m.heap.nextId

def setField (field : Value) : Exec Unit := do
  let value ← pop
  if value = .absent then complain .fieldValueAbsent
  let owner ← pop
  if owner = .absent then complain .fieldOwnerAbsent
  let fields ← found ((← get).heap.record? owner)
  modify fun m => { m with heap := m.heap.replace owner (.record (fields.put ⟨field⟩ value)) }

def getField (field : Value) : Exec Unit := do
  let owner ← pop
  if owner = .absent then complain .fieldOfAbsent
  let fields ← found ((← get).heap.record? owner)
  push (← found (fields.get? ⟨field⟩))

/-- The number of the array is taken before its length is looked at. -/
def allocArray : Exec Unit := do
  let id ← allocate .missing
  let n ← pop
  if n = .absent then complain .badArrayLength
  if ← attempt (n.less (.int 0)) then complain .badArrayLength
  let size := (← attempt n.position).toNat
  modify fun m => { m with heap := m.heap.fill (.array (Array.replicate size Value.null)) }
  push id

def setItem : Exec Unit := do
  let value ← pop
  let i ← pop
  let owner ← pop
  if i = .absent ∨ owner = .absent then complain .setItemAbsent
  let items ← found ((← get).heap.array? owner)
  let k ← itemIndex items.size i .setItemOutOfRange
  modify fun m => { m with heap := m.heap.replace owner (.array (items.setIfInBounds k value)) }

def getItem : Exec Unit := do
  let i ← pop
  let owner ← pop
  if i = .absent ∨ owner = .absent then complain .getItemAbsent
  let items ← found ((← get).heap.array? owner)
  let k ← itemIndex items.size i .getItemOutOfRange
  match items[k]? with
  | some v => push v
  | none => throw (.crash .outOfRange)

/-- The effect of an operation, once the place of the next instruction is set. -/
def exec (image : Image) : Instr → Exec Unit
  | ⟨op, comment⟩ =>
    match op with
    | .push v => push v
    | .pop => discard pop
    | .load offset => do push (← load offset)
    | .store offset => do store offset (← pop)
    | .add => arithmetic Value.add
    | .sub => arithmetic Value.sub
    | .mul => arithmetic Value.mul
    | .div => divide
    | .less => do
      let (y, x) ← popPair
      push (.bool (← attempt (y.less x)))
    | .lessEq =>
      withTwo fun y x => do
        if x = .absent ∨ y = .absent then complain .operandAbsent
        push (.text (if ← attempt (y.lessEq x) then "true" else "false"))
    | .equal => do
      let x ← pop
      let y ← pop
      push (.bool (y.same x))
    | .notEqual => do
      let x ← pop
      let y ← pop
      push (.bool !(y.same x))
    | .and => do
      let (y, x) ← popPair
      push (if y.truthy then x else y)
    | .or => do
      let (y, x) ← popPair
      push (if y.truthy then y else x)
    | .not => do
      let x ← pop
      if x = .absent then complain .operandAbsent
      push (.bool !x.truthy)
    | .jump target => jump target
    | .jumpFalse target => do
      let x ← pop
      if !x.truthy || x = .text "false" then jump target
    | .call function => call image function
    | .ret => ret
    | .write => write
    | .read => do push (.text (← readLine))
    | .length => length
    | .charAt => charAt
    | .toInt => toInt
    | .toDouble => toDouble
    | .toText => toText
    | .allocStruct => do push (← allocate (.record ⟨[]⟩))
    | .setField field => setField field
    | .getField field => getField field
    | .allocArray => allocArray
    | .setItem => setItem
    | .getItem => getItem
    | .dup => do
      let x ← pop
      push x
      push x
    | .nop => pure ()
    | .unknown .. => do
      let text ← attempt (Instr.render ⟨op, comment⟩)
      complain (.unsupported text)

/-- Prints a line with a label, which is there also when the text behind it cannot be made. -/
def printLine (label : String) (text : Except Crash String) : Exec Unit := do
  print (label ++ " ")
  print ((← attempt text) ++ "\n")

/-- What is printed about an instruction before it is executed. -/
def trace (i : Instr) : Exec Unit := do
  let f ← frame
  print "\n\n"
  printLine "\t FRAME.........:" (.ok f.template.name)
  printLine "\t PC............:" f.pc.render
  printLine "\t INSTRUCTION...:" i.render
  printLine "\t NEXT OPERAND..:" (f.stack.head?.getD .absent).render
  printLine "\t NEXT FUNCTION..:" (.ok f.template.name)

def fetch (t : Template) (pc : Value) : Except Crash Instr := do
  let i ← pc.position
  match place? t.code.size i >>= fun k => t.code[k]? with
  | some instr => .ok instr
  | none => .error .outOfRange

/-- One step; false when there is nothing left to do. -/
def step (image : Image) (debug : Bool) : Exec Bool := do
  match (← get).frames with
  | [] => return false
  | f :: _ =>
    if ← attempt (f.pc.less (.int f.template.code.size)) then
      let i ← attempt (fetch f.template f.pc)
      jump (← attempt (f.pc.add (.int 1)))
      if debug then trace i
      exec image i
      return true
    else return false

/-- Steps until there is nothing left to do, `fuel` at most. -/
def loop (image : Image) (debug : Bool) : Nat → Exec Unit
  | 0 => throw (.crash .exhausted)
  | fuel + 1 => do
    if ← step image debug then loop image debug fuel

/-- Enters the main function on top of the calls that are in progress. -/
def start (image : Image) : Exec Unit := do
  match image.get? "main" with
  | some t => modify fun m => { m with frames := Frame.enter t :: m.frames }
  | none => complain .noMain

def run (image : Image) (debug : Bool) (fuel : Nat) : Exec Unit := do
  start image
  loop image debug fuel

/-- A complaint about the instruction that a frame executed last. -/
def complaint (text : String) (frame : Option Frame) : Except Crash MachineError :=
  match frame with
  | none => .ok (.reported text)
  | some f => do
    let pc ← f.pc.sub (.int 1)
    let i ← fetch f.template pc
    return .reported s!"{text} (in {f.template.name} at {← pc.render}: {← i.render})"

end Machine
end StackLang
