import StackLang.Proofs.Storage

namespace StackLang

/-- Operations that look at objects or make some. -/
def Op.onObjects : Op → Bool
  | length | allocStruct | setField _ | getField _ | allocArray | setItem | getItem => true
  | _ => false

/-- The machine with its objects in two tables and a counter. -/
structure Engine where
  store : Store
  frames : List Frame
  input : List Char
  output : String

namespace Engine

abbrev Run := EStateM Failure Engine

def empty : Engine := ⟨⟨∅, ∅, 2024⟩, [], [], ""⟩

/-- A computation that has nothing to do with objects. -/
def lift {α : Type} (x : Exec α) : Run α := fun e =>
  onState (fun m => { e with frames := m.frames, input := m.input, output := m.output })
    (x ⟨.empty, e.frames, e.input, e.output⟩)

def takeId : Run Value := do
  let e ← get
  set { e with store.nextId := e.store.nextId + 1 }
  return .int e.store.nextId

def onStructs (f : Table Key Fields → Table Key Fields) : Run Unit :=
  modify fun e => { e with store.structs := f e.store.structs }

def onArrays (f : Table Key (Array Value) → Table Key (Array Value)) : Run Unit :=
  modify fun e => { e with store.arrays := f e.store.arrays }

def length : Run Unit := do
  match ← lift Machine.pop with
  | .text s => lift (Machine.push (.int s.length))
  | .absent => lift (Machine.complain .lengthOfAbsent)
  | v =>
    let items ← lift (Machine.found ((← get).store.arrays.get? ⟨v⟩))
    lift (Machine.push (.int items.size))

def allocStruct : Run Unit := do
  let id ← takeId
  onStructs (·.put ⟨id⟩ ⟨[]⟩)
  lift (Machine.push id)

def setField (field : Value) : Run Unit := do
  let value ← lift Machine.pop
  if value = .absent then lift (Machine.complain .fieldValueAbsent)
  let owner ← lift Machine.pop
  if owner = .absent then lift (Machine.complain .fieldOwnerAbsent)
  let fields ← lift (Machine.found ((← get).store.structs.get? ⟨owner⟩))
  onStructs (·.put ⟨owner⟩ (fields.put ⟨field⟩ value))

def getField (field : Value) : Run Unit := do
  let owner ← lift Machine.pop
  if owner = .absent then lift (Machine.complain .fieldOfAbsent)
  let fields ← lift (Machine.found ((← get).store.structs.get? ⟨owner⟩))
  lift (do Machine.push (← Machine.found (fields.get? ⟨field⟩)))

/-- The number of the array is taken before its length is looked at. -/
def allocArray : Run Unit := do
  let id ← takeId
  let n ← lift Machine.pop
  if n = .absent then lift (Machine.complain .badArrayLength)
  if ← lift (Machine.attempt (n.less (.int 0))) then lift (Machine.complain .badArrayLength)
  let size := (← lift (Machine.attempt n.position)).toNat
  onArrays (·.put ⟨id⟩ (Array.replicate size Value.null))
  lift (Machine.push id)

def setItem : Run Unit := do
  let value ← lift Machine.pop
  let i ← lift Machine.pop
  let owner ← lift Machine.pop
  if i = .absent ∨ owner = .absent then lift (Machine.complain .setItemAbsent)
  let items ← lift (Machine.found ((← get).store.arrays.get? ⟨owner⟩))
  let k ← lift (Machine.itemIndex items.size i .setItemOutOfRange)
  onArrays (·.put ⟨owner⟩ (items.setIfInBounds k value))

def getItem : Run Unit := do
  let i ← lift Machine.pop
  let owner ← lift Machine.pop
  if i = .absent ∨ owner = .absent then lift (Machine.complain .getItemAbsent)
  let items ← lift (Machine.found ((← get).store.arrays.get? ⟨owner⟩))
  let k ← lift (Machine.itemIndex items.size i .getItemOutOfRange)
  match items[k]? with
  | some v => lift (Machine.push v)
  | none => throw (.crash .outOfRange)

def exec (image : Image) (i : Instr) : Run Unit :=
  match i.op with
  | .length => length
  | .allocStruct => allocStruct
  | .setField field => setField field
  | .getField field => getField field
  | .allocArray => allocArray
  | .setItem => setItem
  | .getItem => getItem
  | _ => lift (Machine.exec image i)

def step (image : Image) (debug : Bool) : Run Bool := do
  match (← get).frames with
  | [] => return false
  | f :: _ =>
    if ← lift (Machine.attempt (f.pc.less (.int f.template.code.size))) then
      let i ← lift (Machine.attempt (Machine.fetch f.template f.pc))
      lift (Machine.jump (← lift (Machine.attempt (f.pc.add (.int 1)))))
      if debug then lift (Machine.trace i)
      exec image i
      return true
    else return false

def loop (image : Image) (debug : Bool) : Nat → Run Unit
  | 0 => throw (.crash .exhausted)
  | fuel + 1 => do
    if ← step image debug then loop image debug fuel

def run (image : Image) (debug : Bool) (fuel : Nat) : Run Unit := do
  lift (Machine.start image)
  loop image debug fuel

end Engine

namespace Machine

/-- Computations that have nothing to do with objects. -/
def Heapless {α : Type} (x : Exec α) : Prop := ∀ h, Blind (.objects h) x

namespace Heapless

variable {α β : Type}

theorem bind {x : Exec α} {f : α → Exec β} (hx : Heapless x) (hf : ∀ a, Heapless (f a)) :
    Heapless (x >>= f) := fun h => (hx h).bind fun a => hf a h

theorem eq {x : Exec α} (hx : Heapless x) (m : Machine) (h : Heap) :
    x { m with heap := h } = onState (fun m' => { m' with heap := h }) (x m) := by
  have hblind := hx h m
  rwa [Veil.cover_objects] at hblind

theorem onFrames {f : List Frame → List Frame} :
    Heapless (modify fun m => { m with frames := f m.frames } : Exec Unit) := by
  intro h m
  rw [Veil.cover_objects]
  rfl

theorem jump (target : Value) : Heapless (Machine.jump target) := fun _ => .onFrame fun _ => rfl

theorem passArguments (n : Nat) : Heapless (Machine.passArguments n) := by
  induction n with
  | zero => exact fun _ => .pure ()
  | succ n ih =>
    rintro h ⟨heap, _ | ⟨callee, _ | ⟨caller, rest⟩⟩, input, output⟩
    · rfl
    · rfl
    · obtain ⟨t, pc, vars, _ | ⟨v, stack⟩⟩ := caller
      · rfl
      · exact ih h ⟨heap, { callee with stack := v :: callee.stack } ::
          ⟨t, pc, vars, stack⟩ :: rest, input, output⟩

theorem call (image : Image) (function : Value) : Heapless (Machine.call image function) :=
  .bind (fun _ => .found _) fun _ => .bind onFrames fun _ => passArguments _

theorem ret : Heapless Machine.ret :=
  .bind (fun _ => .pop) fun _ => .bind onFrames fun _ _ => .push _

theorem printLine (label : String) (text : Except Crash String) :
    Heapless (Machine.printLine label text) :=
  .bind (fun _ => .print _) fun _ => .bind (fun _ => .attempt _) fun _ _ => .print _

theorem trace (i : Instr) : Heapless (Machine.trace i) := by
  intro h
  refine .frame (fun _ => rfl) fun f => .bind (.print _) fun _ => ?_
  exact .bind (printLine _ _ h) fun _ => .bind (printLine _ _ h) fun _ =>
    .bind (printLine _ _ h) fun _ => .bind (printLine _ _ h) fun _ => printLine _ _ h

theorem start (image : Image) : Heapless (Machine.start image) := by
  unfold Machine.start
  cases image.get? "main" with
  | some t => exact onFrames
  | none => exact fun _ => .complain _

end Heapless

theorem Heapless.exec (image : Image) {i : Instr} (h : i.op.onObjects = false) :
    Heapless (Machine.exec image i) := by
  obtain ⟨op, comment⟩ := i
  cases op with
  | jump target => exact .jump target
  | jumpFalse target =>
    exact .bind (fun _ => .pop) fun _ heap => .ite (Heapless.jump target heap) (.pure ())
  | call function => exact .call image function
  | ret => exact .ret
  | length | allocStruct | setField | getField | allocArray | setItem | getItem => cases h
  | _ => exact fun _ => .exec image rfl

end Machine

namespace Engine

/-- The engine with the objects of a machine. -/
def ofMachine (m : Machine) : Engine := ⟨.ofHeap m.heap, m.frames, m.input, m.output⟩

/-- From a machine with the given heap a computation of the engine does what one of the machine
does. -/
def Mirrors {α : Type} (h : Heap) (y : Run α) (x : Exec α) : Prop :=
  ∀ m, m.heap = h → y (ofMachine m) = onState ofMachine (x m)

theorem onState_heapless {α : Type} {x : Exec α} (hx : Machine.Heapless x) (m : Machine) :
    x m = onState (fun m' => { m' with heap := m.heap }) (x m) := hx.eq m m.heap

theorem heap_of_heapless {α : Type} {x : Exec α} (hx : Machine.Heapless x) {m m' : Machine} {a : α}
    (h : x m = .ok a m') : m'.heap = m.heap := by
  have hstate := onState_heapless hx m
  rw [h] at hstate
  injection hstate with _ hstate
  exact (congrArg Machine.heap hstate).trans rfl

theorem lift_ofMachine {α : Type} {x : Exec α} (hx : Machine.Heapless x) (m : Machine) :
    lift x (ofMachine m) = onState ofMachine (x m) := by
  have hempty : x ⟨.empty, m.frames, m.input, m.output⟩ =
      onState (fun m' => { m' with heap := .empty }) (x m) := hx.eq m .empty
  rw [onState_heapless hx m, lift]
  simp only [ofMachine, hempty]
  cases x m <;> rfl

namespace Mirrors

variable {α β : Type} {h : Heap}

protected theorem pure (a : α) : Mirrors h (pure a) (pure a) := fun _ _ => rfl

protected theorem throw (e : Failure) : Mirrors h (throw e : Run α) (throw e) := fun _ _ => rfl

protected theorem lift {x : Exec α} (hx : Machine.Heapless x) : Mirrors h (lift x) x :=
  fun m _ => lift_ofMachine hx m

theorem bind {x : Exec α} {f : α → Exec β} {g : α → Run β} (hx : Machine.Heapless x)
    (hf : ∀ a, Mirrors h (g a) (f a)) : Mirrors h (lift x >>= g) (x >>= f) := by
  intro m hm
  simp only [Bind.bind, EStateM.bind, lift_ofMachine hx m]
  cases hres : x m with
  | ok a m' => exact hf a m' ((heap_of_heapless hx hres).trans hm)
  | error e m' => rfl

theorem ite {c : Prop} [Decidable c] {x x' : Exec α} {y y' : Run α} (h₁ : Mirrors h y x)
    (h₂ : Mirrors h y' x') : Mirrors h (if c then y else y') (if c then x else x') := by
  split
  · exact h₁
  · exact h₂

theorem check {c : Prop} [Decidable c] {x : Exec α} {y : Run α} (e : MachineError)
    (hx : Mirrors h y x) : Mirrors h (if c then do lift (Machine.complain e); y else y)
      (if c then do Machine.complain e; x else x) :=
  .ite (.bind (fun _ => .complain e) fun _ => hx) hx

theorem search {q : Heap → Option α} {r : Store → Option α} {f : α → Exec β} {g : α → Run β}
    (hq : r (.ofHeap h) = q h) (hf : ∀ a, q h = some a → Mirrors h (g a) (f a)) :
    Mirrors h (do g (← lift (Machine.found (r (← get).store))))
      (do f (← Machine.found (q (← get).heap))) := by
  rintro m rfl
  have hengine : (do g (← lift (Machine.found (r (← get).store))) : Run β) (ofMachine m) =
      (lift (Machine.found (r (.ofHeap m.heap))) >>= g) (ofMachine m) := rfl
  have hmachine : (do f (← Machine.found (q (← get).heap)) : Exec β) m =
      (Machine.found (q m.heap) >>= f) m := rfl
  rw [hengine, hmachine, hq]
  cases hfound : q m.heap with
  | none => rfl
  | some a => exact hf a hfound m rfl

theorem onStructs {k : Table Key Fields → Table Key Fields} {q : Heap → Heap}
    (hk : .ofHeap (q h) = { Store.ofHeap h with structs := k (Store.ofHeap h).structs }) :
    Mirrors h (Engine.onStructs k) (modify fun m => { m with heap := q m.heap }) := by
  rintro m rfl
  exact congrArg (fun s => EStateM.Result.ok () (Engine.mk s m.frames m.input m.output)) hk.symm

theorem onArrays {k : Table Key (Array Value) → Table Key (Array Value)} {q : Heap → Heap}
    (hk : .ofHeap (q h) = { Store.ofHeap h with arrays := k (Store.ofHeap h).arrays }) :
    Mirrors h (Engine.onArrays k) (modify fun m => { m with heap := q m.heap }) := by
  rintro m rfl
  exact congrArg (fun s => EStateM.Result.ok () (Engine.mk s m.frames m.input m.output)) hk.symm

theorem pop {f : Value → Exec β} {g : Value → Run β} (hf : ∀ v, Mirrors h (g v) (f v)) :
    Mirrors h (Engine.lift Machine.pop >>= g) (Machine.pop >>= f) := .bind (fun _ => .pop) hf

theorem push (v : Value) : Mirrors h (Engine.lift (Machine.push v)) (Machine.push v) :=
  .lift fun _ => .push v

theorem length : Mirrors h Engine.length Machine.length := by
  refine .pop fun x => ?_
  have hsize : Mirrors h
      (do
        let items ← Engine.lift (Machine.found ((← get).store.arrays.get? ⟨x⟩))
        Engine.lift (Machine.push (.int items.size)))
      (do Machine.push (.int (← Machine.found ((← get).heap.array? x)).size)) :=
    search (r := fun s => s.arrays.get? ⟨x⟩) (q := fun h => h.array? x) (Store.get?_arrays h x)
      fun _ _ => push _
  cases x with
  | text s => exact push _
  | absent => exact .lift fun _ => .complain _
  | _ => exact hsize

theorem setField (field : Value) : Mirrors h (Engine.setField field) (Machine.setField field) :=
  .pop fun _ => .check _ (.pop fun owner => .check _
    (search (r := fun s => s.structs.get? ⟨owner⟩) (q := fun h => h.record? owner)
      (Store.get?_structs h owner) fun _ hfields =>
        onStructs (q := fun h => h.replace owner _) (Store.ofHeap_replace_record hfields _)))

theorem getField (field : Value) : Mirrors h (Engine.getField field) (Machine.getField field) :=
  .pop fun owner => .check _
    (search (r := fun s => s.structs.get? ⟨owner⟩) (q := fun h => h.record? owner)
      (Store.get?_structs h owner) fun _ _ => .lift fun _ => .bind (.found _) .push)

theorem setItem : Mirrors h Engine.setItem Machine.setItem :=
  .pop fun _ => .pop fun i => .pop fun owner => .check _
    (search (r := fun s => s.arrays.get? ⟨owner⟩) (q := fun h => h.array? owner)
      (Store.get?_arrays h owner) fun _ hitems => .bind (fun _ => .itemIndex _ i _) fun _ =>
        onArrays (q := fun h => h.replace owner _) (Store.ofHeap_replace_array hitems _))

theorem getItem : Mirrors h Engine.getItem Machine.getItem := by
  refine .pop fun i => .pop fun owner => .check _
    (search (r := fun s => s.arrays.get? ⟨owner⟩) (q := fun h => h.array? owner)
      (Store.get?_arrays h owner) fun items _ => .bind (fun _ => .itemIndex _ i _) fun k => ?_)
  cases items[k]? with
  | some v => exact push v
  | none => exact .throw _

theorem next {x : Exec α} {y : Run α} {f : α → Exec β} {g : α → Run β} (h' : Heap) (a : α)
    (hx : Mirrors h y x) (hok : ∀ m, m.heap = h → ∃ m', x m = .ok a m' ∧ m'.heap = h')
    (hf : Mirrors h' (g a) (f a)) : Mirrors h (y >>= g) (x >>= f) := by
  intro m hm
  obtain ⟨m', hm', hheap⟩ := hok m hm
  simp only [Bind.bind, EStateM.bind, hx m hm, hm']
  exact hf m' hheap

theorem takeId : Mirrors h Engine.takeId (Machine.allocate .missing) := by
  rintro m rfl
  exact congrArg (fun s => EStateM.Result.ok _ (Engine.mk s m.frames m.input m.output))
    (Store.ofHeap_missing m.heap).symm

theorem allocStruct : Mirrors h Engine.allocStruct
    (do Machine.push (← Machine.allocate (.record ⟨[]⟩))) := by
  rintro m rfl
  have hpush := push (h := m.heap.alloc (.record ⟨[]⟩)) (.int m.heap.nextId)
    { m with heap := m.heap.alloc (.record ⟨[]⟩) } rfl
  rw [ofMachine] at hpush
  simp only [Store.ofHeap_record] at hpush
  exact hpush

theorem allocArray : Mirrors h Engine.allocArray Machine.allocArray := by
  have htaken (m : Machine) (hm : m.heap = h) : ∃ m',
      Machine.allocate .missing m = .ok (.int h.nextId) m' ∧ m'.heap = h.alloc .missing := by
    subst hm
    exact ⟨_, rfl, rfl⟩
  refine next _ _ takeId htaken ?_
  refine .pop fun n => .check _ (.bind (fun _ => .attempt _) fun _ => .check _
    (.bind (fun _ => .attempt _) fun k => ?_))
  have hstore : .ofHeap ((h.alloc .missing).fill (.array (Array.replicate k.toNat Value.null))) =
      { Store.ofHeap (h.alloc .missing) with
        arrays := (Store.ofHeap (h.alloc .missing)).arrays.put ⟨.int h.nextId⟩
          (Array.replicate k.toNat Value.null) } := by
    rw [Heap.fill_alloc, Store.ofHeap_array, Store.ofHeap_missing]
  refine next ((h.alloc .missing).fill (.array (Array.replicate k.toNat Value.null))) ()
    (onArrays (q := fun h => h.fill (.array (Array.replicate k.toNat Value.null))) hstore) ?_ (push _)
  rintro m hm
  exact ⟨_, rfl, congrArg (Heap.fill · _) hm⟩

end Mirrors

theorem exec_mirrors (image : Image) (i : Instr) (h : Heap) :
    Mirrors h (exec image i) (Machine.exec image i) := by
  obtain ⟨op, comment⟩ := i
  cases op with
  | length => exact .length
  | allocStruct => exact .allocStruct
  | setField field => exact .setField field
  | getField field => exact .getField field
  | allocArray => exact .allocArray
  | setItem => exact .setItem
  | getItem => exact .getItem
  | _ => exact .lift (.exec image rfl)

theorem step_ofMachine (image : Image) (debug : Bool) (m : Machine) :
    step image debug (ofMachine m) = onState ofMachine (Machine.step image debug m) := by
  obtain ⟨heap, _ | ⟨f, rest⟩, input, output⟩ := m
  · rfl
  · have hexec (i : Instr) : Mirrors heap (do exec image i; return true)
        (do Machine.exec image i; return true) := by
      intro m hm
      simp only [bind, EStateM.bind, exec_mirrors image i heap m hm]
      cases Machine.exec image i m <;> rfl
    have hbody : Mirrors heap
        (do
          if ← lift (Machine.attempt (f.pc.less (.int f.template.code.size))) then
            let i ← lift (Machine.attempt (Machine.fetch f.template f.pc))
            lift (Machine.jump (← lift (Machine.attempt (f.pc.add (.int 1)))))
            if debug then lift (Machine.trace i)
            exec image i
            return true
          else return false)
        (do
          if ← Machine.attempt (f.pc.less (.int f.template.code.size)) then
            let i ← Machine.attempt (Machine.fetch f.template f.pc)
            Machine.jump (← Machine.attempt (f.pc.add (.int 1)))
            if debug then Machine.trace i
            Machine.exec image i
            return true
          else return false) := by
      refine .bind (fun _ => .attempt _) fun _ => .ite ?_ (.pure false)
      refine .bind (fun _ => .attempt _) fun i => .bind (fun _ => .attempt _) fun _ => ?_
      exact .bind (.jump _) fun _ => .ite (.bind (.trace i) fun _ => hexec i) (hexec i)
    exact hbody ⟨heap, f :: rest, input, output⟩ rfl

theorem loop_ofMachine (image : Image) (debug : Bool) (fuel : Nat) (m : Machine) :
    loop image debug fuel (ofMachine m) =
      onState ofMachine (Machine.loop image debug fuel m) := by
  induction fuel generalizing m with
  | zero => rfl
  | succ fuel ih =>
    simp only [loop, Machine.loop, bind, EStateM.bind, step_ofMachine]
    cases Machine.step image debug m with
    | error e m' => rfl
    | ok b m' =>
      cases b with
      | true => exact ih m'
      | false => rfl

theorem run_ofMachine (image : Image) (debug : Bool) (fuel : Nat) (m : Machine) :
    run image debug fuel (ofMachine m) =
      onState ofMachine (Machine.run image debug fuel m) := by
  simp only [run, Machine.run, bind, EStateM.bind, lift_ofMachine (Machine.Heapless.start image)]
  cases Machine.start image m with
  | error e m' => rfl
  | ok a m' => exact loop_ofMachine image debug fuel m'

/-- What can happen next to an engine, as to a machine. -/
inductive Onward (images : Image → Prop) : Engine → Engine → Prop
  | renew (e : Engine) (input : List Char) : Onward images e { e with input, output := "" }
  | start {image : Image} {e e' : Engine} : images image →
      lift (Machine.start image) e = .ok () e' → Onward images e e'
  | step {image : Image} {debug b : Bool} {e e' : Engine} : images image →
      step image debug e = .ok b e' → Onward images e e'
  | fail {image : Image} {debug : Bool} {c : Failure} {e e' : Engine} : images image →
      step image debug e = .error c e' → Onward images e e'

abbrev Reaches (images : Image → Prop) : Engine → Engine → Prop :=
  Relation.ReflTransGen (Onward images)

variable {images : Image → Prop} {m m' : Machine} {e e' : Engine}

theorem onward_ofMachine (h : Onward images (ofMachine m) e') :
    ∃ m', e' = ofMachine m' ∧ Machine.Onward images m m' := by
  generalize he : ofMachine m = e at h
  cases h with
  | renew _ input =>
    subst he
    exact ⟨{ m with input, output := "" }, rfl, .renew m input⟩
  | start himage hstart =>
    rw [← he, lift_ofMachine (.start _)] at hstart
    obtain ⟨m', hm, rfl⟩ := onState_eq_ok.1 hstart
    exact ⟨m', rfl, .start himage hm⟩
  | step himage hstep =>
    rw [← he, step_ofMachine] at hstep
    obtain ⟨m', hm, rfl⟩ := onState_eq_ok.1 hstep
    exact ⟨m', rfl, .step himage hm⟩
  | fail himage hstep =>
    rw [← he, step_ofMachine] at hstep
    obtain ⟨m', hm, rfl⟩ := onState_eq_error.1 hstep
    exact ⟨m', rfl, .fail himage hm⟩

theorem onward_of_machine (h : Machine.Onward images m m') :
    Onward images (ofMachine m) (ofMachine m') := by
  cases h with
  | renew _ input => exact .renew _ input
  | start himage hstart =>
    exact .start himage ((lift_ofMachine (.start _) m).trans (congrArg _ hstart))
  | step himage hstep => exact .step himage ((step_ofMachine _ _ m).trans (congrArg _ hstep))
  | fail himage hstep => exact .fail himage ((step_ofMachine _ _ m).trans (congrArg _ hstep))

theorem reaches_ofMachine : Reaches images (ofMachine m) e ↔
    ∃ m', e = ofMachine m' ∧ Machine.Reaches images m m' := by
  constructor
  · intro h
    induction h with
    | refl => exact ⟨m, rfl, .refl⟩
    | tail _ hnext ih =>
      obtain ⟨m₁, rfl, hm₁⟩ := ih
      obtain ⟨m₂, rfl, hm₂⟩ := onward_ofMachine hnext
      exact ⟨m₂, rfl, hm₁.tail hm₂⟩
  · rintro ⟨m', rfl, h⟩
    induction h with
    | refl => exact .refl
    | tail _ hnext ih => exact ih.tail (onward_of_machine hnext)

theorem reaches_of_run {image : Image} (himage : images image) {debug : Bool} {fuel : Nat}
    {c : Failure} (h : run image debug fuel (ofMachine m) = .error c e) :
    Reaches images (ofMachine m) e := by
  rw [run_ofMachine] at h
  obtain ⟨m', hm', rfl⟩ := onState_eq_error.1 h
  have hrun : Machine.Keeps (Machine.Reaches images m) (fun _ => True)
      (Machine.run image debug fuel) fun _ => True := Machine.reaches_run himage fuel
  exact reaches_ofMachine.2 ⟨m', rfl, (hrun.error .refl hm').1⟩

/-- Whatever is run, the numbers of objects are different ones out of those that were taken, objects
stay what they are, and an object that is made gets a number that no earlier one has. -/
theorem reaches_store {images : Image → Prop} {e e' : Engine} (he : Reaches images .empty e)
    (he' : Reaches images e e') :
    e.store.Consistent ∧ e.store.Enlarged e'.store ∧
      ∀ image debug e'' f rest i, e'.frames = f :: rest → f.next? = some i →
        step image debug e' = .ok true e'' →
        (i.op = .allocStruct → ∃ g : Frame, e''.frames = g :: rest ∧
          g.stack = .int e'.store.nextId :: f.stack ∧
          ⟨.int e'.store.nextId⟩ ∉ e.store.keys ∧
          ⟨.int e'.store.nextId⟩ ∈ e''.store.structs.keys) ∧
        (i.op = .allocArray → ∃ (g : Frame) (n : Value) (stack : List Value) (items : Array Value),
          e''.frames = g :: rest ∧ f.stack = n :: stack ∧
          g.stack = .int e'.store.nextId :: stack ∧
          ⟨.int e'.store.nextId⟩ ∉ e.store.keys ∧
          (⟨.int e'.store.nextId⟩, items) ∈ e''.store.arrays.entries ∧
          n.position = .ok items.size) := by
  obtain ⟨m, rfl, -⟩ := (reaches_ofMachine (m := .empty)).1 he
  obtain ⟨m', rfl, hm'⟩ := reaches_ofMachine.1 he'
  have hext := Machine.extends_of_reaches hm'
  refine ⟨Store.consistent_ofHeap _, Store.enlarged_ofHeap hext, ?_⟩
  rintro image debug e'' f rest ⟨op, comment⟩ hframes hi hstep
  rw [step_ofMachine] at hstep
  obtain ⟨m'', hm'', rfl⟩ := onState_eq_ok.1 hstep
  obtain ⟨k, hk⟩ := Frame.add_one_of_next? hi
  obtain ⟨output, hexec⟩ := Machine.exec_of_step hframes hi hk hm''
  constructor
  · rintro rfl
    obtain rfl := Machine.exec_allocStruct rfl hexec
    refine ⟨_, rfl, rfl, Store.nextId_notMem hext, ?_⟩
    exact Store.mem_structs.2 ⟨m'.heap.objects.size, rfl, by simp [Heap.kind?_alloc, Object.kind?]⟩
  · rintro rfl
    obtain ⟨n, stack, size, hstack, hsize, rfl⟩ := Machine.exec_allocArray rfl hexec
    obtain ⟨items, hitems, hitems'⟩ := Store.mem_arrays.2 ⟨m'.heap.objects.size, rfl,
      show (m'.heap.alloc (.array (Array.replicate size Value.null))).kind? _ = some (.array size) by
        simp [Heap.kind?_alloc, Object.kind?]⟩
    exact ⟨_, n, stack, items, rfl, hstack, rfl, Store.nextId_notMem hext, hitems,
      by rw [hsize, hitems']⟩

/-- A first run makes a struct and fails when it has taken the number of an array. A second run, on
top of what is left, makes an array of two items. -/
theorem reaches_store_of_failure :
    let failing : Template := ⟨"main", 0, #[.plain .allocStruct, .plain (.push (.int (-1))),
      .plain .allocArray]⟩
    let pair : Template := ⟨"main", 0, #[.plain (.push (.int 2)), .plain .allocArray]⟩
    let left : Frame := ⟨failing, .int 3, [], [.int 2024]⟩
    let e : Engine := ⟨⟨⟨[(⟨.int 2024⟩, ⟨[]⟩)]⟩, ∅, 2026⟩, [left], [], ""⟩
    let e' : Engine := { e with frames := [⟨pair, .int 1, [], [.int 2]⟩, left] }
    run (Image.empty.install failing) false 9 .empty = .error (.machine .badArrayLength) e ∧
      run (Image.empty.install pair) false 1 e = .error (.crash .exhausted) e' ∧
      ∃ (e'' : Engine) (items : Array Value),
        step (Image.empty.install pair) false e' = .ok true e'' ∧
        (∃ g : Frame, e''.frames = [g, left] ∧ g.stack = [.int 2026]) ∧
        (⟨.int 2026⟩, items) ∈ e''.store.arrays.entries ∧ items.size = 2 := by
  intro failing pair left e e'
  let m : Machine := ⟨⟨#[.record ⟨[]⟩, .missing]⟩, [left], [], ""⟩
  have hfails : run (Image.empty.install failing) false 9 (ofMachine .empty) =
      .error (.machine .badArrayLength) (ofMachine m) := run_ofMachine _ _ _ _
  have hstops : run (Image.empty.install pair) false 1 (ofMachine m) =
      .error (.crash .exhausted) e' := run_ofMachine _ _ _ _
  refine ⟨hfails, hstops, ?_⟩
  have hfirst : Reaches (fun _ => True) .empty (ofMachine m) := reaches_of_run trivial hfails
  obtain ⟨-, -, hmade⟩ := reaches_store hfirst (reaches_of_run trivial hstops)
  have hnext : step (Image.empty.install pair) false e' = .ok true _ :=
    step_ofMachine _ _ { m with frames := [⟨pair, .int 1, [], [.int 2]⟩, left] }
  obtain ⟨g, n, stack, items, hframes, hstack, hg, -, hmem, hsize⟩ :=
    (hmade (Image.empty.install pair) false _ _ _ ⟨.allocArray, ""⟩ rfl rfl hnext).2 rfl
  cases hstack
  have hitems : (2 : Int) = items.size := Except.ok.inj hsize
  exact ⟨_, items, hnext, ⟨g, hframes, hg⟩, hmem, by omega⟩

end Engine

end StackLang
