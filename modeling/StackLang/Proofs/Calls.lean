import StackLang.Proofs.Reaching

namespace StackLang

def Op.jumps : Op → Bool
  | jump _ | jumpFalse _ => true
  | _ => false

def Op.passes : Op → Bool
  | jump _ | ret => false
  | _ => true

theorem Op.passes_of_sequential {op : Op} (h : op.sequential) : op.passes := by
  cases op with
  | jump | ret => cases h
  | _ => rfl

namespace Machine

def receive (v : Value) : List Frame → List Frame
  | [] => []
  | f :: rest => { f with stack := v :: f.stack } :: rest

/-- What the calls in progress can become when `f` executes an instruction on top of `rest`. -/
inductive Transit (image : Image) (f : Frame) (i : Instr) (rest : List Frame) : List Frame → Prop
  | stay {pc : Value} {vars stack : List Value} :
      (i.op.passes ∧ f.pc.add (.int 1) = .ok pc) ∨ (i.op.jumps ∧ i.op.operand = pc) →
      Transit image f i rest ({ f with pc, locals := vars, stack } :: rest)
  | enter {name : String} {pc : Value} {stack args : List Value} {t : Template} :
      i.op = .call (.text name) → f.pc.add (.int 1) = .ok pc → image.get? name = some t →
      Transit image f i rest (⟨t, .int 0, [], args⟩ :: { f with pc, stack } :: rest)
  | leave {v : Value} {stack : List Value} : i.op = .ret → f.stack = v :: stack →
      Transit image f i rest (receive v rest)

section Exec

variable {image : Image} {m m' : Machine} {f : Frame} {rest : List Frame} {i : Instr}

/-- The innermost call goes on at the same place, on top of the same calls. -/
def Located (t : Template) (pc : Value) (rest : List Frame) (m : Machine) : Prop :=
  ∃ vars stack, m.frames = ⟨t, pc, vars, stack⟩ :: rest

theorem located_stable (t : Template) (pc : Value) (rest : List Frame) :
    Stable (fun _ => True) (Located t pc rest) where
  operands _ _ _ _ := trivial
  locals _ _ _ _ := trivial
  work := by
    rintro m f rest' vars stack ⟨vars', stack', hm⟩ hf - -
    obtain ⟨rfl, rfl⟩ := List.cons.inj (hm.symm.trans hf)
    exact ⟨vars, stack, rfl⟩
  talk _ _ h := h
  objects _ o _ := by cases o <;> simp [Object.All]
  alter h _ := h

theorem exec_sequential (hi : i.op.sequential) (hm : m.frames = f :: rest)
    (h : exec image i m = .ok () m') :
    ∃ vars stack, m'.frames = { f with locals := vars, stack } :: rest :=
  (((located_stable f.template f.pc rest).exec admits_all image hi fun _ _ => trivial).ok
    ⟨f.locals, f.stack, hm⟩ h).1

theorem jump_eq (hm : m.frames = f :: rest) (target : Value) :
    jump target m = .ok () { m with frames := { f with pc := target } :: rest } := by
  obtain ⟨heap, frames, input, output⟩ := m
  cases hm
  rfl

theorem exec_jumpFalse_frames {target : Value} {comment : String} (hm : m.frames = f :: rest)
    (h : exec image ⟨.jumpFalse target, comment⟩ m = .ok () m') :
    ∃ pc vars stack, m'.frames = { f with pc, locals := vars, stack } :: rest ∧
      (pc = f.pc ∨ pc = target) := by
  obtain ⟨x, m₁, hpop, h⟩ := bind_eq_ok.1 h
  obtain ⟨vars, stack, hm₁⟩ := (((located_stable f.template f.pc rest).pop admits_all).ok
    ⟨f.locals, f.stack, hm⟩ hpop).1
  by_cases hx : !x.truthy || x = .text "false"
  · rw [if_pos hx, jump_eq hm₁] at h
    cases h
    exact ⟨target, vars, stack, rfl, .inr rfl⟩
  · rw [if_neg hx] at h
    cases h
    exact ⟨f.pc, vars, stack, hm₁, .inl rfl⟩

theorem passArguments_eq_ok {callee caller : Frame} {n : Nat}
    (hm : m.frames = callee :: caller :: rest) :
    passArguments n m = .ok () m' ↔ n ≤ caller.stack.length ∧ m' = { m with
      frames := { callee with stack := (caller.stack.take n).reverse ++ callee.stack } ::
        { caller with stack := caller.stack.drop n } :: rest } := by
  induction n generalizing m callee caller with
  | zero =>
    obtain ⟨heap, frames, input, output⟩ := m
    cases hm
    simp only [passArguments, pure, EStateM.pure]
    simp [eq_comm]
  | succ n ih =>
    obtain ⟨heap, frames, input, output⟩ := m
    cases hm
    have hget (m : Machine) : (get : Exec Machine) m = .ok m m := rfl
    cases hstack : caller.stack with
    | nil =>
      have hfail : passArguments (n + 1) ⟨heap, callee :: caller :: rest, input, output⟩ =
          .error (.crash .outOfRange) ⟨heap, callee :: caller :: rest, input, output⟩ := by
        simp only [passArguments, bind, EStateM.bind, hget, hstack]
        rfl
      rw [hfail]
      simp
    | cons v stack =>
      have hnext : passArguments (n + 1) ⟨heap, callee :: caller :: rest, input, output⟩ =
          passArguments n ⟨heap, { callee with stack := v :: callee.stack } ::
            { caller with stack } :: rest, input, output⟩ := by
        simp only [passArguments, bind, EStateM.bind, hget, hstack]
        rfl
      rw [hnext, ih rfl]
      simp

theorem call_eq_ok {name : String} {t : Template} (hm : m.frames = f :: rest)
    (ht : image.get? name = some t) :
    call image (.text name) m = .ok () m' ↔ t.arity.toNat ≤ f.stack.length ∧ m' = { m with
      frames := ⟨t, .int 0, [], (f.stack.take t.arity.toNat).reverse⟩ ::
        { f with stack := f.stack.drop t.arity.toNat } :: rest } := by
  have hcall : call image (.text name) m =
      passArguments t.arity.toNat { m with frames := .enter t :: m.frames } := by
    simp only [call, ht, found]
    rfl
  rw [hcall, passArguments_eq_ok (by rw [hm])]
  simp [Frame.enter]

theorem call_frames {function : Value} (hm : m.frames = f :: rest)
    (h : call image function m = .ok () m') :
    ∃ name t args stack, function = .text name ∧ image.get? name = some t ∧
      m'.frames = ⟨t, .int 0, [], args⟩ :: { f with stack } :: rest := by
  obtain ⟨t, m₁, hfound, -⟩ := bind_eq_ok.1 h
  cases function with
  | text name =>
    cases ht : image.get? name with
    | none =>
      simp only [ht] at hfound
      cases hfound
    | some t =>
      obtain ⟨-, rfl⟩ := (call_eq_ok hm ht).1 h
      exact ⟨name, t, _, _, rfl, ht, rfl⟩
  | _ => cases hfound

theorem ret_frames (hm : m.frames = f :: rest) (h : ret m = .ok () m') :
    ∃ v stack, f.stack = v :: stack ∧ m'.frames = receive v rest := by
  obtain ⟨heap, frames, input, output⟩ := m
  cases hm
  obtain ⟨t, pc, vars, _ | ⟨v, stack⟩⟩ := f
  · cases h
  · refine ⟨v, stack, rfl, ?_⟩
    cases h
    cases rest <;> rfl

theorem exec_transit {pc : Value} (hm : m.frames = { f with pc } :: rest)
    (hpc : f.pc.add (.int 1) = .ok pc) (h : exec image i m = .ok () m') :
    Transit image f i rest m'.frames := by
  by_cases hi : i.op.sequential
  · obtain ⟨vars, stack, hm'⟩ := exec_sequential hi hm h
    rw [hm']
    exact .stay (.inl ⟨Op.passes_of_sequential hi, hpc⟩)
  · obtain ⟨op, comment⟩ := i
    cases op with
    | jump target =>
      cases (jump_eq hm target).symm.trans h
      exact .stay (.inr ⟨rfl, rfl⟩)
    | jumpFalse target =>
      obtain ⟨pc', vars, stack, hm', rfl | rfl⟩ := exec_jumpFalse_frames hm h
      · rw [hm']
        exact .stay (.inl ⟨rfl, hpc⟩)
      · rw [hm']
        exact .stay (.inr ⟨rfl, rfl⟩)
    | call function =>
      obtain ⟨name, t, args, stack, rfl, ht, hm'⟩ := call_frames hm h
      rw [hm']
      exact .enter rfl hpc ht
    | ret =>
      obtain ⟨v, stack, hstack, hm'⟩ := ret_frames hm h
      rw [hm']
      exact .leave rfl hstack
    | _ => simp [Op.sequential] at hi

end Exec

/-- Computations that only print, and fail at nothing but a number that is too long for it. -/
def OnlyPrints (x : Exec Unit) : Prop :=
  ∀ m, ∃ output, x m = .ok () { m with output } ∨
    x m = .error (.crash .badNumeral) { m with output }

namespace OnlyPrints

theorem bind {x y : Exec Unit} (hx : OnlyPrints x) (hy : OnlyPrints y) : OnlyPrints (do x; y) := by
  intro m
  obtain ⟨output, hok | herror⟩ := hx m
  · obtain ⟨output', hy⟩ := hy { m with output }
    refine ⟨output', ?_⟩
    simpa only [Bind.bind, EStateM.bind, hok] using hy
  · exact ⟨output, .inr (bind_eq_error.2 (.inl herror))⟩

theorem line (label : String) (text : Except Crash String)
    (h : ∀ c, text = .error c → c = .badNumeral) : OnlyPrints (printLine label text) := by
  intro m
  cases text with
  | ok s => exact ⟨_, .inl rfl⟩
  | error c =>
    obtain rfl := h c rfl
    exact ⟨_, .inr rfl⟩

end OnlyPrints

theorem render_error {v : Value} {c : Crash} (h : v.render = .error c) : c = .badNumeral := by
  cases v with
  | int i =>
    cases htext : Numeral.ofInt? i <;> rw [Value.render, htext] at h <;> cases h
    rfl
  | _ => cases h

theorem render_instr_error {i : Instr} {c : Crash} (h : i.render = .error c) :
    c = .badNumeral := by
  unfold Instr.render at h
  cases htext : i.op.operandText with
  | ok s =>
    rw [htext] at h
    cases h
  | error c' =>
    rw [htext] at h
    cases h
    unfold Op.operandText at htext
    split at htext
    · cases htext
    · exact render_error htext

theorem trace_cases {m : Machine} {f : Frame} {rest : List Frame} (hm : m.frames = f :: rest)
    (i : Instr) : ∃ output, trace i m = .ok () { m with output } ∨
      trace i m = .error (.crash .badNumeral) { m with output } := by
  have hblank : OnlyPrints (print "\n\n") := fun m => ⟨_, .inl rfl⟩
  have hname (label : String) : OnlyPrints (printLine label (.ok f.template.name)) := .line _ _ nofun
  have hvalue (label : String) (v : Value) : OnlyPrints (printLine label v.render) :=
    .line _ _ fun _ => render_error
  have hinstr (label : String) : OnlyPrints (printLine label i.render) :=
    .line _ _ fun _ => render_instr_error
  have hlines := hblank.bind ((hname "\t FRAME.........:").bind
    ((hvalue "\t PC............:" f.pc).bind ((hinstr "\t INSTRUCTION...:").bind
      ((hvalue "\t NEXT OPERAND..:" (f.stack.head?.getD .absent)).bind
        (hname "\t NEXT FUNCTION..:")))))
  obtain ⟨heap, frames, input, output⟩ := m
  cases hm
  exact hlines _

section Step

variable {image : Image} {debug b : Bool} {m m' : Machine} {f : Frame} {rest : List Frame}
  {i : Instr}

theorem exec_of_step {pc : Value} (hm : m.frames = f :: rest) (hi : f.next? = some i)
    (hpc : f.pc.add (.int 1) = .ok pc) (h : step image debug m = .ok b m') :
    ∃ output, exec image i { m with frames := { f with pc } :: rest, output } = .ok () m' := by
  rw [step_next hm hi hpc] at h
  cases debug with
  | false =>
    obtain ⟨⟨⟩, m₁, hexec, hm₁⟩ := bind_eq_ok.1 h
    cases hm₁
    exact ⟨m.output, hexec⟩
  | true =>
    obtain ⟨⟨⟩, m₁, htrace, h⟩ := bind_eq_ok.1 h
    obtain ⟨⟨⟩, m₂, hexec, hm₂⟩ := bind_eq_ok.1 h
    cases hm₂
    obtain ⟨output, hok | herror⟩ :=
      trace_cases (m := { m with frames := { f with pc } :: rest }) rfl i
    · cases hok.symm.trans htrace
      exact ⟨output, hexec⟩
    · cases herror.symm.trans htrace

theorem exec_of_step_error {pc : Value} {e : MachineError} (hm : m.frames = f :: rest)
    (hi : f.next? = some i) (hpc : f.pc.add (.int 1) = .ok pc)
    (h : step image debug m = .error (.machine e) m') :
    ∃ output, exec image i { m with frames := { f with pc } :: rest, output } =
      .error (.machine e) m' := by
  rw [step_next hm hi hpc] at h
  cases debug with
  | false =>
    obtain hexec | ⟨⟨⟩, m₁, -, h⟩ := bind_eq_error.1 h
    · exact ⟨m.output, hexec⟩
    · cases h
  | true =>
    obtain ⟨output, hok | herror⟩ :=
      trace_cases (m := { m with frames := { f with pc } :: rest }) rfl i
    · obtain htrace | ⟨⟨⟩, m₁, htrace, h⟩ := bind_eq_error.1 h
      · cases hok.symm.trans htrace
      · cases hok.symm.trans htrace
        obtain hexec | ⟨⟨⟩, m₂, -, h⟩ := bind_eq_error.1 h
        · exact ⟨output, hexec⟩
        · cases h
    · cases (bind_eq_error.2 (.inl herror)).symm.trans h

theorem step_transit (h : step image debug m = .ok true m') :
    ∃ f rest i, m.frames = f :: rest ∧ f.next? = some i ∧
      Transit image f i rest m'.frames := by
  obtain hidle | ⟨c, herror⟩ | ⟨f, rest, i, hm, hi⟩ := step_cases image debug m
  · cases h.symm.trans (step_idle hidle)
  · cases h.symm.trans herror
  · obtain ⟨k, hk⟩ := Frame.add_one_of_next? hi
    obtain ⟨output, hexec⟩ := exec_of_step hm hi hk h
    exact ⟨f, rest, i, hm, hi, exec_transit rfl hk hexec⟩

end Step

section Depth

variable {image : Image} {debug : Bool} {m m' : Machine} {lower : List Frame}

def Deep (image : Image) (debug : Bool) (d : Nat) (m m' : Machine) : Prop :=
  step image debug m = .ok true m' ∧ d < m'.frames.length

def Above (lower : List Frame) (m : Machine) : Prop := ∃ f upper, m.frames = f :: upper ++ lower

theorem above_step (h : step image debug m = .ok true m') (hm : Above lower m) :
    Above lower m' ∨ ∃ f i v stack, m.frames = f :: lower ∧ f.next? = some i ∧ i.op = .ret ∧
      f.stack = v :: stack ∧ m'.frames = receive v lower := by
  obtain ⟨g, upper, hg⟩ := hm
  obtain ⟨f, rest, i, hf, hi, htransit⟩ := step_transit h
  obtain ⟨rfl, rfl⟩ := List.cons.inj (hf.symm.trans hg)
  obtain ⟨frames, hframes⟩ : ∃ frames, m'.frames = frames := ⟨_, rfl⟩
  rw [hframes] at htransit
  cases htransit with
  | stay hpc => exact .inl ⟨_, upper, hframes⟩
  | enter _ hpc => exact .inl ⟨_, _ :: upper, hframes⟩
  | @leave v stack hret hstack =>
    cases upper with
    | nil => exact .inr ⟨f, i, v, stack, hf, hi, hret, hstack, hframes⟩
    | cons u upper => exact .inl ⟨_, upper, hframes⟩

theorem above_deep (h : Relation.ReflTransGen (Deep image debug lower.length) m m')
    (hm : Above lower m) : Above lower m' := by
  induction h with
  | refl => exact hm
  | tail _ hstep ih =>
    obtain hup | ⟨f, i, v, stack, -, -, -, -, hframes⟩ := above_step hstep.1 ih
    · exact hup
    · have hdeep := hstep.2
      rw [hframes] at hdeep
      cases lower <;> simp [receive] at hdeep

end Depth

theorem step_call {image : Image} {m : Machine} {f : Frame} {below : List Frame}
    {name comment : String} {t : Template} {pc : Value} (debug : Bool) (hm : m.frames = f :: below)
    (hcall : f.next? = some ⟨.call (.text name), comment⟩) (ht : image.get? name = some t)
    (hargs : t.arity.toNat ≤ f.stack.length) (hpc : f.pc.add (.int 1) = .ok pc) :
    (debug ∧ ∃ m₁, step image debug m = .error (.crash .badNumeral) m₁) ∨
    ∃ m₁, step image debug m = .ok true m₁ ∧
      m₁.frames = ⟨t, .int 0, [], (f.stack.take t.arity.toNat).reverse⟩ ::
        { f with pc, stack := f.stack.drop t.arity.toNat } :: below := by
  have hexec (output : String) :
      ∃ m₁, exec image ⟨.call (.text name), comment⟩
          { m with frames := { f with pc } :: below, output } = .ok () m₁ ∧
        m₁.frames = ⟨t, .int 0, [], (f.stack.take t.arity.toNat).reverse⟩ ::
          { f with pc, stack := f.stack.drop t.arity.toNat } :: below := by
    refine ⟨_, (call_eq_ok (f := { f with pc }) rfl ht).2 ⟨hargs, rfl⟩, rfl⟩
  rw [step_next hm hcall hpc]
  cases debug with
  | false =>
    obtain ⟨m₁, hexec, hm₁⟩ := hexec m.output
    exact .inr ⟨m₁, bind_eq_ok.2 ⟨(), m₁, hexec, rfl⟩, hm₁⟩
  | true =>
    obtain ⟨output, hok | herror⟩ :=
      trace_cases (m := { m with frames := { f with pc } :: below }) rfl _
    · obtain ⟨m₁, hexec, hm₁⟩ := hexec output
      exact .inr ⟨m₁, bind_eq_ok.2 ⟨(), _, hok, bind_eq_ok.2 ⟨(), m₁, hexec, rfl⟩⟩, hm₁⟩
    · exact .inl ⟨rfl, _, bind_eq_error.2 (.inl herror)⟩

/-- A call comes back to a caller that is as it was, behind the call, with the arguments taken off
and the returned value put on; the calls below it have not changed. In debugging the call is not made
if a number that is to be printed about it is too long. -/
theorem call_returns (image : Image) (debug : Bool) (m : Machine) {f : Frame} {below : List Frame}
    {name comment : String} {t : Template} (hm : m.frames = f :: below)
    (hcall : f.next? = some ⟨.call (.text name), comment⟩) (ht : image.get? name = some t)
    (hargs : t.arity.toNat ≤ f.stack.length) :
    (debug ∧ ∃ m₁, step image debug m = .error (.crash .badNumeral) m₁) ∨
    ∃ pc m₁, f.pc.add (.int 1) = .ok pc ∧ step image debug m = .ok true m₁ ∧
      m₁.frames.length = m.frames.length + 1 ∧
      ∀ m₂ m₃, Relation.ReflTransGen (Deep image debug m.frames.length) m₁ m₂ →
        step image debug m₂ = .ok true m₃ → m₃.frames.length = m.frames.length →
        ∃ callee i v stack, callee.next? = some i ∧ i.op = .ret ∧ callee.stack = v :: stack ∧
          m₂.frames =
            callee :: { f with pc, stack := f.stack.drop t.arity.toNat } :: below ∧
          m₃.frames = { f with pc, stack := v :: f.stack.drop t.arity.toNat } :: below := by
  obtain ⟨k, hk⟩ := Frame.add_one_of_next? hcall
  obtain hfails | ⟨m₁, hstep, hm₁⟩ := step_call debug hm hcall ht hargs hk
  · exact .inl hfails
  refine .inr ⟨.int k, m₁, hk, hstep, by simp [hm₁, hm], fun m₂ m₃ hdeep hlast hlength => ?_⟩
  rw [hm] at hdeep hlength
  have habove : Above ({ f with pc := .int k, stack := f.stack.drop t.arity.toNat } :: below) m₂ :=
    above_deep hdeep ⟨_, [], hm₁⟩
  obtain ⟨g, upper, hm₃⟩ | ⟨callee, i, v, stack, hm₂, hi, hret, hstack, hm₃⟩ :=
    above_step hlast habove
  · simp [hm₃] at hlength
    omega
  · exact ⟨callee, i, v, stack, hi, hret, hstack, hm₂, hm₃⟩

/-- The functions `int one() {return 1;}` and `int next(int n) {return n + one();}`. -/
def counters : Image :=
  let code (ops : List Op) : Array Instr := (ops.map Instr.plain).toArray
  ⟨[("one", ⟨"one", 0, code [.push (.int 1), .ret]⟩),
    ("next", ⟨"next", 1, code [.store (.int 0), .load (.int 0), .call (.text "one"), .add, .ret]⟩)]⟩

theorem call_returns_next :
    let caller : Frame :=
      ⟨⟨"main", 0, #[.plain (.call (.text "next"))]⟩, .int 0, [.bool true], [.int 4, .int 9]⟩
    let m : Machine := ⟨.empty, [caller, caller], [], ""⟩
    ∃ m₁ m₂ m₃, step counters false m = .ok true m₁ ∧
      Relation.ReflTransGen (Deep counters false 2) m₁ m₂ ∧ step counters false m₂ = .ok true m₃ ∧
      m₃.frames = [{ caller with pc := .int 1, stack := [.int 5, .int 9] }, caller] := by
  intro caller m
  let next : Template := ⟨"next", 1, #[.plain (.store (.int 0)), .plain (.load (.int 0)),
    .plain (.call (.text "one")), .plain .add, .plain .ret]⟩
  let one : Template := ⟨"one", 0, #[.plain (.push (.int 1)), .plain .ret]⟩
  let on (upper : List Frame) : Machine :=
    ⟨.empty, upper ++ [{ caller with pc := .int 1, stack := [.int 9] }, caller], [], ""⟩
  have hrun : Relation.ReflTransGen (Deep counters false 2) (on [⟨next, .int 0, [], [.int 4]⟩])
      (on [⟨next, .int 4, [.int 4], [.int 5]⟩]) := by
    refine .head (b := on [⟨next, .int 1, [.int 4], []⟩]) ⟨rfl, by decide⟩ ?_
    refine .head (b := on [⟨next, .int 2, [.int 4], [.int 4]⟩]) ⟨rfl, by decide⟩ ?_
    refine .head (b := on [⟨one, .int 0, [], []⟩, ⟨next, .int 3, [.int 4], [.int 4]⟩])
      ⟨rfl, by decide⟩ ?_
    refine .head (b := on [⟨one, .int 1, [], [.int 1]⟩, ⟨next, .int 3, [.int 4], [.int 4]⟩])
      ⟨rfl, by decide⟩ ?_
    refine .head (b := on [⟨next, .int 3, [.int 4], [.int 1, .int 4]⟩]) ⟨rfl, by decide⟩ ?_
    exact .single ⟨rfl, by decide⟩
  obtain ⟨hdebug, -⟩ | ⟨pc, m₁, hpc, hstep, -, hreturn⟩ :=
    call_returns counters false m rfl rfl rfl (by decide)
  · cases hdebug
  cases hpc
  have hm₁ : step counters false m = .ok true (on [⟨next, .int 0, [], [.int 4]⟩]) := rfl
  cases hstep.symm.trans hm₁
  obtain ⟨callee, i, v, stack, -, -, hstack, hm₂, hm₃⟩ := hreturn _ _ hrun rfl rfl
  obtain ⟨rfl, -⟩ := List.cons.inj hm₂
  cases hstack
  exact ⟨_, _, _, hm₁, hrun, rfl, hm₃⟩

end Machine
end StackLang
