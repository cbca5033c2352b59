import Mathlib.Logic.Relation
import StackLang.Proofs.Invariance

namespace StackLang

/-- The instruction that a call executes next. There is none behind the end of the code, nor at a
place that is no place of it. -/
def Frame.next? (f : Frame) : Option Instr :=
  match f.pc.less (.int f.template.code.size), Machine.fetch f.template f.pc with
  | .ok true, .ok i => some i
  | _, _ => none

theorem Frame.next?_eq_some {f : Frame} {i : Instr} : f.next? = some i ↔
    f.pc.less (.int f.template.code.size) = .ok true ∧ Machine.fetch f.template f.pc = .ok i := by
  unfold next?
  constructor
  · intro h
    split at h
    · cases h
      exact ⟨‹_›, ‹_›⟩
    · cases h
  · rintro ⟨hless, hfetch⟩
    rw [hless, hfetch]

theorem Frame.mem_of_next? {f : Frame} {i : Instr} (h : f.next? = some i) :
    i ∈ f.template.code := by
  have hfetch := (next?_eq_some.1 h).2
  unfold Machine.fetch at hfetch
  cases hpos : f.pc.position with
  | error c =>
    rw [hpos] at hfetch
    cases hfetch
  | ok k =>
    simp only [hpos, bind, Except.bind] at hfetch
    split at hfetch
    · cases hfetch
      obtain ⟨j, -, hj⟩ := Option.bind_eq_some_iff.1 ‹_›
      exact Array.mem_of_getElem? hj
    · cases hfetch

theorem Value.add_one_of_position {pc : Value} {k : Int} (h : pc.position = .ok k) :
    pc.add (.int 1) = .ok (.int (k + 1)) := by
  cases pc <;> cases h <;> rfl

theorem Frame.add_one_of_next? {f : Frame} {i : Instr} (h : f.next? = some i) :
    ∃ k, f.pc.add (.int 1) = .ok (.int k) := by
  have hfetch := (next?_eq_some.1 h).2
  unfold Machine.fetch at hfetch
  cases hpos : f.pc.position with
  | error c =>
    rw [hpos] at hfetch
    cases hfetch
  | ok k => exact ⟨k + 1, Value.add_one_of_position hpos⟩

def Image.All (T : Template → Prop) (image : Image) : Prop :=
  ∀ name t, image.get? name = some t → T t

namespace Machine

variable {image : Image} {debug : Bool} {m m' : Machine} {f : Frame} {rest : List Frame} {i : Instr}

theorem step_next {pc : Value} (hm : m.frames = f :: rest) (hi : f.next? = some i)
    (hpc : f.pc.add (.int 1) = .ok pc) :
    step image debug m = (do
      if debug then trace i
      exec image i
      return true) { m with frames := { f with pc } :: rest } := by
  obtain ⟨heap, frames, input, output⟩ := m
  cases hm
  obtain ⟨hless, hfetch⟩ := Frame.next?_eq_some.1 hi
  have hget (m : Machine) : (get : Exec Machine) m = .ok m m := rfl
  simp only [step, bind, EStateM.bind, hget, hless, hfetch, hpc, attempt, pure, EStateM.pure]
  rfl

def Idle (m : Machine) : Prop :=
  ∀ f rest, m.frames = f :: rest → f.pc.less (.int f.template.code.size) = .ok false

theorem step_idle (h : Idle m) : step image debug m = .ok false m := by
  obtain ⟨heap, _ | ⟨f, rest⟩, input, output⟩ := m
  · rfl
  · have hget (m : Machine) : (get : Exec Machine) m = .ok m m := rfl
    simp only [step, bind, EStateM.bind, hget, h f rest rfl, attempt]
    rfl

theorem step_cases (image : Image) (debug : Bool) (m : Machine) :
    Idle m ∨ (∃ c, step image debug m = .error (.crash c) m) ∨
      ∃ f rest i, m.frames = f :: rest ∧ f.next? = some i := by
  obtain ⟨heap, _ | ⟨f, rest⟩, input, output⟩ := m
  · refine .inl fun f rest h => ?_
    cases h
  · have hget (m : Machine) : (get : Exec Machine) m = .ok m m := rfl
    cases hless : f.pc.less (.int f.template.code.size) with
    | error c =>
      refine .inr (.inl ⟨c, ?_⟩)
      simp only [step, bind, EStateM.bind, hget, hless, attempt]
      rfl
    | ok b =>
      cases b with
      | false =>
        refine .inl fun f' rest' h => ?_
        cases h
        exact hless
      | true =>
        cases hfetch : fetch f.template f.pc with
        | error c =>
          refine .inr (.inl ⟨c, ?_⟩)
          simp only [step, bind, EStateM.bind, hget, hless, hfetch, attempt, pure, EStateM.pure]
          rfl
        | ok i => exact .inr (.inr ⟨f, rest, i, rfl, Frame.next?_eq_some.2 ⟨hless, hfetch⟩⟩)

theorem start_cases (image : Image) (m : Machine) :
    start image m = .error (.machine .noMain) m ∨ ∃ t, image.get? "main" = some t ∧
      start image m = .ok () { m with frames := .enter t :: m.frames } := by
  cases h : image.get? "main" with
  | none =>
    refine .inl ?_
    simp only [start, h]
    rfl
  | some t =>
    refine .inr ⟨t, rfl, ?_⟩
    simp only [start, h]
    rfl

/-- A property that lasts while calls are entered and left, of functions in `T`. -/
structure Roaming (V : Value → Prop) (T : Template → Prop) (I : Machine → Prop) : Prop
    extends Stable V I where
  code : ∀ {m f rest}, I m → m.frames = f :: rest → T f.template
  jump : ∀ {m f rest} pc, I m → m.frames = f :: rest → I { m with frames := { f with pc } :: rest }
  enter : ∀ {m t}, I m → T t → I { m with frames := .enter t :: m.frames }
  pass : ∀ {m callee caller rest v stack}, I m → m.frames = callee :: caller :: rest →
    caller.stack = v :: stack → I { m with
      frames := { callee with stack := v :: callee.stack } :: { caller with stack } :: rest }
  leave : ∀ {m}, I m → I { m with frames := m.frames.tail }

namespace Roaming

variable {V : Value → Prop} {E : Failure → Prop} {T : Template → Prop} {I : Machine → Prop}
  (hV : Admits V E) (hI : Roaming V T I)

include hI

theorem setPc (pc : Value) : Keeps I E (Machine.jump pc) fun _ => True := by
  refine Carries.modify fun m hm => ?_
  cases hframes : m.frames with
  | nil => exact hm
  | cons f rest => exact hI.jump pc hm hframes

include hV

theorem passArguments (n : Nat) : Keeps I E (Machine.passArguments n) fun _ => True := by
  induction n with
  | zero => exact .pure trivial
  | succ n ih =>
    refine Carries.get fun m hm => ?_
    have hout : ∀ m', m' = m → I m' := fun _ h => h ▸ hm
    split
    · split
      · refine Carries.bind (fun _ h => h) (Carries.modify ?_) fun _ _ => ih
        rintro _ rfl
        exact hI.pass hm ‹_› ‹_›
      · exact .throw hout (hV.crash _)
    · exact .throw hout (hV.crash _)

theorem call (himage : image.All T) (function : Value) :
    Keeps I E (Machine.call image function) fun _ => True := by
  refine .bind (A := T) (.found hV.crash fun t ht => ?_) fun t ht =>
    .bind (Carries.modify fun m hm => hI.enter hm ht) fun _ _ => hI.passArguments hV _
  cases function with
  | text name => exact himage name t ht
  | _ => cases ht

theorem ret : Keeps I E Machine.ret fun _ => True :=
  .bind (hI.pop hV) fun _ hv => .bind (Carries.modify fun _ hm => hI.leave hm) fun _ _ => hI.push hv

theorem exec (himage : image.All T) (hpush : ∀ v, i.op = .push v → V v) :
    Keeps I E (Machine.exec image i) fun _ => True := by
  by_cases hi : i.op.sequential
  · exact hI.toStable.exec hV image hi hpush
  · obtain ⟨op, comment⟩ := i
    cases op with
    | jump target => exact hI.setPc target
    | jumpFalse target =>
      exact .bind (hI.pop hV) fun _ _ => .ite (fun _ => hI.setPc target) fun _ => .pure trivial
    | call function => exact hI.call hV himage function
    | ret => exact hI.ret hV
    | _ => simp [Op.sequential] at hi

theorem printLine (label : String) (text : Except Crash String) :
    Keeps I E (Machine.printLine label text) fun _ => True :=
  .bind (hI.print _) fun _ _ => .attempt_bind hV.crash fun _ => hI.print _

theorem trace (i : Instr) : Keeps I E (Machine.trace i) fun _ => True := by
  have hline {label : String} {text : Except Crash String} {x : Exec Unit}
      (hx : Keeps I E x fun _ => True) :
      Keeps I E (do Machine.printLine label text; x) fun _ => True :=
    .bind (hI.printLine hV label text) fun _ _ => hx
  refine .bind (hI.frame hV) fun f _ => .bind (hI.print _) fun _ _ => ?_
  exact hline (hline (hline (hline (hI.printLine hV _ _))))

theorem step (himage : image.All T) (hT : ∀ {t}, T t → ∀ i ∈ t.code, ∀ v, i.op = .push v → V v)
    (debug : Bool) : Keeps I E (Machine.step image debug) fun _ => True := by
  intro m hm
  obtain h | ⟨c, h⟩ | ⟨f, rest, i, hframes, hi⟩ := step_cases image debug m
  · rw [step_idle h]
    exact ⟨hm, trivial⟩
  · rw [h]
    exact ⟨hm, hV.crash c⟩
  · obtain ⟨k, hk⟩ := Frame.add_one_of_next? hi
    have hexec : Keeps I E (Machine.exec image i) fun _ => True :=
      hI.exec hV himage (hT (hI.code hm hframes) i (Frame.mem_of_next? hi))
    have hall : Keeps I E (do
        if debug then Machine.trace i
        Machine.exec image i
        return true) fun _ => True :=
      .ite (fun _ => .bind (hI.trace hV i) fun _ _ => .bind hexec fun _ _ => .pure trivial)
        fun _ => .bind hexec fun _ _ => .pure trivial
    rw [step_next hframes hi hk]
    exact hall _ (hI.jump _ hm hframes)

end Roaming

/-- What can happen next to a machine that runs the code of some images: it is given new input, a
main function is entered, or a step is taken, with or without success. -/
inductive Onward (images : Image → Prop) : Machine → Machine → Prop
  | renew (m : Machine) (input : List Char) : Onward images m { m with input, output := "" }
  | start {image : Image} {m m' : Machine} : images image → start image m = .ok () m' →
      Onward images m m'
  | step {image : Image} {debug b : Bool} {m m' : Machine} : images image →
      step image debug m = .ok b m' → Onward images m m'
  | fail {image : Image} {debug : Bool} {e : Failure} {m m' : Machine} : images image →
      step image debug m = .error e m' → Onward images m m'

/-- One machine follows from another in some sequence of runs. -/
abbrev Reaches (images : Image → Prop) : Machine → Machine → Prop :=
  Relation.ReflTransGen (Onward images)

variable {images : Image → Prop} {m₀ : Machine}

theorem reaches_start (h : images image) :
    Keeps (Reaches images m₀) (fun _ => True) (start image) fun _ => True := by
  intro m hm
  cases hstart : start image m with
  | ok a m' => exact ⟨hm.tail (.start h hstart), trivial⟩
  | error e m' =>
    obtain herror | ⟨t, -, hok⟩ := start_cases image m
    · cases hstart.symm.trans herror
      exact ⟨hm, trivial⟩
    · cases hstart.symm.trans hok

theorem reaches_step (h : images image) :
    Keeps (Reaches images m₀) (fun _ => True) (step image debug) fun _ => True := by
  intro m hm
  cases hstep : step image debug m with
  | ok b m' => exact ⟨hm.tail (.step h hstep), trivial⟩
  | error e m' => exact ⟨hm.tail (.fail h hstep), trivial⟩

theorem reaches_loop (h : images image) (fuel : Nat) :
    Keeps (Reaches images m₀) (fun _ => True) (loop image debug fuel) fun _ => True := by
  induction fuel with
  | zero => exact .throw trivial
  | succ fuel ih =>
    exact .bind (reaches_step h) fun _ _ => .ite (fun _ => ih) fun _ => .pure trivial

theorem reaches_run (h : images image) (fuel : Nat) :
    Keeps (Reaches images m₀) (fun _ => True) (run image debug fuel) fun _ => True :=
  .bind (reaches_start h) fun _ _ => reaches_loop h fuel

theorem Roaming.reaches {V : Value → Prop} {T : Template → Prop} {I : Machine → Prop}
    (hI : Roaming V T I) (hV : Admits V fun _ => True)
    (hT : ∀ {t}, T t → ∀ i ∈ t.code, ∀ v, i.op = .push v → V v)
    (himages : ∀ image, images image → image.All T) (h : Reaches images m m') (hm : I m) : I m' := by
  induction h with
  | refl => exact hm
  | @tail m₁ _ _ hnext ih =>
    cases hnext with
    | renew _ input => exact hI.talk input "" ih
    | @start image _ _ himage hstart =>
      obtain herror | ⟨t, ht, hok⟩ := start_cases image m₁
      · cases hstart.symm.trans herror
      · cases hstart.symm.trans hok
        exact hI.enter ih (himages image himage _ t ht)
    | step himage hstep => exact ((hI.step hV (himages _ himage) hT _).ok ih hstep).1
    | fail himage hstep => exact ((hI.step hV (himages _ himage) hT _).error ih hstep).1

end Machine
end StackLang
