import StackLang.Compiler
import StackLang.Proofs.Generation
import StackLang.Proofs.HeapGrowth

namespace StackLang

def Template.supplied (t : Template) : Prop := ∀ i ∈ t.code, i.op.supplied

namespace Generator

/-- No instruction that was generated pushes what is absent. -/
structure Supplied (g : Generator) : Prop where
  current : ∀ t, g.current = some t → t.supplied
  image : ∀ e ∈ g.image.entries, e.2.supplied

theorem supplied_upheld : Upheld Supplied 0 where
  place _ _ := Nat.zero_le _
  offsets o hg := ⟨hg.current, hg.image⟩
  alter {g t code} hg ht halters := by
    have hcode := hg.current t ht
    refine ⟨fun t' ht' => ?_, hg.image⟩
    cases ht'
    intro i hi
    cases halters with
    | push hop =>
      obtain hi | rfl := Array.mem_push.1 hi
      · exact hcode i hi
      · exact hop
    | patch _ hop =>
      obtain hi | rfl := Array.mem_or_eq_of_mem_setIfInBounds hi
      · exact hcode i hi
      · exact hop
    | shorten _ =>
      obtain hi | rfl := Array.mem_push.1 hi
      · rw [← Array.mem_toList_iff, Array.toList_pop] at hi
        exact hcode i (Array.mem_toList_iff.1 ((List.dropLast_sublist _).subset hi))
      · rfl

theorem install_retains : Retains Supplied (do
    let t ← template
    modify fun g => { g with image := g.image.install t }) := by
  rintro ⟨image, _ | t, offsets, structs⟩ a g' hg h
  · cases h
  · cases h
    refine ⟨hg.current, fun e he => ?_⟩
    obtain he | he := Table.mem_put he
    · exact hg.image e he
    · exact he ▸ hg.current t rfl

theorem start_retains (name : String) (arity : Int) : Retains Supplied (modify fun g : Generator =>
    { g with current := some ⟨name, arity, #[]⟩ }) := by
  intro g a g' hg h
  cases h
  refine ⟨fun t ht => ?_, hg.image⟩
  cases ht
  intro i hi
  cases (Array.not_mem_empty i) hi

theorem structDef_retains (d : StructDef) : Retains Supplied (structDef d) := by
  intro g a g' hg h
  cases h
  exact ⟨hg.current, hg.image⟩

theorem program_retains (p : Program) : Retains Supplied (program p) :=
  supplied_upheld.compositional.program p (fun _ _ => trivial) structDef_retains start_retains
    install_retains

theorem supplied_of_generate {p : Program} {g : Generator} (h : Compiler.generate p = (g, none)) :
    g.image.All Template.supplied := by
  have hempty : Supplied (.ofImage .empty) := by
    refine ⟨fun t ht => ?_, fun e he => ?_⟩
    · cases ht
    · cases he
  simp only [Compiler.generate, EStateM.run] at h
  cases hp : program p (.ofImage .empty) with
  | error e g' =>
    rw [hp] at h
    cases h
  | ok a g' =>
    rw [hp] at h
    cases h
    intro name t ht
    obtain ⟨name', hmem⟩ := Table.mem_of_get? ht
    exact (program_retains p _ _ _ hempty hp).image _ hmem

end Generator

namespace Heap

variable {V : Value → Prop} {h h' : Heap}

theorem All.alloc (hall : h.All V) {o : Object} (ho : o.All V) : (h.alloc o).All V := by
  intro o' ho'
  obtain ho' | rfl := Array.mem_push.1 ho'
  · exact hall o' ho'
  · exact ho

theorem All.replace (hall : h.All V) {o : Object} (ho : o.All V) (owner : Value) :
    (h.replace owner o).All V := by
  intro o' ho'
  unfold Heap.replace at ho'
  split at ho'
  · obtain ho' | rfl := Array.mem_or_eq_of_mem_setIfInBounds ho'
    · exact hall o' ho'
    · exact ho
  · exact hall o' ho'

theorem Next.all (hnext : h.Next V h') (hall : h.All V) : h'.All V := by
  cases hnext with
  | alloc h ho => exact hall.alloc ho
  | fill h ho =>
    refine All.alloc (fun o' ho' => hall o' ?_) ho
    exact Array.mem_push.2 (.inl ho')
  | record _ ho => exact hall.replace ho _
  | array _ _ ho => exact hall.replace ho _

end Heap

/-- A call of supplied code that works with values that are there. -/
structure Frame.Complete (f : Frame) : Prop where
  code : f.template.supplied
  operands : ∀ v ∈ f.stack, v ≠ .absent
  locals : ∀ v ∈ f.locals, v ≠ .absent

theorem Frame.complete_enter {t : Template} (ht : t.supplied) : (Frame.enter t).Complete := by
  refine ⟨ht, fun v hv => ?_, fun v hv => ?_⟩
  · cases hv
  · cases hv

namespace Machine

/-- There is no absent value in any call, nor on the heap. -/
structure Complete (m : Machine) : Prop where
  operands : ∀ f ∈ m.frames, ∀ v ∈ f.stack, v ≠ .absent
  locals : ∀ f ∈ m.frames, ∀ v ∈ f.locals, v ≠ .absent
  fields : ∀ id fields, (id, fields) ∈ m.heap.records → ∀ e ∈ fields.entries, e.2 ≠ .absent
  items : ∀ id items, (id, items) ∈ m.heap.arrays → ∀ v ∈ items, v ≠ .absent

/-- A machine that has supplied code only and no absent value. -/
structure Filled (m : Machine) : Prop where
  frames : ∀ f ∈ m.frames, f.Complete
  heap : m.heap.All (· ≠ .absent)

theorem Filled.complete {m : Machine} (hm : m.Filled) : m.Complete where
  operands f hf := (hm.frames f hf).operands
  locals f hf := (hm.frames f hf).locals
  fields id fields hmem := by
    obtain ⟨i, -, hget⟩ := Heap.mem_records.1 hmem
    exact hm.heap _ (Array.mem_of_getElem? hget)
  items id items hmem := by
    obtain ⟨i, -, hget⟩ := Heap.mem_arrays.1 hmem
    exact hm.heap _ (Array.mem_of_getElem? hget)

section Top

variable {m : Machine} {f f' : Frame} {rest : List Frame}

theorem Filled.top (hm : m.Filled) (hf : m.frames = f :: rest) : f.Complete :=
  hm.frames f (hf ▸ List.mem_cons_self)

theorem Filled.withTop (hm : m.Filled) (hf : m.frames = f :: rest) (hf' : f'.Complete) :
    Filled { m with frames := f' :: rest } := by
  refine ⟨List.forall_mem_cons.2 ⟨hf', fun g hg => hm.frames g ?_⟩, hm.heap⟩
  rw [hf]
  exact List.mem_cons_of_mem f hg

end Top

theorem filled_roaming : Roaming (· ≠ .absent) Template.supplied Filled where
  operands hm hf := (hm.top hf).operands
  locals hm hf := (hm.top hf).locals
  work hm hf hvars hstack := hm.withTop hf ⟨(hm.top hf).code, hstack, hvars⟩
  talk _ _ hm := ⟨hm.frames, hm.heap⟩
  objects hm := hm.heap
  alter hm hnext := ⟨hm.frames, hnext.all hm.heap⟩
  code hm hf := (hm.top hf).code
  jump _ hm hf := hm.withTop hf ⟨(hm.top hf).code, (hm.top hf).operands, (hm.top hf).locals⟩
  enter hm ht := ⟨List.forall_mem_cons.2 ⟨Frame.complete_enter ht, hm.frames⟩, hm.heap⟩
  pass := by
    intro m callee caller rest v stack hm hf hstack
    have hall := hm.frames
    rw [hf] at hall
    obtain ⟨hcallee, hall⟩ := List.forall_mem_cons.1 hall
    obtain ⟨hcaller, hrest⟩ := List.forall_mem_cons.1 hall
    have hoperands := hcaller.operands
    rw [hstack] at hoperands
    obtain ⟨hv, hoperands⟩ := List.forall_mem_cons.1 hoperands
    refine ⟨List.forall_mem_cons.2 ⟨⟨hcallee.code, ?_, hcallee.locals⟩,
      List.forall_mem_cons.2 ⟨⟨hcaller.code, hoperands, hcaller.locals⟩, hrest⟩⟩, hm.heap⟩
    exact List.forall_mem_cons.2 ⟨hv, hcallee.operands⟩
  leave hm := ⟨fun f hf => hm.frames f (List.mem_of_mem_tail hf), hm.heap⟩

theorem filled_empty : Filled .empty := by
  refine ⟨fun f hf => ?_, fun o ho => ?_⟩
  · cases hf
  · cases Array.not_mem_empty o ho

def Substantial (e : Failure) : Prop := ∀ c, e = .machine c → c.ofAbsent = false

theorem admits_substantial : Admits (· ≠ .absent) Substantial where
  present h := h
  crash c e h := by cases h
  complaint := by
    intro e h c hc
    cases hc
    cases he : e.ofAbsent with
    | false => rfl
    | true => exact absurd rfl (h he)

theorem admits_present : Admits (· ≠ .absent) fun _ => True :=
  ⟨fun h => h, fun _ => trivial, fun _ => trivial⟩

theorem push_supplied {t : Template} (ht : t.supplied) (i : Instr) (hi : i ∈ t.code) (v : Value)
    (hv : i.op = .push v) : v ≠ .absent := by
  have := ht i hi
  rw [hv] at this
  simpa [Op.supplied] using this

theorem exec_allocArray_complains {image : Image} {m m' : Machine} {f : Frame} {rest : List Frame}
    {comment : String} {e : MachineError} (hm : m.frames = f :: rest)
    (h : exec image ⟨.allocArray, comment⟩ m = .error (.machine e) m') :
    ∃ n stack, f.stack = n :: stack ∧ (n = .absent ∨ n.less (.int 0) = .ok true) := by
  obtain ⟨heap, frames, input, output⟩ := m
  cases hm
  obtain h | ⟨id, m₁, halloc, h⟩ := bind_eq_error.1 h
  · cases h
  cases halloc
  obtain ⟨t, pc, vars, _ | ⟨n, stack⟩⟩ := f
  · cases h
  refine ⟨n, stack, rfl, ?_⟩
  obtain h | ⟨_, m₂, hpop, h⟩ := bind_eq_error.1 h
  · cases h
  cases hpop
  by_cases hn : n = .absent
  · exact .inl hn
  refine .inr ?_
  rw [if_neg hn] at h
  cases hless : n.less (.int 0) with
  | error c =>
    rw [hless] at h
    cases h
  | ok b =>
    cases b with
    | true => rfl
    | false =>
      rw [hless] at h
      cases hk : n.position <;> rw [hk] at h <;> cases h

end Machine

open Machine

/-- In a run of generated code no absent value is ever met, so that no operation complains about
one; where an array cannot be made, its length is below zero. -/
theorem generate_complete {p : Program} {g : Generator} {m : Machine}
    (hg : Compiler.generate p = (g, none)) (hm : Reaches (· = g.image) .empty m) :
    m.Complete ∧ ∀ debug e m', step g.image debug m = .error (.machine e) m' →
      e.ofAbsent = false ∧ ∀ f rest i, m.frames = f :: rest → f.next? = some i →
        i.op = .allocArray → ∃ n stack, f.stack = n :: stack ∧ n.less (.int 0) = .ok true := by
  have himage := Generator.supplied_of_generate hg
  have hfilled : m.Filled := by
    refine filled_roaming.reaches admits_present push_supplied ?_ hm filled_empty
    rintro _ rfl
    exact himage
  refine ⟨hfilled.complete, fun debug e m' hstep => ⟨?_, ?_⟩⟩
  · have hfails := (filled_roaming.step admits_substantial himage push_supplied debug).error
      hfilled hstep
    exact hfails.2 e rfl
  · rintro f rest ⟨op, comment⟩ hf hi rfl
    obtain ⟨k, hk⟩ := Frame.add_one_of_next? hi
    obtain ⟨output, hexec⟩ := exec_of_step_error hf hi hk hstep
    obtain ⟨n, stack, hstack, hn | hn⟩ := exec_allocArray_complains rfl hexec
    · refine absurd hn ((hfilled.top hf).operands n ?_)
      rw [hstack]
      exact List.mem_cons_self
    · exact ⟨n, stack, hstack, hn⟩

theorem reaches_outcome {image : Image} (debug : Bool) (fuel : Nat) (m : Machine) :
    Reaches (· = image) m (outcome (run image debug fuel m)).1 := by
  have hkeeps : Keeps (Reaches (· = image) m) (fun _ => True) (run image debug fuel)
      fun _ => True := by
    refine reaches_run ?_ fuel
    rfl
  cases h : run image debug fuel m with
  | ok a m' => exact (hkeeps.ok .refl h).1
  | error e m' => exact (hkeeps.error .refl h).1

def parsed (source : String) : Program :=
  match Parser.parse (.ofText source) with
  | .ok p => p
  | .error _ => ⟨[], []⟩

def shrinking : Program :=
  parsed "void main() \x7barray int a = new int[2]; a[1] = 7; print(a[1]);
    array int b = new int[0 - a[1]];\x7d"

def shrunk : Machine :=
  (outcome (run (Compiler.generate shrinking).1.image false 16 .empty)).1

theorem generate_complete_shrinking :
    (Compiler.generate shrinking).2 = none ∧ shrunk.output = "7" ∧
      shrunk.heap.arrays.map Prod.fst = [2024] ∧ shrunk.Complete ∧
      (outcome (step (Compiler.generate shrinking).1.image false shrunk)).2 =
        some (.machine .badArrayLength) ∧
      ∃ f rest n stack, shrunk.frames = f :: rest ∧ f.stack = n :: stack ∧
        n.less (.int 0) = .ok true := by
  obtain ⟨hg, houtput, hids, hfails, hnext⟩ : (Compiler.generate shrinking).2 = none ∧
      shrunk.output = "7" ∧ shrunk.heap.arrays.map Prod.fst = [2024] ∧
      (outcome (step (Compiler.generate shrinking).1.image false shrunk)).2 =
        some (.machine .badArrayLength) ∧
      (shrunk.frames.head?.bind Frame.next?).map Instr.op = some .allocArray := by
    decide +kernel
  have hgenerate : Compiler.generate shrinking = ((Compiler.generate shrinking).1, none) :=
    (Prod.eta _).symm.trans (congrArg (Prod.mk _) hg)
  have hreaches : Reaches (· = (Compiler.generate shrinking).1.image) .empty shrunk :=
    reaches_outcome false 16 .empty
  obtain ⟨hcomplete, hstep⟩ := generate_complete hgenerate hreaches
  refine ⟨hg, houtput, hids, hcomplete, hfails, ?_⟩
  obtain ⟨i, hi, hop⟩ := Option.map_eq_some_iff.1 hnext
  obtain ⟨f, hf, hi⟩ := Option.bind_eq_some_iff.1 hi
  obtain ⟨rest, hf⟩ := List.head?_eq_some_iff.1 hf
  cases hm : step (Compiler.generate shrinking).1.image false shrunk with
  | ok b m' =>
    rw [hm] at hfails
    cases hfails
  | error e m' =>
    rw [hm] at hfails
    cases hfails
    obtain ⟨n, stack, hstack, hn⟩ := (hstep false _ m' hm).2 f rest i hf hi hop
    exact ⟨f, rest, n, stack, hf, hstack, hn⟩

end StackLang
