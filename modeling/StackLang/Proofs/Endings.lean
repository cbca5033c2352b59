import StackLang.Proofs.Separation

namespace StackLang

open Generator

def Program.function? (p : Program) (name : String) : Option FunDef :=
  p.functions.reverse.find? (·.name.lexeme == name)

namespace Machine

/-- Places that the calls of a function do not leave but by a return. A jump that was not completed
leads to the place -1, which is another name of the last one. -/
structure Confines (t : Template) (closed : Bool) (places : Int → Prop) : Prop where
  entry : places 0
  range : ∀ j, places j → -1 ≤ j ∧ (j < t.code.size ∨ (j = t.code.size ∧ closed = false))
  next : ∀ j i, places j → fetch t (.int j) = .ok i → i.op.passes → places (j + 1)
  target : ∀ j i, places j → fetch t (.int j) = .ok i → i.op.jumps →
    ∃ k, i.op.operand = .int k ∧ places k

section Template

variable {d : FunDef} {code : List Loose} {base : Offsets}

theorem fetch_template {i : Instr} {j : Int} (hj : -1 ≤ j)
    (h : fetch (d.template code base) (.int j) = .ok i) :
    ∃ k l, code[k]? = some l ∧ i = .plain (l.link base) ∧
      (j = (k : Nat) ∨ (j = -1 ∧ k = code.length - 1)) := by
  have hsize : (d.template code base).code.size = code.length := size_link base code
  have hget (k : Nat) : (d.template code base).code[k]? =
      (code[k]?).map fun l => .plain (l.link base) := by
    simp [FunDef.template, link]
  simp only [fetch, Value.position, hsize, bind, Except.bind] at h
  split at h
  · cases h
    obtain ⟨k, hk, hi⟩ := Option.bind_eq_some_iff.1 ‹_›
    rw [hget] at hi
    obtain ⟨l, hl, rfl⟩ := Option.map_eq_some_iff.1 hi
    refine ⟨k, l, hl, rfl, ?_⟩
    unfold place? at hk
    split at hk
    · split at hk
      · cases hk
        omega
      · cases hk
    · split at hk
      · cases hk
        omega
      · cases hk
  · cases h

theorem passes_of_link {l : Loose} (h : (l.link base).passes) : l.passes := by
  cases l with
  | op o => exact h
  | _ => rfl

theorem eq_op_of_jumps {l : Loose} (h : (l.link base).jumps) : l = .op (l.link base) := by
  cases l with
  | op o => rfl
  | load p | store p => cases h
  | item name =>
    by_cases hleft : base.operand name = .absent <;> simp [Loose.link, hleft, Op.jumps] at h

theorem confines_template {names : List String} {past closed : Bool}
    (h : Assembled names past (!closed) [] code) :
    ∃ places, Confines (d.template code base) closed places := by
  obtain ⟨-, live, hentry, hrange, hlive⟩ := h.part
  have hsize : (d.template code base).code.size = code.length := size_link base code
  have hpends : LastPends code := h.pends (by simp [LastPends])
  have hstart : live 0 ∨ Exit (!closed) code.length 0 := by
    obtain hentry | ⟨hempty, hexit⟩ := hentry
    · exact .inl hentry
    · rw [← hempty] at hexit ⊢
      exact .inr hexit
  have hwithin {k : Nat} {l : Loose} (hk : live k ∨ Exit (!closed) code.length k)
      (hl : code[k]? = some l) : live k := by
    have hlt := (List.getElem?_eq_some_iff.1 hl).1
    obtain hk | ⟨-, hk⟩ := hk
    · exact hk
    · omega
  refine ⟨fun j => j = -1 ∨ ∃ k : Nat, j = k ∧ (live k ∨ Exit (!closed) code.length k),
    .inr ⟨0, rfl, hstart⟩, ?_, ?_, ?_⟩
  · rw [hsize]
    rintro j (rfl | ⟨k, rfl, hk | ⟨hopen, rfl⟩⟩)
    · exact ⟨Int.le_refl _, .inl (by omega)⟩
    · have := hrange k hk
      exact ⟨by omega, .inl (by omega)⟩
    · exact ⟨by omega, .inr ⟨rfl, by simpa using hopen⟩⟩
  · rintro j i (rfl | ⟨k, rfl, hk⟩) hfetch hpasses
    · -- Behind the place -1 comes the first one, whatever is executed there.
      exact .inr ⟨0, rfl, hstart⟩
    · obtain ⟨k', l, hl, rfl, hk' | ⟨hk', -⟩⟩ := fetch_template (by omega) hfetch
      · obtain rfl := Int.ofNat_inj.1 hk'
        exact .inr ⟨k + 1, rfl, hlive k (k + 1) (hwithin hk hl)
          ⟨l, hl, .inl ⟨passes_of_link hpasses, rfl⟩⟩⟩
      · omega
  · rintro j i (rfl | ⟨k, rfl, hk⟩) hfetch hjumps
    · obtain ⟨k, l, hl, rfl, hk | ⟨-, rfl⟩⟩ := fetch_template (by omega) hfetch
      · omega
      · -- The place -1 is that of the last operation, whose jump leads there again.
        rw [eq_op_of_jumps hjumps, ← List.getLast?_eq_getElem?] at hl
        exact ⟨-1, hpends _ hl hjumps, .inl rfl⟩
    · obtain ⟨k', l, hl, rfl, hk' | ⟨hk', -⟩⟩ := fetch_template (by omega) hfetch
      · obtain rfl := Int.ofNat_inj.1 hk'
        have hop := hl
        rw [eq_op_of_jumps hjumps] at hop
        obtain hpending | ⟨n, -, haddress⟩ := h.grows.aims k _ (Nat.zero_le _) hop hjumps
        · exact ⟨-1, hpending, .inl rfl⟩
        · exact ⟨n, haddress, .inr ⟨n, rfl, hlive k n (hwithin hk hl)
            ⟨_, hop, .inr ⟨_, rfl, hjumps, haddress⟩⟩⟩⟩
      · omega

end Template

/-- A call of a function of a program, at one of the places that its calls stay at. -/
def Confined (p : Program) (f : Frame) : Prop :=
  ∃ d places j, p.function? f.template.name = some d ∧ Confines f.template d.closed places ∧
    f.pc = .int j ∧ places j

def Confining (p : Program) (t : Template) : Prop :=
  ∃ d places, p.function? t.name = some d ∧ Confines t d.closed places

section Step

variable {p : Program} {image : Image} {debug : Bool} {m m' : Machine}

theorem Confining.enter {t : Template} (h : Confining p t) (args : List Value) :
    Confined p ⟨t, .int 0, [], args⟩ := by
  obtain ⟨d, places, hd, hplaces⟩ := h
  exact ⟨d, places, 0, hd, hplaces, rfl, hplaces.entry⟩

theorem confined_transit {f : Frame} {i : Instr} {rest frames : List Frame}
    (himage : image.All (Confining p)) (hf : Confined p f) (hrest : ∀ f' ∈ rest, Confined p f')
    (hi : f.next? = some i) (h : Transit image f i rest frames) : ∀ f' ∈ frames, Confined p f' := by
  obtain ⟨d, places, j, hd, hplaces, hpc, hj⟩ := hf
  have hfetch := (Frame.next?_eq_some.1 hi).2
  rw [hpc] at hfetch
  have hnext {pc : Value} (hpasses : i.op.passes) (hadd : f.pc.add (.int 1) = .ok pc) :
      ∃ k, pc = .int k ∧ places k := by
    rw [hpc] at hadd
    cases hadd
    exact ⟨j + 1, rfl, hplaces.next j i hj hfetch hpasses⟩
  cases h with
  | @stay pc _ _ hstay =>
    obtain ⟨k, hk, hplace⟩ : ∃ k, pc = .int k ∧ places k := by
      obtain ⟨hpasses, hadd⟩ | ⟨hjumps, htarget⟩ := hstay
      · exact hnext hpasses hadd
      · rw [← htarget]
        exact hplaces.target j i hj hfetch hjumps
    exact List.forall_mem_cons.2 ⟨⟨d, places, k, hd, hplaces, hk, hplace⟩, hrest⟩
  | enter hcall hadd ht =>
    obtain ⟨k, hk, hplace⟩ := hnext (by rw [hcall]; rfl) hadd
    exact List.forall_mem_cons.2 ⟨(himage _ _ ht).enter _,
      List.forall_mem_cons.2 ⟨⟨d, places, k, hd, hplaces, hk, hplace⟩, hrest⟩⟩
  | leave hret hstack =>
    cases rest with
    | nil => exact hrest
    | cons f' rest =>
      rw [receive, List.forall_mem_cons] at *
      exact hrest

theorem confined_step (himage : image.All (Confining p)) (hm : ∀ f ∈ m.frames, Confined p f)
    (h : step image debug m = .ok true m') : ∀ f ∈ m'.frames, Confined p f := by
  obtain ⟨f, rest, i, hframes, hi, htransit⟩ := step_transit h
  rw [hframes, List.forall_mem_cons] at hm
  exact confined_transit himage hm.1 hm.2 hi htransit

abbrev Steps (image : Image) (debug : Bool) : Machine → Machine → Prop :=
  Relation.ReflTransGen fun m m' => step image debug m = .ok true m'

theorem confined_steps (himage : image.All (Confining p)) (hm : ∀ f ∈ m.frames, Confined p f)
    (h : Steps image debug m m') : ∀ f ∈ m'.frames, Confined p f := by
  induction h with
  | refl => exact hm
  | tail _ hstep ih => exact confined_step himage ih hstep

theorem step_ne_false {f : Frame} {rest : List Frame} {i : Instr} (hm : m.frames = f :: rest)
    (hi : f.next? = some i) : step image debug m ≠ .ok false m' := by
  intro h
  obtain ⟨k, hk⟩ := Frame.add_one_of_next? hi
  rw [step_next hm hi hk] at h
  cases debug with
  | false =>
    obtain ⟨_, _, -, hlast⟩ := bind_eq_ok.1 h
    cases hlast
  | true =>
    obtain ⟨_, _, -, h⟩ := bind_eq_ok.1 h
    obtain ⟨_, _, -, hlast⟩ := bind_eq_ok.1 h
    cases hlast

theorem idle_of_step (h : step image debug m = .ok false m') : m' = m ∧ Idle m := by
  obtain hidle | ⟨c, herror⟩ | ⟨f, rest, i, hm, hi⟩ := step_cases image debug m
  · cases h.symm.trans (step_idle hidle)
    exact ⟨rfl, hidle⟩
  · cases h.symm.trans herror
  · exact absurd h (step_ne_false hm hi)

theorem steps_of_loop {fuel : Nat} (h : loop image debug fuel m = .ok () m') :
    Steps image debug m m' ∧ Idle m' := by
  induction fuel generalizing m with
  | zero => cases h
  | succ fuel ih =>
    obtain ⟨b, m₁, hstep, h⟩ := bind_eq_ok.1 h
    cases b with
    | false =>
      cases h
      obtain ⟨rfl, hidle⟩ := idle_of_step hstep
      exact ⟨.refl, hidle⟩
    | true =>
      obtain ⟨hsteps, hidle⟩ := ih h
      exact ⟨.head hstep hsteps, hidle⟩

end Step

end Machine

theorem Generator.forM_funDef_get? {structs : Table String StructDef} {l : List FunDef}
    {g : Generator} (h : l.forM funDef ⟨.empty, none, leftBy [], structs⟩ = .ok () g)
    {name : String} {t : Template} (ht : g.image.get? name = some t) :
    ∃ d code base, l.reverse.find? (·.name.lexeme == name) = some d ∧ t = d.template code base ∧
      Assembled d.leaves false (!d.closed) [] code := by
  induction l using List.reverseRecOn generalizing g with
  | nil =>
    cases h
    cases ht
  | append_singleton l d ih =>
    obtain ⟨g₁, hl, hd⟩ := forM_append_eq_ok.1 h
    obtain ⟨g₂, hd, hnil⟩ := forM_cons_eq_ok.1 hd
    cases hnil
    obtain ⟨code, hcode, hout⟩ := funDef_ok hd
    cases (hcode g₁ rfl).symm.trans hd
    rw [List.reverse_concat, List.find?_cons]
    rw [Image.install, Table.get?_put] at ht
    by_cases hname : d.name.lexeme = name
    · subst hname
      simp only [FunDef.template, BEq.rfl, if_true, Option.some.injEq] at ht
      exact ⟨d, code, g₁.offsets, by simp, ht.symm, hout⟩
    · have hne : (d.name.lexeme == name) = false := beq_eq_false_iff_ne.2 hname
      have hne' : (name == d.name.lexeme) = false := beq_eq_false_iff_ne.2 (Ne.symm hname)
      simp only [FunDef.template, hne', Bool.false_eq_true, if_false] at ht
      simp only [hne]
      exact ih hl ht

theorem generate_confining {p : Program} {g : Generator} (h : Compiler.generate p = (g, none)) :
    g.image.All (Machine.Confining p) := by
  intro name t ht
  obtain ⟨structs, hgenerate⟩ := generate_functions p.structs
  obtain ⟨d, code, base, hd, rfl, hout⟩ := forM_funDef_get? ((hgenerate p.functions g).1 h) ht
  obtain ⟨places, hplaces⟩ := @Machine.confines_template d code base _ _ _ hout
  have hname := List.find?_some hd
  rw [← eq_of_beq hname] at hd
  exact ⟨d, places, hd, hplaces⟩

open Machine in
/-- Calls stay within the code of their function up to its end, and come to the end only if control
can come behind the statements of the function; then the machine stops. So a run that ends without
failure has left all calls, or has stopped at the end of such a function. -/
theorem run_ends (p : Program) (g : Generator) (h : Compiler.generate p = (g, none)) (debug : Bool)
    (input : List Char) :
    (∀ m m', start g.image { Machine.empty with input } = .ok () m → Steps g.image debug m m' →
      ∀ f ∈ m'.frames, ∃ (d : FunDef) (j : Int), p.function? f.template.name = some d ∧
        f.pc = .int j ∧ -1 ≤ j ∧ j ≤ f.template.code.size ∧
        (j = f.template.code.size → d.closed = false ∧
          (m'.frames.head? = some f → step g.image debug m' = .ok false m'))) ∧
    ∀ fuel m, Machine.run g.image debug fuel { Machine.empty with input } = .ok () m →
      m.frames = [] ∨ ∃ (f : Frame) (rest : List Frame) (d : FunDef), m.frames = f :: rest ∧
        p.function? f.template.name = some d ∧ d.closed = false ∧
        f.pc = .int f.template.code.size := by
  have himage := generate_confining h
  have hreached {m m' : Machine} (hstart : start g.image { Machine.empty with input } = .ok () m)
      (hsteps : Steps g.image debug m m') : ∀ f ∈ m'.frames, Confined p f := by
    refine confined_steps himage ?_ hsteps
    obtain herror | ⟨t, ht, hok⟩ := start_cases g.image { Machine.empty with input }
    · cases hstart.symm.trans herror
    · cases hstart.symm.trans hok
      exact List.forall_mem_singleton.2 ((himage _ _ ht).enter [])
  constructor
  · intro m m' hstart hsteps f hf
    obtain ⟨d, places, j, hd, hplaces, hpc, hj⟩ := hreached hstart hsteps f hf
    obtain ⟨hle, hrange⟩ := hplaces.range j hj
    refine ⟨d, j, hd, hpc, hle, by omega, fun hend => ⟨?_, fun htop => ?_⟩⟩
    · obtain hlt | ⟨-, hopen⟩ := hrange
      · omega
      · exact hopen
    · refine step_idle fun f' rest hframes => ?_
      rw [hframes, List.head?_cons, Option.some.injEq] at htop
      subst htop
      rw [hpc, Value.less_int, hend]
      simp
  · intro fuel m hrun
    obtain ⟨⟨⟩, m₁, hstart, hloop⟩ := bind_eq_ok.1 hrun
    obtain ⟨hsteps, hidle⟩ := steps_of_loop hloop
    cases hframes : m.frames with
    | nil => exact .inl rfl
    | cons f rest =>
      obtain ⟨d, places, j, hd, hplaces, hpc, hj⟩ := hreached hstart hsteps f (by simp [hframes])
      have hless := hidle f rest hframes
      rw [hpc, Value.less_int] at hless
      obtain ⟨-, hlt | ⟨rfl, hopen⟩⟩ := hplaces.range j hj
      · simp [hlt] at hless
      · exact .inr ⟨f, rest, d, rfl, hd, hopen, hpc⟩

namespace Unreturned

def printed (text : String) : Stmt := printing (.operand (.literal (word .stringVal text)))

def program : Program where
  structs := []
  functions := [procedure "f" [printed "a"],
    procedure "main" [.call (word .id "f") (some []), printed "b"]]

end Unreturned

open Unreturned in
theorem run_ends_unreturned : ∃ g m f caller d, Compiler.generate program = (g, none) ∧
    Machine.run g.image false 5 { Machine.empty with input := [] } = .ok () m ∧
    m.frames = [f, caller] ∧ program.function? f.template.name = some d ∧ d.closed = false ∧
    f.pc = .int f.template.code.size ∧ m.output = "a" := by
  have hgen : Compiler.generate program = ((Compiler.generate program).1, none) := rfl
  obtain ⟨m, hrun, f, caller, hm, hout⟩ : ∃ m,
      Machine.run (Compiler.generate program).1.image false 5 { Machine.empty with input := [] } =
        .ok () m ∧ ∃ f caller, m.frames = [f, caller] ∧ m.output = "a" := ⟨_, rfl, _, _, rfl, rfl⟩
  obtain ⟨-, hend⟩ := run_ends program _ hgen false []
  obtain hnil | ⟨f', rest, d, hframes, hd, hopen, hpc⟩ := hend 5 m hrun
  · rw [hm] at hnil
    cases hnil
  · cases hm.symm.trans hframes
    exact ⟨_, m, f, caller, d, hgen, hrun, hm, hd, hopen, hpc, hout⟩

theorem execute_unreturned :
    let r := Compiler.execute true false
      (.ofText "void f() \x7bprint(\"a\");\x7d void main() \x7bf(); print(\"b\");\x7d") []
    r.2 = none ∧ r.1.output = "a" ∧
      r.1.frames.map (fun f => (f.template.name, f.pc, f.template.code.size)) =
        [("f", .int 2, 2), ("main", .int 1, 5)] := by
  decide +kernel

end StackLang
