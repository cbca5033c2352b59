import StackLang.Proofs.ControlFlow
import StackLang.Proofs.References

namespace StackLang

def slots (base n : Nat) : List Op := (List.range' base n).map fun k => .store (.int k)

theorem slots_succ (base n : Nat) :
    slots base (n + 1) = .store (.int base) :: slots (base + 1) n := rfl

theorem length_slots (base n : Nat) : (slots base n).length = n := by
  simp [slots]

namespace Generator

variable {image : Image} {t : Template} {block : List String} {outer : List (List String)}
  {structs : Table String StructDef} {g : Generator}

theorem parameter_eq_ok {d : VarDef} (hnew : ∀ name ∈ d.label, name ∉ block)
    (h : parameter d ⟨image, some t, ⟨block :: outer⟩, structs⟩ = .ok () g) :
    ∃ name, d.label = [name] ∧ g = ⟨image, some (t.append (slots (outer.flatten.length +
      block.length) 1)), ⟨(block ++ [name]) :: outer⟩, structs⟩ := by
  obtain ⟨type, _ | token⟩ := d
  · cases h
  · have hname : token.lexeme ∉ block := hnew _ List.mem_cons_self
    have hemits : Gets t.code.size (parameter ⟨type, some token⟩) ⟨block :: outer⟩ []
        ⟨(block ++ [token.lexeme]) :: outer⟩ [.store (.int (outer.flatten.length +
          block.length : Nat))] := by
      refine (Gets.onOffsets (·.declare token.lexeme)).seq (.offset ?_)
      rw [Offsets.declare, Offsets.operand_declared hname]
      exact .emit _
    have hrun := hemits image t structs rfl
    rw [Template.append_nil, h] at hrun
    cases hrun
    exact ⟨token.lexeme, rfl, rfl⟩

theorem parameters_eq_ok {l : List VarDef} (hnodup : (block ++ l.flatMap VarDef.label).Nodup)
    (h : l.forM parameter ⟨image, some t, ⟨block :: outer⟩, structs⟩ = .ok () g) :
    g = ⟨image, some (t.append (slots (outer.flatten.length + block.length) l.length)),
      ⟨(block ++ l.flatMap VarDef.label) :: outer⟩, structs⟩ := by
  induction l generalizing t block with
  | nil =>
    cases h
    simp [slots]
  | cons d l ih =>
    obtain ⟨g₁, hd, hl⟩ := forM_cons_eq_ok.1 h
    have hnew : ∀ name ∈ d.label, name ∉ block := by
      intro name hname hblock
      have hmem : name ∈ (d :: l).flatMap VarDef.label :=
        List.mem_flatMap_of_mem List.mem_cons_self hname
      exact (List.nodup_append.1 hnodup).2.2 name hblock name hmem rfl
    obtain ⟨name, hlabel, rfl⟩ := parameter_eq_ok hnew hd
    rw [List.flatMap_cons, hlabel, ← List.append_assoc] at hnodup ⊢
    rw [ih hnodup hl, List.length_append, List.length_singleton, List.length_cons, slots_succ,
      Template.append_append]
    rfl

end Generator

namespace Machine

variable {image : Image} {base : Machine} {f : Frame} {below : List Frame}
  {vars stack args : List Value} {output : String} {k : Nat}

theorem perform_slots (hk : vars.length ≤ k) (hlimit : (k + args.length : Int) ≤ Value.sizeLimit) :
    perform image (slots k args.length) (working base f below vars (args ++ stack) output) =
      .ok () (working base f below (vars ++ args) stack output) := by
  induction args generalizing vars k with
  | nil => rw [List.append_nil]; rfl
  | cons a args ih =>
    rw [List.length_cons] at hlimit
    refine bind_eq_ok.2 ⟨(), working base f below (vars ++ [a]) (args ++ stack) output, ?_, ?_⟩
    · rw [← insertAt_of_le hk]
      exact exec_store (f := { f with locals := vars, stack := a :: (args ++ stack) }) rfl rfl
        (by omega)
    · have happend : vars ++ a :: args = vars ++ [a] ++ args := List.append_cons vars a args
      rw [happend]
      exact ih (by simpa using hk) (by omega)

theorem slots_straight (k n : Nat) : ∀ op ∈ slots k n, op.straight := by
  intro op hop
  obtain ⟨i, -, rfl⟩ := List.mem_map.1 hop
  rfl

theorem call_receives {m : Machine} {t : Template} {name comment : String} {pc : Value}
    (ht : image.get? name = some t) (harity : t.arity = args.length)
    (hcode : Holds t 0 (slots k args.length))
    (hlimit : (k + args.length : Int) ≤ Value.sizeLimit) (hm : m.frames = f :: below)
    (hi : f.next? = some ⟨.call (.text name), comment⟩) (hpc : f.pc.add (.int 1) = .ok pc)
    (hstack : f.stack = args.reverse ++ stack) :
    ∃ m₁, step image false m = .ok true m₁ ∧
      Moves image (below.length + 1) 0 args.length args.length m₁ { m with
        frames := ⟨t, .int args.length, args, []⟩ :: { f with pc, stack } :: below } := by
  have hcall : call image (.text name) { m with frames := { f with pc } :: below } = .ok ()
      { m with frames := ⟨t, .int 0, [], args⟩ :: { f with pc, stack } :: below } := by
    refine (call_eq_ok rfl ht).2 ⟨?_, ?_⟩
    · simp [harity, hstack]
    · simp [harity, hstack]
  refine ⟨_, (step_next hm hi hpc).trans (bind_eq_ok.2 ⟨(), _, hcall, rfl⟩), ?_⟩
  let above (vars operands : List Value) : Machine :=
    working m ⟨t, .int 0, [], []⟩ ({ f with pc, stack } :: below) vars operands m.output
  have hstores : perform image (slots k args.length) (above [] (args ++ [])) =
      .ok () (above ([] ++ args) []) := perform_slots (Nat.zero_le k) hlimit
  have hcalls : (above [] (args ++ [])).calls = t :: f.template :: below.map Frame.template := rfl
  have hmoves : Moves image (f.template :: below.map Frame.template).length 0 args.length _ _ _ :=
    moves_perform hcalls hcode (slots_straight k args.length) (Nat.le_refl 0)
      (by simp [length_slots]) hstores
  simpa [length_slots, above, working, seek] using hmoves

end Machine

def FunDef.heading (d : FunDef) (base : Offsets) : Template :=
  (Template.mk d.name.lexeme d.params.length #[]).append (slots base.total d.params.length)

namespace Generator

variable {d : FunDef} {g g' : Generator}

theorem funCode_heading (hname : d.name.lexeme ≠ "main")
    (hparams : (d.params.flatMap VarDef.label).Nodup)
    (h : funCode d (amid g.structs [[]] [] g.offsets g.image (d.template [] .empty)) = .ok () g') :
    (if d.body.isEmpty then emitReturn else stmts d.body) ⟨g.image, some (d.heading g.offsets),
      ⟨d.params.flatMap VarDef.label :: g.offsets.blocks⟩, g.structs⟩ = .ok () g' := by
  rw [funCode, if_neg hname] at h
  obtain ⟨⟨⟩, g₁, hstored, hbody⟩ := bind_eq_ok.1 h
  cases parameters_eq_ok hparams hstored
  exact hbody

theorem heading_begins {t : Template} (base : Offsets)
    (h : (if d.body.isEmpty then emitReturn else stmts d.body) g = .ok () g')
    (hg : g.current = some (d.heading base)) (hg' : g'.current = some t) :
    ∃ rest, t.code = (d.heading base).code ++ rest := by
  have hlast : (d.heading base).code.back? ≠ some (.plain (.push (.text " "))) := by
    intro hback
    have hmem := Array.mem_of_back? hback
    simp [FunDef.heading, Template.append, slots, Instr.plain] at hmem
  have hretains : Retains (Begins (d.heading base).code)
      (if d.body.isEmpty then emitReturn else stmts d.body) := by
    split
    · exact (begins_upheld hlast).compositional.emitReturn
    · exact (begins_upheld hlast).stmts d.body
  refine hretains g () g' ?_ h t hg'
  intro t₀ ht₀
  cases hg.symm.trans ht₀
  exact ⟨#[], (Array.append_empty).symm⟩

/-- The code of a function other than the main function starts with one store for each parameter,
at offsets in a row, and goes on with that of the statements. A call and these stores take the
arguments from the operands of the caller and make them, in the order in which they were pushed, the
variables of the function. -/
theorem funDef_receives (hname : d.name.lexeme ≠ "main")
    (hparams : (d.params.flatMap VarDef.label).Nodup) (h : funDef d g = .ok () g') :
    ∃ t g₁ rest, g'.current = some t ∧ g'.image.get? d.name.lexeme = some t ∧
      t.arity = d.params.length ∧ t.code = (d.heading g.offsets).code ++ rest ∧
      (if d.body.isEmpty then emitReturn else stmts d.body) ⟨g.image, some (d.heading g.offsets),
        ⟨d.params.flatMap VarDef.label :: g.offsets.blocks⟩, g.structs⟩ = .ok () g₁ ∧
      g₁.current = some t ∧
      ((g.offsets.total + d.params.length : Int) ≤ Value.sizeLimit →
        ∀ (image : Image) (m : Machine) (f : Frame) (below : List Frame) (args stack : List Value)
          (comment : String), image.get? d.name.lexeme = some t → m.frames = f :: below →
        f.next? = some ⟨.call (.text d.name.lexeme), comment⟩ →
        args.length = d.params.length → f.stack = args.reverse ++ stack →
        ∃ pc m₁, f.pc.add (.int 1) = .ok pc ∧ Machine.step image false m = .ok true m₁ ∧
          Machine.Moves image (below.length + 1) 0 args.length args.length m₁ { m with
            frames := ⟨t, .int args.length, args, []⟩ :: { f with pc, stack } :: below }) := by
  obtain ⟨code, hcompiles, -⟩ := funDef_ok h
  cases (hcompiles g rfl).symm.trans h
  rw [funDef_eq] at h
  obtain ⟨⟨⟩, g₁, hcode, hfinish⟩ := bind_eq_ok.1 h
  have hbody := funCode_heading hname hparams hcode
  have hcurrent : g₁.current = some (d.template code g.offsets) := (finish_current hfinish).symm
  obtain ⟨rest, hrest⟩ := heading_begins g.offsets hbody rfl hcurrent
  refine ⟨_, g₁, rest, rfl, ?_, rfl, hrest, hbody, hcurrent, ?_⟩
  · rw [Image.install, Table.get?_put, FunDef.template, beq_self_eq_true, if_pos rfl]
  · intro hlimit image m f below args stack comment ht hm hi hargs hstack
    obtain ⟨pc, hpc⟩ := Frame.add_one_of_next? hi
    have hstores : Machine.Holds (d.template code g.offsets) 0
        (slots g.offsets.total args.length) := by
      intro i op hop
      have hlt := (List.getElem?_eq_some_iff.1 hop).1
      rw [hargs] at hop
      rw [hrest, Array.getElem?_append_left]
      · exact holds_append _ _ i op hop
      · simpa [FunDef.heading, Template.append, length_slots, hargs] using hlt
    obtain ⟨m₁, hstep, hmoves⟩ := Machine.call_receives ht (congrArg Nat.cast hargs.symm) hstores
      (by rwa [hargs]) hm hi hpc hstack
    exact ⟨.int pc, m₁, hpc, hstep, hmoves⟩

namespace Receiving

def second : FunDef where
  returns := ⟨false, some (word .intType "int")⟩
  name := word .id "f"
  params := [⟨none, some (word .id "x")⟩, ⟨none, some (word .id "y")⟩]
  body := [.ret (mention "y")]

def caller : Frame where
  template := ⟨"main", 0, #[.plain (.call (.text "f"))]⟩
  pc := .int 0
  locals := []
  stack := [.int 20, .int 10, .int 5]

end Receiving

open Receiving in
/-- The parameters are numbered behind a variable that was left, and stored as the first ones. -/
theorem funDef_receives_second :
    ∃ g t m₁, funDef second ⟨.empty, none, ⟨[["v"]]⟩, .empty⟩ = .ok () g ∧
      g.image.get? "f" = some t ∧
      t.code = #[.plain (.store (.int 1)), .plain (.store (.int 2)), .plain (.load (.int 2)),
        .plain .ret] ∧
      Machine.step g.image false ⟨.empty, [caller], [], ""⟩ = .ok true m₁ ∧
      Machine.Moves g.image 1 0 2 2 m₁ ⟨.empty, [⟨t, .int 2, [.int 10, .int 20], []⟩,
        { caller with pc := .int 1, stack := [.int 5] }], [], ""⟩ := by
  obtain ⟨t, g₁, rest, -, hget, -, -, -, -, hcalls⟩ :=
    funDef_receives (d := second) (g := ⟨.empty, none, ⟨[["v"]]⟩, .empty⟩) (by decide) (by decide)
      rfl
  obtain ⟨pc, m₁, hpc, hstep, hmoves⟩ := hcalls (by decide) _ ⟨.empty, [caller], [], ""⟩ caller []
    [.int 10, .int 20] [.int 5] "" hget rfl rfl rfl rfl
  cases hpc
  refine ⟨_, t, m₁, rfl, hget, ?_, hstep, hmoves⟩
  cases hget
  rfl

end Generator
end StackLang
