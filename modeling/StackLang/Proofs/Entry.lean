import StackLang.Compiler
import StackLang.Proofs.ControlFlow

namespace StackLang

namespace Machine

variable {image : Image} {d lo hi n : Nat} {m m' : Machine}

theorem eq_of_attempt {α : Type} {r : Except Crash α} {a : α} (h : attempt r m = .ok a m') :
    m' = m := by
  cases r with
  | ok a =>
    cases h
    rfl
  | error c => cases h

theorem eq_of_step_false (h : step image false m = .ok false m') : m' = m := by
  obtain ⟨heap, _ | ⟨f, rest⟩, input, output⟩ := m
  · cases h
    rfl
  · obtain ⟨m₀, _, hget, h⟩ := bind_eq_ok.1 h
    cases hget
    obtain ⟨b, m₁, hb, h⟩ := bind_eq_ok.1 h
    cases b with
    | false =>
      cases h
      exact eq_of_attempt hb
    | true =>
      obtain ⟨i, m₂, -, h⟩ := bind_eq_ok.1 h
      obtain ⟨pc, m₃, -, h⟩ := bind_eq_ok.1 h
      obtain ⟨⟨⟩, m₄, -, h⟩ := bind_eq_ok.1 h
      obtain ⟨⟨⟩, m₅, -, h⟩ := bind_eq_ok.1 h
      cases h

theorem loop_of_step (h : step image false m = .ok true m') (fuel : Nat) :
    loop image false (fuel + 1) m = loop image false fuel m' := by
  simp only [loop, bind, EStateM.bind, h, if_true]

/-- A machine at the end of a span, or about to fail. -/
def Finishes (image : Image) (m : Machine) : Finish → Prop
  | .falls m' | .returns m' => m' = m
  | .raises e output => ∃ m', step image false m = .error e m' ∧ m'.output = output

theorem loop_of_span {r : Finish} (h : span image d lo hi n m = some r) :
    ∃ c m', Finishes image m' r ∧ ∀ fuel, loop image false (fuel + c) m = loop image false fuel m' := by
  induction n generalizing m with
  | zero => cases h
  | succ n ih =>
    rw [span] at h
    by_cases hin : inside d lo hi m
    · rw [if_pos hin] at h
      cases hstep : step image false m with
      | error e m₁ =>
        rw [hstep] at h
        cases h
        exact ⟨0, m, ⟨m₁, hstep, rfl⟩, fun _ => rfl⟩
      | ok b m₁ =>
        rw [hstep] at h
        obtain ⟨c, m', hend, hc⟩ := ih h
        cases b with
        | true =>
          refine ⟨c + 1, m', hend, fun fuel => ?_⟩
          rw [← Nat.add_assoc, loop_of_step hstep, hc]
        | false =>
          rw [eq_of_step_false hstep] at hc
          exact ⟨c, m', hend, hc⟩
    · rw [if_neg hin] at h
      split at h <;> cases h <;> exact ⟨0, m, rfl, fun _ => rfl⟩

/-- A machine that has nothing to do but the main function. -/
def entered (t : Template) (input : List Char) : Machine :=
  { Machine.empty with frames := [.enter t], input }

section Run

variable {t : Template} {p : Flow} {input : List Char}

theorem run_eq (hmain : image.get? "main" = some t) (fuel : Nat) :
    run image false fuel { Machine.empty with input } =
      loop image false fuel (entered t input) := by
  simp only [run, start, hmain]
  rfl

variable (hmain : image.get? "main" = some t) (hp : p.straight) (hcode : Holds t 0 (p.code 0))

include hmain hp hcode

theorem run_returns (h : p.Executes image (entered t input) (.returns m')) (hm' : m'.frames = []) :
    ∃ c, ∀ fuel, run image false (fuel + c) { Machine.empty with input } = .ok () m' := by
  obtain ⟨n, hn⟩ := h.leads rfl ⟨hp, hcode, Nat.le_refl 0, Nat.le_refl _⟩
  obtain ⟨c, _, rfl, hc⟩ := loop_of_span hn
  refine ⟨1 + c, fun fuel => ?_⟩
  rw [run_eq hmain, ← Nat.add_assoc]
  refine (hc (fuel + 1)).trans ?_
  obtain ⟨heap, frames, input, output⟩ := m'
  cases hm'
  rfl

theorem run_raises {e : Failure} {output : String}
    (h : p.Executes image (entered t input) (.raises e output)) :
    ∃ c m', m'.output = output ∧
      ∀ fuel, run image false (fuel + c) { Machine.empty with input } = .error e m' := by
  obtain ⟨n, hn⟩ := h.leads rfl ⟨hp, hcode, Nat.le_refl 0, Nat.le_refl _⟩
  obtain ⟨c, m₁, ⟨m', hstep, hout⟩, hc⟩ := loop_of_span hn
  refine ⟨1 + c, m', hout, fun fuel => ?_⟩
  rw [run_eq hmain, ← Nat.add_assoc]
  refine (hc (fuel + 1)).trans ?_
  simp only [loop, bind, EStateM.bind, hstep]

end Run
end Machine

namespace Generator

variable {o o' : Offsets} {l : List Stmt} {d : FunDef} {p : Program}

theorem Gets.template {n : Nat} {a b : List Op} {op : Op} {f : Template → Gen Unit}
    (ha : a.getLast? = some op)
    (h : ∀ t : Template, t.code.back? = some (.plain op) → Gets n (f t) o a o' b) :
    Gets n (Generator.template >>= f) o a o' b := by
  intro image t structs ht
  have hback : (t.append a).code.back? = some (.plain op) := by
    simp [Template.append, ha]
  exact h _ hback image t structs ht

theorem mainBody_emits {c : Nat → List Op} (hstmts : Emits (stmts l) o o' c)
    (hlast : l ≠ [] → ∀ n, ∃ op, (c n).getLast? = some op ∧ op ≠ .ret) :
    Emits (mainBody l) o o' fun n => c n ++ [.push .null, .ret] := by
  intro n
  have hreturn : Gets n emitReturn o' (c n) o' (c n ++ [.push .null, .ret]) := by
    simpa [emitReturn] using (Gets.emit (.push .null)).seq (Gets.emit .ret)
  cases l with
  | nil =>
    simp only [stmts] at hstmts
    exact (hstmts n).seq hreturn
  | cons s l =>
    obtain ⟨op, hop, hne⟩ := hlast (List.cons_ne_nil s l) n
    refine (hstmts n).seq (.template hop fun t ht => ?_)
    simpa [ht, Instr.plain, hne] using hreturn

theorem forM_structDef (l : List StructDef) (g : Generator) :
    ∃ structs, l.forM structDef g = .ok () { g with structs } := by
  induction l generalizing g with
  | nil => exact ⟨g.structs, rfl⟩
  | cons d l ih => exact ih { g with structs := g.structs.put d.name.lexeme d }

def mainTemplate (d : FunDef) : Template := ⟨"main", d.params.length, #[]⟩

/-- Adds the function that was generated to the finished ones. -/
def finish : Gen Unit := do
  onOffsets Offsets.enter
  let t ← template
  modify fun g => { g with image := g.image.install t }

theorem generate_eq (hp : p.functions = [d]) (hd : d.name.lexeme = "main") :
    ∃ structs, Compiler.generate p =
      outcome ((do mainBody d.body; finish) ⟨.empty, some (mainTemplate d), ⟨[[]]⟩, structs⟩) := by
  obtain ⟨structs, hstructs⟩ := forM_structDef p.structs (.ofImage .empty)
  have hfun : [d].forM funDef = funDef d := bind_pure_unit
  have hprogram : program p (.ofImage .empty) = funDef d ⟨.empty, none, .empty, structs⟩ := by
    simp only [program, hp, hfun, bind, EStateM.bind, hstructs]
    rfl
  refine ⟨structs, ?_⟩
  rw [Compiler.generate, EStateM.run, hprogram]
  simp only [funDef, hd, if_true]
  rfl

theorem generate_main {c : Nat → List Op} (hp : p.functions = [d]) (hd : d.name.lexeme = "main")
    (h : Emits (mainBody d.body) ⟨[[]]⟩ o c) :
    ∃ g, Compiler.generate p = (g, none) ∧
      g.image.get? "main" = some ((mainTemplate d).append (c 0)) := by
  obtain ⟨structs, hgen⟩ := generate_eq hp hd
  have hbody := h 0 .empty (mainTemplate d) structs rfl
  rw [Template.append_nil] at hbody
  simp only [bind, EStateM.bind, hbody] at hgen
  exact ⟨_, hgen, rfl⟩

theorem generate_fails {e : Failure} (hp : p.functions = [d]) (hd : d.name.lexeme = "main")
    (h : ∀ image t structs, ∃ g, mainBody d.body ⟨image, some t, ⟨[[]]⟩, structs⟩ = .error e g) :
    ∃ g, Compiler.generate p = (g, some e) := by
  obtain ⟨structs, hgen⟩ := generate_eq hp hd
  obtain ⟨g, hbody⟩ := h .empty (mainTemplate d) structs
  simp only [bind, EStateM.bind, hbody] at hgen
  exact ⟨g, hgen⟩

end Generator
end StackLang
