import StackLang.Proofs.Relocation

namespace StackLang

namespace Table

variable {κ α : Type} [BEq κ] [LawfulBEq κ]

theorem find?_map_entries (entries : List (κ × α)) (k : κ) (a : α) (k' : κ) :
    ((entries.map fun e => if e.1 == k then (e.1, a) else e).find? (·.1 == k')).map Prod.snd =
      (entries.find? (·.1 == k')).map fun e => if k' == k then a else e.2 := by
  have hkeys : ((fun e : κ × α => e.1 == k') ∘ fun e => if e.1 == k then (e.1, a) else e) =
      fun e => e.1 == k' := by
    funext e
    simp only [Function.comp]
    split <;> rfl
  rw [List.find?_map, Option.map_map, hkeys]
  cases hfind : entries.find? (·.1 == k') with
  | none => rfl
  | some e =>
    have he : e.1 = k' := by simpa using List.find?_some hfind
    simp only [Option.map_some, Function.comp, he]
    split <;> rfl

theorem get?_put (t : Table κ α) (k : κ) (a : α) (k' : κ) :
    (t.put k a).get? k' = if k' == k then some a else t.get? k' := by
  unfold put
  by_cases h : t.contains k
  · rw [if_pos h, get?, find?_map_entries]
    by_cases hk : k' == k
    · obtain ⟨e, he⟩ := Option.isSome_iff_exists.1 (List.find?_isSome.2 (List.any_eq_true.1 h))
      rw [eq_of_beq hk, he]
      simp
    · simp only [hk, get?]
      rfl
  · have hnone : t.entries.find? (·.1 == k) = none := by
      rw [List.find?_eq_none]
      intro e he hk
      exact h (List.any_eq_true.2 ⟨e, he, hk⟩)
    rw [if_neg h, get?, get?, List.find?_append]
    by_cases hk : k' == k
    · rw [eq_of_beq hk, hnone]
      simp
    · have hne : (k == k') = false := by
        rw [BEq.comm]
        simpa using hk
      simp [hk, hne]

end Table

def leftBy (l : List FunDef) : Offsets := ⟨l.reverse.flatMap fun d => [[], d.leaves]⟩

theorem leftBy_concat (l : List FunDef) (d : FunDef) :
    leftBy (l ++ [d]) = ⟨[] :: d.leaves :: (leftBy l).blocks⟩ := by
  simp [leftBy]

def Place.settled (names : List String) : Place → Bool
  | own _ => false
  | left name => name ∉ names

def Loose.settled (names : List String) : Loose → Bool
  | op _ => true
  | load p | store p => p.settled names
  | item name => name ∉ names

section Settled

variable {base : Offsets}

theorem Offsets.notMem_of_total_eq_zero (h : base.total = 0) (name : String) :
    name ∉ base.blocks.flatten := by
  rw [List.eq_nil_of_length_eq_zero h]
  exact List.not_mem_nil

theorem Place.operand_eq_iff {p : Place} : p.operand base = p.operand .empty ↔
    base.total = 0 ∨ p.settled base.blocks.flatten := by
  cases p with
  | own k =>
    have hempty : Offsets.empty.total = 0 := rfl
    simp only [operand, settled, hempty, Value.int.injEq, Bool.false_eq_true, or_false]
    omega
  | left name =>
    have hempty : Offsets.empty.operand name = .absent := rfl
    simp only [operand, settled, hempty, Offsets.operand_eq_absent, decide_eq_true_eq]
    exact ⟨.inr, fun h => h.elim (fun h => Offsets.notMem_of_total_eq_zero h name) id⟩

theorem Loose.link_eq_iff {l : Loose} : l.link base = l.link .empty ↔
    base.total = 0 ∨ l.settled base.blocks.flatten := by
  cases l with
  | op o => simp [link, settled]
  | load p | store p => simpa [link, settled] using Place.operand_eq_iff
  | item name =>
    have hempty : link .empty (.item name) = .getField (.text name) := rfl
    rw [hempty, link, settled, decide_eq_true_eq]
    by_cases h : base.operand name = .absent
    · rw [if_pos h]
      exact ⟨fun _ => .inr (Offsets.operand_eq_absent.1 h), fun _ => rfl⟩
    · rw [if_neg h]
      constructor
      · intro hload
        cases hload
      · rintro (hzero | hname)
        · exact absurd (Offsets.operand_eq_absent.2 (Offsets.notMem_of_total_eq_zero hzero name)) h
        · exact absurd (Offsets.operand_eq_absent.2 hname) h

theorem template_eq_iff {d : FunDef} {code : List Loose} :
    d.template code base = d.template code .empty ↔
      base.total = 0 ∨ ∀ l ∈ code, l.settled base.blocks.flatten := by
  have hcode : d.template code base = d.template code .empty ↔
      ∀ l ∈ code, l.link base = l.link .empty := by
    simp [FunDef.template, link, Instr.plain, List.map_inj_left]
  rw [hcode]
  simp only [Loose.link_eq_iff]
  by_cases h : base.total = 0 <;> simp [h]

end Settled

namespace Generator

theorem funDef_ok {d : FunDef} {g g' : Generator} (h : funDef d g = .ok () g') :
    ∃ code, Compiles g.structs d code ∧ Assembled d.leaves false (!d.closed) [] code := by
  obtain hcode | ⟨e, hfail⟩ := funDef_cases g.structs d
  · exact hcode
  · obtain ⟨g₁, hg₁⟩ := hfail g rfl
    cases h.symm.trans hg₁

theorem forM_funDef (done : List FunDef) {l : List FunDef} {g g' : Generator}
    (hg : g.offsets = leftBy done) (h : l.forM funDef g = .ok () g') :
    g'.structs = g.structs ∧ g'.offsets = leftBy (done ++ l) ∧
      ∀ name, (∀ d ∈ l, d.name.lexeme ≠ name) → g'.image.get? name = g.image.get? name := by
  induction l generalizing done g with
  | nil =>
    cases h
    exact ⟨rfl, by rw [List.append_nil, hg], fun _ _ => rfl⟩
  | cons d l ih =>
    obtain ⟨g₁, hd, hl⟩ := forM_cons_eq_ok.1 h
    obtain ⟨code, hcode, -⟩ := funDef_ok hd
    cases (hcode g rfl).symm.trans hd
    obtain ⟨hstructs, hoffsets, himage⟩ := ih (done ++ [d]) (by rw [leftBy_concat, hg]) hl
    refine ⟨hstructs, ?_, fun name hname => ?_⟩
    · rw [hoffsets, List.append_assoc, List.singleton_append]
    · rw [himage name fun e he => hname e (List.mem_cons_of_mem d he)]
      have hne : (name == d.name.lexeme) = false :=
        beq_eq_false_iff_ne.2 (hname d List.mem_cons_self).symm
      rw [Image.install, Table.get?_put]
      simp only [FunDef.template, hne]
      rfl

theorem outcome_eq_ok {σ : Type} {r : EStateM.Result Failure σ Unit} {s : σ} :
    outcome r = (s, none) ↔ r = .ok () s := by
  cases r <;> simp [outcome]

theorem generate_functions (structs : List StructDef) : ∃ table, ∀ l g,
    Compiler.generate ⟨structs, l⟩ = (g, none) ↔
      l.forM funDef ⟨.empty, none, leftBy [], table⟩ = .ok () g := by
  obtain ⟨table, htable⟩ := forM_structDef structs (.ofImage .empty)
  refine ⟨table, fun l g => ?_⟩
  rw [Compiler.generate, outcome_eq_ok, EStateM.run, program]
  simp only [bind, EStateM.bind, htable]
  rfl

end Generator

open Generator

/-- A function has the same code in every program, up to the numbers of its variables. Generated by
itself it is linked behind no variables, and in a program behind those that the functions before it
have left. The two agree if none were left, or else if the function does not declare variables nor
mention one of these; behind the function its own variables are left as well. -/
theorem generate_separate (structs : List StructDef) (d : FunDef) :
    ∃ code : List Loose, ∀ (before after : List FunDef) (g : Generator),
      Compiler.generate ⟨structs, before ++ d :: after⟩ = (g, none) →
      let t := d.template code (leftBy before)
      let alone := d.template code .empty
      (∃ g₀, Compiler.generate ⟨structs, [d]⟩ = (g₀, none) ∧ g₀.image = Image.empty.install alone) ∧
      (∃ g₁ g₂, Compiler.generate ⟨structs, before⟩ = (g₁, none) ∧
        Compiler.generate ⟨structs, before ++ [d]⟩ = (g₂, none) ∧
        g₂.image = g₁.image.install t ∧
        g₁.offsets = leftBy before ∧ g₂.offsets = leftBy (before ++ [d])) ∧
      ((∀ e ∈ after, e.name.lexeme ≠ d.name.lexeme) → g.image.get? d.name.lexeme = some t) ∧
      (t = alone ↔ (leftBy before).total = 0 ∨
        ∀ l ∈ code, l.settled (leftBy before).blocks.flatten) ∧
      (d.leaves ≠ [] → t = alone → (leftBy before).total = 0) := by
  obtain ⟨table, hgenerate⟩ := generate_functions structs
  simp only [hgenerate]
  obtain ⟨code, hcode, hout⟩ | ⟨e, hfail⟩ := funDef_cases table d
  · refine ⟨code, fun before after g h => ?_⟩
    obtain ⟨g₁, hbefore, h⟩ := forM_append_eq_ok.1 h
    obtain ⟨g₂, hd, hafter⟩ := forM_cons_eq_ok.1 h
    obtain ⟨hstructs, hg₁, -⟩ := forM_funDef [] rfl hbefore
    rw [List.nil_append] at hg₁
    cases (hcode g₁ hstructs).symm.trans hd
    refine ⟨⟨_, forM_cons_eq_ok.2 ⟨_, hcode _ rfl, rfl⟩, rfl⟩, ⟨g₁, _, hbefore,
      forM_append_eq_ok.2 ⟨g₁, hbefore, forM_cons_eq_ok.2 ⟨_, hd, rfl⟩⟩, ?_, hg₁, ?_⟩,
      fun hname => ?_, template_eq_iff, fun hleaves heq => ?_⟩
    · rw [hg₁]
    · rw [leftBy_concat, hg₁]
    · obtain ⟨-, -, himage⟩ := forM_funDef (before ++ [d]) (by rw [leftBy_concat, hg₁]) hafter
      rw [himage _ hname, Image.install, Table.get?_put, hg₁]
      simp [FunDef.template]
    · obtain ⟨k, hk⟩ := hout.stores hleaves
      obtain hzero | hsettled := template_eq_iff.1 heq
      · exact hzero
      · cases hsettled _ hk
  · refine ⟨[], fun before after g h => ?_⟩
    obtain ⟨g₁, hbefore, h⟩ := forM_append_eq_ok.1 h
    obtain ⟨g₂, hd, -⟩ := forM_cons_eq_ok.1 h
    obtain ⟨hstructs, -, -⟩ := forM_funDef [] rfl hbefore
    obtain ⟨g₃, hd'⟩ := hfail g₁ hstructs
    cases hd.symm.trans hd'

namespace Shifted

def first : FunDef where
  returns := ⟨false, some (word .intType "int")⟩
  name := word .id "f"
  params := [⟨some ⟨false, some (word .intType "int")⟩, some (word .id "x")⟩]
  body := [.ret (mention "x")]

def second : FunDef :=
  procedure "main" [declaring .intType "int" "y" (some (number "5")), printing (mention "y")]

end Shifted

open Shifted in
/-- The variable of a main function is numbered behind the parameter of the function before it. -/
theorem generate_separate_second : ∃ code g, Compiler.generate ⟨[], [first, second]⟩ = (g, none) ∧
    g.image.get? "main" = some (second.template code (leftBy [first])) ∧
    (leftBy [first]).total = 1 ∧
    second.template code (leftBy [first]) ≠ second.template code .empty := by
  obtain ⟨code, h⟩ := generate_separate [] second
  have hgen : Compiler.generate ⟨[], [first, second]⟩ =
      ((Compiler.generate ⟨[], [first, second]⟩).1, none) := rfl
  obtain ⟨-, -, himage, -, hown⟩ := h [first] [] _ hgen
  refine ⟨code, _, hgen, himage (by simp), rfl, fun heq => ?_⟩
  cases hown (by decide) heq

/-- The same main function behind another function and by itself. Its variable should have the same
number in both and no variables should be left. -/
theorem generate_behind_parameter :
    let main (k : Int) : Template := Template.append ⟨"main", 0, #[]⟩
      [.push (.int 5), .store (.int k), .load (.int k), .write, .push .null, .ret]
    let behind := Compiler.compile true
      (.ofText "int f(int x) \x7breturn x;\x7d void main() \x7bint y = 5; print(y);\x7d")
    let alone := Compiler.compile true (.ofText "void main() \x7bint y = 5; print(y);\x7d")
    behind.1.image.get? "main" = some (main 1) ∧ behind.1.offsets = ⟨[[], ["y"], [], ["x"]]⟩ ∧
      alone.1.image.get? "main" = some (main 0) ∧ alone.1.offsets = ⟨[[], ["y"]]⟩ := by
  decide +kernel

end StackLang
