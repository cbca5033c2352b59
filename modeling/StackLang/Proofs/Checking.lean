import Mathlib.Data.List.Nodup
import StackLang.Compiler
import StackLang.Proofs.Results

namespace StackLang

namespace Table

variable {κ α : Type} [BEq κ] [LawfulBEq κ]

theorem contains_iff {t : Table κ α} {k : κ} : t.contains k ↔ k ∈ t.keys := by
  simp only [contains, keys, List.any_eq_true, List.mem_map, beq_iff_eq]

theorem put_of_notMem {t : Table κ α} {k : κ} (h : k ∉ t.keys) (a : α) :
    t.put k a = ⟨t.entries ++ [(k, a)]⟩ :=
  if_neg fun hk => h (contains_iff.1 hk)

end Table

/-- The name of a variable and the name of its type. -/
def VarDef.entry? (d : VarDef) : Option (String × String) := do
  let name ← d.name
  let type ← d.type
  let typeName ← type.name
  return (name.lexeme, typeName.lexeme)

namespace Checker

variable {α β : Type} {c c' : Checker}

theorem complain_eq_ok {e : StaticError} {a : α} : ¬complain e c = .ok a c' := by
  intro h
  cases h

theorem require_eq_ok {P : Prop} [Decidable P] {e : StaticError} {x : Check β} {f : α → Check β}
    {b : β} : (if P then x else complain e >>= f) c = .ok b c' ↔ P ∧ x c = .ok b c' := by
  by_cases h : P
  · rw [if_pos h, and_iff_right h]
  · rw [if_neg h, bind_eq_ok]
    simp [h, complain_eq_ok]

theorem refuse_eq_ok {P : Prop} [Decidable P] {e : StaticError} {x : Check β} {f : α → Check β}
    {b : β} : (if P then complain e >>= f else x) c = .ok b c' ↔ ¬P ∧ x c = .ok b c' := by
  by_cases h : P
  · rw [if_pos h, bind_eq_ok]
    simp [h, complain_eq_ok]
  · rw [if_neg h, and_iff_right h]

theorem get_bind {f : Checker → Check α} : (get >>= f) c = f c c := rfl

theorem modify_eq_ok {f : Checker → Checker} : (modify f : Check Unit) c = .ok () c' ↔ f c = c' := by
  have hrun : (modify f : Check Unit) c = .ok () (f c) := rfl
  rw [hrun, EStateM.Result.ok.injEq, and_iff_right rfl]

theorem onScopes_eq_ok {f : Scopes String → Scopes String} :
    onScopes f c = .ok () c' ↔ { c with scopes := f c.scopes } = c' := modify_eq_ok

theorem definition_eq_ok {d : VarDef} {name : Token} {type : String} :
    definition d c = .ok (name, type) c' ↔
      d.name = some name ∧ d.entry? = some (name.lexeme, type) ∧ c = c' := by
  simp only [definition, bind_eq_ok, need_eq_ok, pure, EStateM.pure, EStateM.Result.ok.injEq,
    Prod.mk.injEq, VarDef.entry?, Option.bind_eq_bind, Option.bind_eq_some_iff]
  constructor
  · rintro ⟨_, _, ⟨hname, rfl⟩, t, _, ⟨ht, rfl⟩, u, _, ⟨hu, rfl⟩, ⟨rfl, rfl⟩, rfl⟩
    exact ⟨hname, ⟨_, hname, t, ht, u, hu, rfl⟩, rfl⟩
  · rintro ⟨hname, ⟨_, hname', t, ht, u, hu, hentry⟩, rfl⟩
    cases hname.symm.trans hname'
    cases hentry
    exact ⟨_, _, ⟨hname, rfl⟩, t, _, ⟨ht, rfl⟩, u, _, ⟨hu, rfl⟩, ⟨rfl, rfl⟩, rfl⟩

/-- A definition is recorded if its type is a base type or any name that is in scope, and its name is
not taken in the innermost scope. -/
theorem varDef_eq_ok {d : VarDef} : varDef d c = .ok () c' ↔ ∃ name type,
    d.entry? = some (name, type) ∧ (type ∈ baseTypes ∨ c.scopes.contains type) ∧
      c.scopes.containsHere name = false ∧
      { c with scopes := c.scopes.put name type } = c' := by
  have hrest {name : Token} {type : String} : (do
      let scopes := (← get).scopes
      unless type ∈ baseTypes ∨ scopes.contains type do complain (.unknownStruct type)
      if scopes.containsHere name.lexeme then complain (.alreadyDefined name.lexeme)
      onScopes (·.put name.lexeme type) : Check Unit) c = .ok () c' ↔
      (type ∈ baseTypes ∨ c.scopes.contains type) ∧ c.scopes.containsHere name.lexeme = false ∧
        { c with scopes := c.scopes.put name.lexeme type } = c' := by
    simp only [get_bind, require_eq_ok, refuse_eq_ok, onScopes_eq_ok, Bool.not_eq_true]
  constructor
  · intro h
    obtain ⟨⟨name, type⟩, c₁, hdef, h⟩ := bind_eq_ok.1 h
    obtain ⟨-, hentry, rfl⟩ := definition_eq_ok.1 hdef
    exact ⟨name.lexeme, type, hentry, hrest.1 h⟩
  · rintro ⟨name, type, hentry, h⟩
    obtain ⟨t, ht⟩ : ∃ t, d.name = some t := by
      cases hname : d.name with
      | none => simp [VarDef.entry?, hname] at hentry
      | some t => exact ⟨t, rfl⟩
    obtain rfl : t.lexeme = name := by
      simp only [VarDef.entry?, ht, Option.bind_eq_bind, Option.bind_some,
        Option.bind_eq_some_iff] at hentry
      obtain ⟨_, -, _, -, hentry⟩ := hentry
      cases hentry
      rfl
    exact bind_eq_ok.2 ⟨(t, type), c, definition_eq_ok.2 ⟨ht, hentry, rfl⟩, hrest.2 h⟩

theorem recordStruct_eq_ok {d : StructDef} : recordStruct d c = .ok () c' ↔
    d.name.lexeme ∉ c.structs.keys ∧
      c' = { c with structs := ⟨c.structs.entries ++ [(d.name.lexeme, d)]⟩ } := by
  have hrun : recordStruct d c = .ok () c' ↔ ¬c.structs.contains d.name.lexeme ∧
      { c with structs := c.structs.put d.name.lexeme d } = c' := by
    simp only [recordStruct, get_bind, refuse_eq_ok, modify_eq_ok]
  rw [hrun, Table.contains_iff]
  refine and_congr_right fun hname => ?_
  rw [Table.put_of_notMem hname, eq_comm]

theorem recordFunction_eq_ok {d : FunDef} : recordFunction d c = .ok () c' ↔
    d.name.lexeme ∉ c.functions.keys ∧ d.name.lexeme ∉ builtIns ∧
      (d.name.lexeme = "main" → (∃ t, d.returns.name = some t ∧ t.lexeme = "void") ∧ d.params = []) ∧
      c' = { c with functions := ⟨c.functions.entries ++ [(d.name.lexeme, d)]⟩ } := by
  have hrun : recordFunction d c = .ok () c' ↔ ¬c.functions.contains d.name.lexeme ∧
      d.name.lexeme ∉ builtIns ∧
      (d.name.lexeme = "main" → (∃ t, d.returns.name = some t ∧ t.lexeme = "void") ∧ d.params = []) ∧
      { c with functions := c.functions.put d.name.lexeme d } = c' := by
    simp only [recordFunction, get_bind, refuse_eq_ok]
    by_cases hmain : d.name.lexeme = "main"
    · simp only [hmain, if_true, bind_eq_ok, need_eq_ok, require_eq_ok, modify_eq_ok,
        List.isEmpty_iff]
      constructor
      · rintro ⟨hnew, hbuiltIn, t, _, ⟨ht, rfl⟩, hvoid, hparams, rfl⟩
        exact ⟨hnew, hbuiltIn, fun _ => ⟨⟨t, ht, hvoid⟩, hparams⟩, rfl⟩
      · rintro ⟨hnew, hbuiltIn, hshape, rfl⟩
        obtain ⟨⟨t, ht, hvoid⟩, hparams⟩ := hshape trivial
        exact ⟨hnew, hbuiltIn, t, c, ⟨ht, rfl⟩, hvoid, hparams, rfl⟩
    · simp [hmain, modify_eq_ok]
  rw [hrun, Table.contains_iff]
  refine and_congr_right fun hname => ?_
  rw [Table.put_of_notMem hname, eq_comm (a := c')]

theorem forM_recordStruct {l : List StructDef} (h : c.structs.keys.Nodup) :
    l.forM recordStruct c = .ok () c' ↔ (c.structs.keys ++ l.map (·.name.lexeme)).Nodup ∧
      { c with structs := ⟨c.structs.entries ++ l.map fun d => (d.name.lexeme, d)⟩ } = c' := by
  induction l generalizing c with
  | nil =>
    rw [List.map_nil, List.map_nil, List.append_nil, List.append_nil, and_iff_right h]
    exact modify_eq_ok (f := id)
  | cons d l ih =>
    have hkeys : (⟨c.structs.entries ++ [(d.name.lexeme, d)]⟩ : Table String StructDef).keys =
        c.structs.keys ++ [d.name.lexeme] := by simp [Table.keys]
    have hsplit : c.structs.keys ++ (d :: l).map (·.name.lexeme) =
        c.structs.keys ++ [d.name.lexeme] ++ l.map (·.name.lexeme) := by simp
    have hentries : c.structs.entries ++ (d :: l).map (fun d => (d.name.lexeme, d)) =
        c.structs.entries ++ [(d.name.lexeme, d)] ++ l.map fun d => (d.name.lexeme, d) := by simp
    have hnew : (c.structs.keys ++ [d.name.lexeme]).Nodup ↔ d.name.lexeme ∉ c.structs.keys := by
      rw [← List.concat_eq_append, List.nodup_concat, and_iff_left h]
    rw [forM_cons_eq_ok, hsplit, hentries]
    simp only [recordStruct_eq_ok]
    constructor
    · rintro ⟨_, ⟨hname, rfl⟩, hl⟩
      rwa [ih (by rw [hkeys]; exact hnew.2 hname), hkeys] at hl
    · rintro ⟨hnodup, hc⟩
      have hfirst := hnodup.sublist (List.sublist_append_left _ _)
      refine ⟨_, ⟨hnew.1 hfirst, rfl⟩, ?_⟩
      rw [ih (by rw [hkeys]; exact hfirst), hkeys]
      exact ⟨hnodup, hc⟩

/-- The scope that holds the names of all structs. -/
def structScope (c : Checker) : Scopes String :=
  c.structs.keys.foldl (·.put · "struct") c.scopes.enter

theorem forM_put (l : List String) (c : Checker) :
    l.forM (fun name => onScopes (·.put name "struct")) c =
      .ok () { c with scopes := l.foldl (·.put · "struct") c.scopes } := by
  induction l generalizing c with
  | nil => rfl
  | cons name l ih => exact ih { c with scopes := c.scopes.put name "struct" }

theorem program_eq_ok {p : Program} : program p c = .ok () c' ↔ ∃ c₁ c₂ c₃ c₄,
    p.structs.forM recordStruct c = .ok () c₁ ∧ p.functions.forM recordFunction c₁ = .ok () c₂ ∧
      c₂.functions.contains "main" ∧
      c₂.structs.values.forM structDef { c₂ with scopes := structScope c₂ } = .ok () c₃ ∧
      c₂.functions.values.forM funDef c₃ = .ok () c₄ ∧
      { c₄ with scopes := c₄.scopes.leave } = c' := by
  have henter {c : Checker} : onScopes Scopes.enter c = .ok () { c with scopes := c.scopes.enter } :=
    rfl
  simp only [program, bind_eq_ok, get_bind, require_eq_ok, onScopes_eq_ok, henter, forM_put,
    EStateM.Result.ok.injEq]
  constructor
  · rintro ⟨_, c₁, hstructs, _, c₂, hfunctions, hmain, _, _, ⟨-, rfl⟩, _, _, ⟨-, rfl⟩, _, c₃, hfields,
      _, c₄, hbodies, hc'⟩
    exact ⟨c₁, c₂, c₃, c₄, hstructs, hfunctions, hmain, hfields, hbodies, hc'⟩
  · rintro ⟨c₁, c₂, c₃, c₄, hstructs, hfunctions, hmain, hfields, hbodies, hc'⟩
    exact ⟨_, c₁, hstructs, _, c₂, hfunctions, hmain, (), _, ⟨trivial, rfl⟩, (), _, ⟨trivial, rfl⟩, _, c₃,
      hfields, _, c₄, hbodies, hc'⟩

theorem check_eq_none {p : Program} :
    (Compiler.check p).2 = none ↔ ∃ c, program p .empty = .ok () c := by
  rw [Compiler.check, EStateM.run]
  cases program p .empty <;> simp [outcome]

end Checker
end StackLang
