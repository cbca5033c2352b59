import StackLang.Proofs.Checking

namespace StackLang

def FunDef.emptyMain (line column line' column' : Nat) : FunDef where
  returns := ⟨false, some ⟨.voidType, "void", line, column⟩⟩
  name := ⟨.id, "main", line', column'⟩
  params := []
  body := []

namespace Checker

def Known (names : List String) (entries : List (String × String)) : Prop :=
  ∀ before name type after, entries = before ++ (name, type) :: after →
    type ∈ baseTypes ∨ type ∈ names ∨ type ∈ before.map Prod.fst

theorem known_cons {names : List String} {name type : String} {entries : List (String × String)} :
    Known names ((name, type) :: entries) ↔
      (type ∈ baseTypes ∨ type ∈ names) ∧ Known (names ++ [name]) entries := by
  constructor
  · intro h
    refine ⟨by simpa using h [] name type entries rfl, fun before name' type' after heq => ?_⟩
    have hlater := h ((name, type) :: before) name' type' after (by rw [heq, List.cons_append])
    simpa [or_assoc] using hlater
  · rintro ⟨hfirst, hrest⟩ before name' type' after heq
    cases before with
    | nil =>
      cases heq
      simpa using hfirst
    | cons e before =>
      cases heq
      have hlater := hrest before name' type' after rfl
      simpa [or_assoc] using hlater

theorem forM_varDef {l : List VarDef} {c c' : Checker} {t : Table String String}
    (hc : c.scopes = ⟨[t]⟩) (ht : t.keys.Nodup) :
    l.forM varDef c = .ok () c' ↔ ∃ entries, l.map VarDef.entry? = entries.map some ∧
      (t.keys ++ entries.map Prod.fst).Nodup ∧ Known t.keys entries ∧
      { c with scopes := ⟨[⟨t.entries ++ entries⟩]⟩ } = c' := by
  induction l generalizing c t with
  | nil =>
    constructor
    · intro h
      cases h
      refine ⟨[], rfl, by simpa using ht, by simp [Known], ?_⟩
      rw [List.append_nil, ← hc]
    · rintro ⟨entries, hentries, -, -, rfl⟩
      obtain rfl : entries = [] := by simpa using hentries.symm
      rw [List.append_nil, ← hc]
      rfl
  | cons d l ih =>
    have hkeys (name type : String) :
        (⟨t.entries ++ [(name, type)]⟩ : Table String String).keys = t.keys ++ [name] := by
      simp [Table.keys]
    have hcontains (name : String) : c.scopes.contains name ↔ name ∈ t.keys := by
      rw [hc, ← Table.contains_iff]
      simp [Scopes.contains]
    have hhere (name : String) : c.scopes.containsHere name = false ↔ name ∉ t.keys := by
      rw [hc, ← Table.contains_iff]
      simp [Scopes.containsHere]
    have hput {name : String} (hname : name ∉ t.keys) (type : String) :
        c.scopes.put name type = ⟨[⟨t.entries ++ [(name, type)]⟩]⟩ := by
      simp only [Scopes.put, hc, Table.put_of_notMem hname]
    have hnew (name : String) : (t.keys ++ [name]).Nodup ↔ name ∉ t.keys := by
      rw [← List.concat_eq_append, List.nodup_concat, and_iff_left ht]
    -- The first definition puts its entry behind those of the scope, and the others follow there.
    rw [forM_cons_eq_ok]
    simp only [varDef_eq_ok, hcontains, hhere]
    constructor
    · rintro ⟨_, ⟨name, type, hentry, htype, hname, rfl⟩, hl⟩
      rw [ih (hput hname type) (by rw [hkeys]; exact (hnew name).2 hname)] at hl
      obtain ⟨entries, hentries, hnodup, hknown, rfl⟩ := hl
      rw [hkeys] at hnodup hknown
      refine ⟨(name, type) :: entries, ?_, by simpa using hnodup, known_cons.2 ⟨htype, hknown⟩, ?_⟩
      · rw [List.map_cons, List.map_cons, hentry, hentries]
      · rw [List.append_assoc, List.singleton_append]
    · rintro ⟨entries, hentries, hnodup, hknown, rfl⟩
      cases entries with
      | nil => cases hentries
      | cons e entries =>
        obtain ⟨name, type⟩ := e
        obtain ⟨hentry, hentries⟩ := List.cons.inj hentries
        obtain ⟨htype, hknown⟩ := known_cons.1 hknown
        have hnodup' : (t.keys ++ [name] ++ entries.map Prod.fst).Nodup := by simpa using hnodup
        have hfirst := hnodup'.sublist (List.sublist_append_left _ _)
        have hname := (hnew name).1 hfirst
        refine ⟨_, ⟨name, type, hentry, htype, hname, rfl⟩, ?_⟩
        rw [ih (hput hname type) (by rw [hkeys]; exact hfirst), hkeys]
        exact ⟨entries, hentries, hnodup', hknown, by simp⟩

theorem forM_structDef (l : List StructDef) :
    l.forM structDef = (l.flatMap StructDef.fields).forM varDef := by
  induction l with
  | nil => rfl
  | cons d l ih =>
    rw [List.flatMap_cons]
    have happend : (d.fields ++ l.flatMap StructDef.fields).forM varDef =
        (do d.fields.forM varDef; (l.flatMap StructDef.fields).forM varDef) := List.forM_append
    rw [happend, ← ih]
    rfl

theorem foldl_put {names : List String} {t : Table String String}
    (h : (t.keys ++ names).Nodup) : names.foldl (·.put · "struct") (⟨[t]⟩ : Scopes String) =
      ⟨[⟨t.entries ++ names.map (·, "struct")⟩]⟩ := by
  induction names generalizing t with
  | nil => simp
  | cons name names ih =>
    have hname : name ∉ t.keys := fun hmem =>
      (List.nodup_append.1 h).2.2 name hmem name List.mem_cons_self rfl
    have hput : (⟨[t]⟩ : Scopes String).put name "struct" =
        ⟨[⟨t.entries ++ [(name, "struct")]⟩]⟩ := by
      simp only [Scopes.put, Table.put_of_notMem hname]
    rw [List.foldl_cons, hput, ih (by simpa [Table.keys] using h)]
    simp

theorem emptyMain_recorded {c c' : Checker} {line column line' column' : Nat}
    (hc : c.functions = ∅) :
    [FunDef.emptyMain line column line' column'].forM recordFunction c = .ok () c' ↔
      { c with functions := ⟨[("main", .emptyMain line column line' column')]⟩ } = c' := by
  rw [forM_cons_eq_ok]
  simp only [recordFunction_eq_ok, hc]
  constructor
  · rintro ⟨_, ⟨-, -, -, rfl⟩, h⟩
    cases h
    rfl
  · rintro rfl
    have hname : "main" ∉ builtIns := by decide
    exact ⟨_, ⟨List.not_mem_nil, hname, fun _ => ⟨⟨_, rfl, rfl⟩, rfl⟩, rfl⟩, rfl⟩

theorem emptyMain_checked (c : Checker) (line column line' column' : Nat) :
    ∃ c', [FunDef.emptyMain line column line' column'].forM funDef c = .ok () c' :=
  ⟨_, rfl⟩

def recorded (structs : List StructDef) (main : FunDef) : Checker :=
  ⟨⟨structs.map fun d => (d.name.lexeme, d)⟩, ⟨[("main", main)]⟩, .empty, none⟩

theorem structScope_recorded {structs : List StructDef} (main : FunDef)
    (h : (structs.map (·.name.lexeme)).Nodup) : structScope (recorded structs main) =
      ⟨[⟨(structs.map (·.name.lexeme)).map (·, "struct")⟩]⟩ := by
  have hkeys : (recorded structs main).structs.keys = structs.map (·.name.lexeme) := by
    simp [recorded, Table.keys]
  rw [structScope, hkeys]
  exact foldl_put (t := ∅) h

theorem fields_checked {structs : List StructDef} {main : FunDef}
    (h : (structs.map (·.name.lexeme)).Nodup) :
    (∃ c, (recorded structs main).structs.values.forM structDef
      { recorded structs main with scopes := structScope (recorded structs main) } = .ok () c) ↔
    ∃ entries, (structs.flatMap StructDef.fields).map VarDef.entry? = entries.map some ∧
      (structs.map (·.name.lexeme) ++ entries.map Prod.fst).Nodup ∧
      Known (structs.map (·.name.lexeme)) entries := by
  have hvalues : (recorded structs main).structs.values = structs := by
    simp only [recorded, Table.values, List.map_map]
    exact List.map_id structs
  have hkeys : (⟨(structs.map (·.name.lexeme)).map (·, "struct")⟩ : Table String String).keys =
      structs.map (·.name.lexeme) := by
    simp [Table.keys]
  have hrun (c : Checker) : (structs.flatMap StructDef.fields).forM varDef
      { recorded structs main with scopes := structScope (recorded structs main) } = .ok () c ↔ _ :=
    forM_varDef (structScope_recorded main h) (by rwa [hkeys])
  rw [hvalues, forM_structDef]
  simp only [hrun, hkeys]
  constructor
  · rintro ⟨_, entries, hentries, hnodup, hknown, -⟩
    exact ⟨entries, hentries, hnodup, hknown⟩
  · rintro ⟨entries, hentries, hnodup, hknown⟩
    exact ⟨_, entries, hentries, hnodup, hknown, rfl⟩

end Checker

open Checker

/-- Structs with an empty main function are accepted in just these cases: the names of all structs and
the names of the fields of all structs are different from each other, and the type of each field is
a base type, a struct, or the name of a field that stands before it. -/
theorem check_structs_iff (structs : List StructDef) (line column line' column' : Nat) :
    (Compiler.check ⟨structs, [.emptyMain line column line' column']⟩).2 = none ↔
      ∃ entries, (structs.flatMap StructDef.fields).map VarDef.entry? = entries.map some ∧
        (structs.map (·.name.lexeme) ++ entries.map Prod.fst).Nodup ∧
        ∀ before name type after, entries = before ++ (name, type) :: after →
          type ∈ baseTypes ∨ type ∈ structs.map (·.name.lexeme) ∨ type ∈ before.map Prod.fst := by
  rw [check_eq_none]
  simp only [program_eq_ok]
  constructor
  · rintro ⟨_, c₁, c₂, c₃, c₄, hstructs, hmain, -, hfields, -, -⟩
    obtain ⟨hnodup, rfl⟩ := (forM_recordStruct (c := .empty) List.nodup_nil).1 hstructs
    obtain rfl := (emptyMain_recorded rfl).1 hmain
    exact (fields_checked hnodup).1 ⟨c₃, hfields⟩
  · intro h
    have hnodup : (structs.map (·.name.lexeme)).Nodup := by
      obtain ⟨entries, -, hnodup, -⟩ := h
      exact hnodup.sublist (List.sublist_append_left _ _)
    obtain ⟨c₃, hfields⟩ := (fields_checked hnodup).2 h
    obtain ⟨c₄, hbody⟩ := emptyMain_checked c₃ line column line' column'
    exact ⟨_, _, _, c₃, c₄, (forM_recordStruct (c := .empty) List.nodup_nil).2 ⟨hnodup, rfl⟩,
      (emptyMain_recorded rfl).2 rfl, rfl, hfields, hbody, rfl⟩

/-- Two structs may not have fields of one name, and a field may have the name of the field before it
for its type. -/
theorem check_fields_together :
    (Compiler.compile true (.ofText
      "struct A \x7bint x;\x7d struct B \x7bint x;\x7d void main() \x7b\x7d")).2 =
        some (.static (.alreadyDefined "x")) ∧
      (Compiler.compile true (.ofText "struct A \x7bint x; x y;\x7d void main() \x7b\x7d")).2 =
        none := by
  decide +kernel

end StackLang
