import Mathlib.Data.List.ReduceOption
import StackLang.Proofs.Checking
import StackLang.Proofs.Separation

namespace StackLang

/-- A call with the number of its arguments, or a variable that is read or written where the given
variables are declared. -/
inductive Reference where
  | call (callee : String) (count : Nat)
  | load (name : String) (declared : Offsets)
  | store (name : String) (declared : Offsets)
  deriving Repr, DecidableEq

namespace Reference

def op : Reference → Op
  | call callee _ => .call (.text callee)
  | load name declared => .load (declared.operand name)
  | store name declared => .store (declared.operand name)

/-- The function that is called can be called with as many arguments, or the variable has an offset. -/
def Resolves (image : Image) : Reference → Prop
  | call callee count => ∃ t, image.get? callee = some t ∧ t.arity = count
  | load name declared | store name declared => ∃ n : Nat, declared.operand name = .int n

/-- The function is one of these with as many parameters, or the variable is declared. -/
def declared (functions : List FunDef) : Reference → Bool
  | call callee count => functions.any fun d => d.name.lexeme = callee ∧ d.params.length = count
  | load name declared | store name declared => name ∈ declared.blocks.flatten

end Reference

def Op.refers : Op → Bool
  | call _ | load _ | store _ => true
  | _ => false

def Template.references (t : Template) : List Op := (t.code.toList.map Instr.op).filter Op.refers

def builtInArguments? (function : String) : Option Nat :=
  if (Generator.conversion? function).isSome then some 1
  else if function = "get" then some 2
  else if function = "input" then some 0
  else none

section References

variable (structs : List String)

mutual

/-- The references of an expression in the order of evaluation. -/
def Expr.references (o : Offsets) : Expr → List Reference
  | .mk _ first op rest =>
    let left := first.references o
    let right := match rest with
      | some e => e.references o
      | none => []
    if Generator.swaps op then right ++ left else left ++ right

def Term.references (o : Offsets) : Term → List Reference
  | .literal _ => []
  | .create _ size args =>
    match size with
    | some e => e.references o
    | none =>
      match args with
      | some l => (argumentReferences o l).flatten
      | none => []
  | .path refs => pathReferences o refs
  | .call name args =>
    let l := match args with
      | some l => argumentReferences o l
      | none => []
    match builtInArguments? name.lexeme with
    | some n => (l.take n).flatten
    | none => l.flatten ++ [.call name.lexeme l.length]
  | .group e => e.references o

def argumentReferences (o : Offsets) : List Expr → List (List Reference)
  | [] => []
  | e :: l => e.references o :: argumentReferences o l

def pathReferences (o : Offsets) : List Ref → List Reference
  | [] => []
  | .mk name i :: refs =>
    let index := match i with
      | some e => e.references o
      | none => []
    .load name.lexeme o :: index ++ selectorReferences o refs

/-- A field with an index is taken for a variable if there is a variable or a struct of its name. -/
def selectorReferences (o : Offsets) : List Ref → List Reference
  | [] => []
  | .mk name i :: refs =>
    match i with
    | some e =>
      let field := if name.lexeme ∈ o.blocks.flatten ∨ name.lexeme ∈ structs then
        [.load name.lexeme o] else []
      field ++ e.references o ++ selectorReferences o refs
    | none => selectorReferences o refs

end

/-- A variable is declared before its initial value is evaluated. -/
def VarDecl.references (o : Offsets) (d : VarDecl) : List Reference :=
  let o' := d.var.label.foldl Offsets.declare o
  let value := match d.init with
    | some e => e.references structs o'
    | none => []
  value ++ d.var.label.map (.store · o')

def Assign.references (o : Offsets) (a : Assign) : List Reference :=
  let value := a.value.references structs o
  match a.target with
  | [] => []
  | [.mk name none] => value ++ [.store name.lexeme o]
  | .mk name none :: _ => .load name.lexeme o :: value
  | .mk name (some e) :: refs =>
    -- Fields behind an index are read as variables as well.
    let inner := refs.dropLast.map fun r => Reference.load r.name.lexeme o
    .load name.lexeme o :: (e.references structs o ++ (inner ++ value))

mutual

def Stmt.references (o : Offsets) : Stmt → List Reference
  | .ret e | .expr e => e.references structs o
  | .decl d => d.references structs o
  | .assign a => a.references structs o
  | .loop condition body => condition.references structs o ++ stmtReferences o.enter body
  | .count init condition step body =>
    let o' := init.var.label.foldl Offsets.declare o.enter
    init.references structs o.enter ++ condition.references structs o' ++
      stmtReferences o'.enter body ++ step.references structs o'
  | .choice (.mk condition body) others otherwise =>
    condition.references structs o ++ stmtReferences o.enter body ++ branchReferences o others ++
      stmtReferences o.enter otherwise
  | .call name args => (Term.call name args).references structs o

def stmtReferences (o : Offsets) : List Stmt → List Reference
  | [] => []
  | s :: l => s.references o ++ stmtReferences (s.declares.foldl Offsets.declare o) l

def branchReferences (o : Offsets) : List Branch → List Reference
  | [] => []
  | .mk condition body :: l =>
    condition.references structs o ++ stmtReferences o.enter body ++ branchReferences o l

end

/-- The parameters of a function are declared like variables, unless it is the main function. -/
def FunDef.statements (d : FunDef) : List Stmt :=
  (if d.name.lexeme = "main" then [] else d.params.map fun v => .decl ⟨v, none⟩) ++ d.body

/-- The references of a function behind the variables that were left. -/
def FunDef.references (left : Offsets) (d : FunDef) : List Reference :=
  stmtReferences structs left.enter d.statements

end References

namespace Template

/-- The operations of a function with those left out that refer to nothing. -/
def marks (t : Template) : List (Option Op) :=
  t.code.toList.map fun i => if i.op.refers then some i.op else none

theorem reduceOption_marks (t : Template) : t.marks.reduceOption = t.references := by
  unfold marks references
  induction t.code.toList with
  | nil => rfl
  | cons i l ih =>
    by_cases h : i.op.refers
    · simp [h, ← ih]
    · simp [h, ← ih]

end Template

namespace Generator

def marks (g : Generator) : List (Option Op) := g.current.elim [] Template.marks

/-- Generation that adds code with these references if it succeeds, and leaves these variables
declared. Jumps may be completed at the given places. -/
def Refers (structs : Table String StructDef) (places : List Nat) (o o' : Offsets) (x : Gen Unit)
    (l : List Reference) : Prop :=
  ∀ ⦃g g' : Generator⦄, g.structs = structs → (∀ k ∈ places, g.marks[k]? = some none) →
    g.offsets = o → x g = .ok () g' →
      g'.structs = structs ∧ g'.offsets = o' ∧
        ∃ m, g'.marks = g.marks ++ m ∧ m.reduceOption = l.map Reference.op

theorem template_eq_ok {t : Template} {g g' : Generator} :
    template g = .ok t g' ↔ g.current = some t ∧ g = g' := by
  obtain ⟨image, current, offsets, structs⟩ := g
  cases current with
  | none =>
    have hfail : template ⟨image, none, offsets, structs⟩ =
        .error (.crash .missingPart) ⟨image, none, offsets, structs⟩ := rfl
    simp [hfail]
  | some t' =>
    have hrun : template ⟨image, some t', offsets, structs⟩ =
        .ok t' ⟨image, some t', offsets, structs⟩ := rfl
    simp [hrun]

theorem emit_eq_ok {op : Op} {g g' : Generator} : emit op g = .ok () g' ↔
    ∃ t, g.current = some t ∧
      { g with current := some { t with code := t.code.push (.plain op) } } = g' := by
  unfold emit
  rw [bind_eq_ok]
  constructor
  · rintro ⟨t, _, htemplate, hrun⟩
    obtain ⟨ht, rfl⟩ := template_eq_ok.1 htemplate
    cases hrun
    exact ⟨t, ht, by simp [ht]⟩
  · rintro ⟨t, ht, rfl⟩
    refine ⟨t, g, template_eq_ok.2 ⟨ht, rfl⟩, ?_⟩
    have hrun (f : Array Instr → Array Instr) : onCode f g = .ok () { g with
      current := g.current.map fun t => { t with code := f t.code } } := rfl
    rw [hrun, ht]
    rfl

theorem field_ok {struct name : String} {i : Nat} {g g' : Generator}
    (h : field struct i g = .ok name g') : g = g' := by
  have hget (f : Generator → Gen String) : (get >>= f) g = f g g := rfl
  unfold field at h
  rw [hget] at h
  cases hstruct : g.structs.get? struct with
  | none =>
    simp only [hstruct] at h
    cases h
  | some d =>
    cases hfield : d.fields[i]? with
    | none =>
      simp only [hstruct, hfield] at h
      cases h
    | some v =>
      simp only [hstruct, hfield] at h
      obtain ⟨t, g₁, ht, h⟩ := bind_eq_ok.1 h
      obtain ⟨-, rfl⟩ := need_eq_ok.1 ht
      cases h
      rfl

namespace Refers

variable {structs : Table String StructDef} {places : List Nat} {o o₁ o₂ o' : Offsets}
  {x y : Gen Unit} {l l' : List Reference}

protected theorem pure : Refers structs places o o (pure ()) [] := by
  intro g g' hstructs _ ho h
  cases h
  exact ⟨hstructs, ho, [], by simp, rfl⟩

protected theorem throw (e : Failure) : Refers structs places o o' (throw e) l := by
  intro g g' _ _ _ h
  cases h

theorem seq (hx : Refers structs places o o₁ x l) (hy : Refers structs places o₁ o₂ y l') :
    Refers structs places o o₂ (do x; y) (l ++ l') := by
  intro g g' hstructs hplaces ho h
  obtain ⟨⟨⟩, g₁, h₁, h⟩ := bind_eq_ok.1 h
  obtain ⟨hstructs, ho, m, hm, hl⟩ := hx hstructs hplaces ho h₁
  have hplaces₁ : ∀ k ∈ places, g₁.marks[k]? = some none := by
    intro k hk
    have hsome := hplaces k hk
    rw [hm, List.getElem?_append_left (List.getElem?_eq_some_iff.1 hsome).1, hsome]
  obtain ⟨hstructs, ho, m', hm', hl'⟩ := hy hstructs hplaces₁ ho h
  refine ⟨hstructs, ho, m ++ m', ?_, ?_⟩
  · rw [hm', hm, List.append_assoc]
  · rw [List.reduceOption_append, hl, hl', List.map_append]

theorem first (hx : Refers structs places o o₁ x l) (hy : Refers structs places o₁ o₂ y []) :
    Refers structs places o o₂ (do x; y) l := by
  have h := hx.seq hy
  rwa [List.append_nil] at h

theorem next (hx : Refers structs places o o₁ x []) (hy : Refers structs places o₁ o₂ y l) :
    Refers structs places o o₂ (do x; y) l := hx.seq hy

theorem ite {P : Prop} [Decidable P] (hx : P → Refers structs places o o' x l)
    (hy : ¬P → Refers structs places o o' y l) :
    Refers structs places o o' (if P then x else y) l := by
  split
  · exact hx ‹_›
  · exact hy ‹_›

theorem emit_eq {op : Op}
    (h : (if op.refers then [op] else []) = l.map Reference.op) :
    Refers structs places o o (Generator.emit op) l := by
  intro g g' hstructs _ ho hemit
  obtain ⟨t, ht, rfl⟩ := emit_eq_ok.1 hemit
  refine ⟨hstructs, ho, [if op.refers then some op else none], ?_, ?_⟩
  · simp [Generator.marks, ht, Template.marks, Instr.plain]
  · rw [← h]
    split <;> rfl

theorem emit {op : Op} (h : op.refers = false) :
    Refers structs places o o (Generator.emit op) [] :=
  emit_eq (by simp [h])

theorem offset {name : String} {f : Value → Gen Unit}
    (h : Refers structs places o o' (f (o.operand name)) l) :
    Refers structs places o o' (Generator.offset name >>= f) l := by
  intro g g' hstructs hplaces ho hrun
  simp only [bind, EStateM.bind, offset_eq] at hrun
  rw [ho] at hrun
  exact h hstructs hplaces ho hrun

theorem load {name : String} (hy : Refers structs places o o' y l) :
    Refers structs places o o' (do
      Generator.emit (.load (← Generator.offset name))
      y) (.load name o :: l) :=
  .offset (.seq (l := [.load name o]) (.emit_eq rfl) hy)

theorem store {name : String} : Refers structs places o o (do
    Generator.emit (.store (← Generator.offset name))) [.store name o] :=
  .offset (.emit_eq rfl)

theorem need {α : Type} {a? : Option α} {f : α → Gen Unit}
    (h : ∀ a, a? = some a → Refers structs places o o' (f a) l) :
    Refers structs places o o' (StackLang.need a? >>= f) l := by
  cases a? with
  | some a => exact h a rfl
  | none =>
    intro g g' _ _ _ hrun
    cases hrun

theorem field {struct : String} {i : Nat} {f : String → Gen Unit}
    (h : ∀ name, Refers structs places o o' (f name) l) :
    Refers structs places o o' (Generator.field struct i >>= f) l := by
  intro g g' hstructs hplaces ho hrun
  obtain ⟨name, g₁, hname, hrun⟩ := bind_eq_ok.1 hrun
  obtain rfl := field_ok hname
  exact h name hstructs hplaces ho hrun

theorem onOffsets (f : Offsets → Offsets) :
    Refers structs places o (f o) (Generator.onOffsets f) [] := by
  intro g g' hstructs _ ho hrun
  cases hrun
  exact ⟨hstructs, congrArg f ho, [], by simp [Generator.marks], rfl⟩

theorem here {f : Nat → Gen Unit} (h : ∀ k, Refers structs places o o' (f k) l) :
    Refers structs places o o' (Generator.here >>= f) l := by
  intro g g' hstructs hplaces ho hrun
  obtain ⟨k, g₁, hk, hrun⟩ := bind_eq_ok.1 hrun
  obtain ⟨t, g₂, ht, hk⟩ := bind_eq_ok.1 hk
  cases hk
  obtain ⟨-, rfl⟩ := template_eq_ok.1 ht
  exact h _ hstructs hplaces ho hrun

theorem jump {op : Op} {f : Nat → Gen Unit} (hop : op.refers = false)
    (h : ∀ k, Refers structs (k :: places) o o' (f k) l) :
    Refers structs places o o' (do
      let k ← Generator.here
      Generator.emit op
      f k) l := by
  intro g g' hstructs hplaces ho hrun
  obtain ⟨k, g₁, hk, hrun⟩ := bind_eq_ok.1 hrun
  obtain ⟨t, g₂, htemplate, hk⟩ := bind_eq_ok.1 hk
  obtain ⟨ht, rfl⟩ := template_eq_ok.1 htemplate
  cases hk
  obtain ⟨⟨⟩, g₁, hemit, hrun⟩ := bind_eq_ok.1 hrun
  obtain ⟨t', ht', hg₁⟩ := emit_eq_ok.1 hemit
  cases ht.symm.trans ht'
  -- The place of the jump is where the code ended before.
  have hmarks : g.marks = t.marks := by simp [Generator.marks, ht]
  have hlength : t.marks.length = t.code.size := by simp [Template.marks]
  have hnext : g₁.marks = t.marks ++ [none] := by
    rw [← hg₁]
    simp [Generator.marks, Template.marks, Instr.plain, hop]
  have hplaces₁ : ∀ i ∈ t.code.size :: places, g₁.marks[i]? = some none := by
    intro i hi
    rw [hnext]
    obtain rfl | hi := List.mem_cons.1 hi
    · rw [← hlength, List.getElem?_concat_length]
    · have hsome := hplaces i hi
      rw [hmarks] at hsome
      rw [List.getElem?_append_left (List.getElem?_eq_some_iff.1 hsome).1, hsome]
  obtain ⟨hstructs, ho, m, hm, hl⟩ := h t.code.size (by rw [← hg₁]; exact hstructs) hplaces₁
    (by rw [← hg₁]; exact ho) hrun
  refine ⟨hstructs, ho, none :: m, ?_, ?_⟩
  · rw [hm, hnext, hmarks, List.append_assoc, List.singleton_append]
  · rw [List.reduceOption_cons_of_none, hl]

theorem onCode {f : Array Instr → Array Instr}
    (h : ∀ t : Template, (∀ k ∈ places, t.marks[k]? = some none) →
      Template.marks { t with code := f t.code } = t.marks) :
    Refers structs places o o (Generator.onCode f) [] := by
  intro g g' hstructs hplaces ho hrun
  cases hrun
  refine ⟨hstructs, ho, [], ?_, rfl⟩
  cases ht : g.current with
  | none => simp [Generator.marks, ht]
  | some t =>
    have hmarks : g.marks = t.marks := by simp [Generator.marks, ht]
    rw [List.append_nil, hmarks, ← h t (by rwa [← hmarks])]
    simp [Generator.marks, ht]

theorem patch {op : Op} {k : Nat} (hop : op.refers = false) (hk : k ∈ places) :
    Refers structs places o o (Generator.patch k op) [] := by
  refine .onCode fun t hplaces => ?_
  have hset : Template.marks { t with code := t.code.setIfInBounds k (.plain op) } =
      t.marks.set k none := by
    simp [Template.marks, List.map_set, Instr.plain, hop]
  obtain ⟨hlt, hnone⟩ := List.getElem?_eq_some_iff.1 (hplaces k hk)
  have hsame := List.set_getElem_self hlt
  rw [hset]
  rwa [hnone] at hsame

theorem emitConversion {op : Op} (hop : op.refers = false) :
    Refers structs places o o (Generator.emitConversion op) [] := by
  have hshorten : Refers structs places o o (Generator.onCode fun code =>
      if code.back? = some (.plain (.push (.text " "))) then
        code.pop.push (.plain (.push (.text "")))
      else code) [] := by
    refine .onCode fun t _ => ?_
    split
    · rename_i hback
      rw [← Array.getLast?_toList] at hback
      obtain ⟨init, hinit⟩ := List.getLast?_eq_some_iff.1 hback
      simp [Template.marks, hinit, Instr.plain, Op.refers]
    · rfl
  exact .ite (fun _ => .seq hshorten (.emit hop)) fun _ => .emit hop

theorem select {name : String} (hy : Refers structs places o o' y l) :
    Refers structs places o o' (do
      let at? ← Generator.offset name
      if at? = .absent ∧ !(← get).structs.contains name then
        Generator.emit (.getField (.text name))
      else Generator.emit (.load at?)
      y)
      ((if name ∈ o.blocks.flatten ∨ name ∈ structs.keys then [.load name o] else []) ++ l) := by
  refine .offset fun g g' hstructs hplaces ho hrun => ?_
  have hget (f : Generator → Gen Unit) : (get >>= f) g = f g g := rfl
  rw [hget] at hrun
  have hcond : (o.operand name = .absent ∧ !g.structs.contains name) ↔
      ¬(name ∈ o.blocks.flatten ∨ name ∈ structs.keys) := by
    rw [Offsets.operand_eq_absent, hstructs, ← Table.contains_iff, not_or, Bool.not_eq_true,
      Bool.not_eq_eq_eq_not, Bool.not_true]
  by_cases hname : name ∈ o.blocks.flatten ∨ name ∈ structs.keys
  · rw [if_neg (by rwa [hcond, not_not])] at hrun
    rw [if_pos hname]
    exact Refers.seq (.emit_eq rfl) hy hstructs hplaces ho hrun
  · rw [if_pos (hcond.2 hname)] at hrun
    rw [if_neg hname]
    exact Refers.seq (.emit rfl) hy hstructs hplaces ho hrun

end Refers

section Walk

variable {structs : Table String StructDef} {places : List Nat} {o o' : Offsets}

theorem literal_refers (t : Token) : Refers structs places o o (literal t) [] := by
  obtain ⟨v, -, h⟩ | h | ⟨e, h⟩ := literal_cases t
  · rw [h]
    exact .emit rfl
  · rw [h]
    exact .pure
  · rw [h]
    exact .throw e

theorem operator_refers (op : Option Token) :
    Refers structs places o o (match op.bind fun t => operator? t.lexeme with
      | some o => emit o
      | none => pure ()) [] := by
  cases ho : op.bind fun t => operator? t.lexeme with
  | none => exact .pure
  | some o =>
    obtain ⟨t, -, ht⟩ := Option.bind_eq_some_iff.1 ho
    have hop : o.refers = false := by
      unfold operator? at ht
      split at ht <;> cases ht <;> rfl
    exact .emit hop

theorem conversion?_refers {name : String} {op : Op} (h : conversion? name = some op) :
    op.refers = false := by
  unfold conversion? at h
  split at h <;> cases h <;> rfl

theorem call_refers {name : String} {convert : Op → Gen Unit} {select user : Gen Unit}
    {l : List (List Reference)}
    (hconvert : ∀ op, op.refers = false → Refers structs places o o (convert op) (l.take 1).flatten)
    (hselect : Refers structs places o o select (l.take 2).flatten)
    (huser : Refers structs places o o user l.flatten) :
    Refers structs places o o (match conversion? name with
      | some op => convert op
      | none =>
        if name = "get" then select
        else if name = "input" then emit .read
        else do
          user
          emit (.call (.text name)))
      (match builtInArguments? name with
      | some n => (l.take n).flatten
      | none => l.flatten ++ [.call name l.length]) := by
  unfold builtInArguments?
  cases hop : conversion? name with
  | some op => exact hconvert op (conversion?_refers hop)
  | none =>
    by_cases hget : name = "get"
    · simp only [hget]
      exact hselect
    · by_cases hinput : name = "input"
      · simp only [hinput]
        exact .emit rfl
      · simp only [hget, hinput]
        exact .seq huser (.emit_eq rfl)

mutual

theorem expr_refers : (e : Expr) → Refers structs places o o (expr e) (e.references structs.keys o)
  | .mk negated first op none => by
    simp only [expr, Expr.references]
    have hop := @operator_refers structs places o op
    have hfirst := (term_refers first).first hop
    by_cases hswaps : swaps op
    · simp only [hswaps, if_true]
      have hfail : Refers structs places o o (throw (.crash .missingPart)) [] := .throw _
      exact .next hfail hfirst
    · simp only [hswaps, Bool.false_eq_true, if_false]
      exact .seq (term_refers first)
        (.ite (fun _ => .next (.emit rfl) hop) fun _ => hop)
  | .mk negated first op (some e) => by
    simp only [expr, Expr.references]
    have hop := @operator_refers structs places o op
    have hfirst := (term_refers first).first hop
    have hrest := (expr_refers e).first hop
    by_cases hswaps : swaps op
    · simp only [hswaps, if_true]
      exact .seq (expr_refers e) hfirst
    · simp only [hswaps, Bool.false_eq_true, if_false]
      exact .seq (term_refers first)
        (.ite (fun _ => .next (.emit rfl) hrest) fun _ => hrest)

theorem term_refers : (t : Term) → Refers structs places o o (term t) (t.references structs.keys o)
  | .literal t => literal_refers t
  | .create type (some e) args => by
    simp only [term, Term.references]
    exact .first (expr_refers e) (.emit rfl)
  | .create type none (some l) => by
    simp only [term, Term.references]
    exact .next (.emit rfl) (initializers_refer type.lexeme 0 l)
  | .create type none none => by
    simp only [term, Term.references]
    exact .next (.emit rfl) (.throw _)
  | .path refs => path_refers refs
  | .call name none => by
    simp only [term, Term.references]
    exact call_refers (l := []) (fun _ _ => .throw _) (.throw _) (.throw _)
  | .call name (some []) => by
    simp only [term, Term.references]
    exact call_refers (fun _ _ => .throw _) (.throw _) (arguments_refer [])
  | .call name (some [e]) => by
    simp only [term, Term.references]
    exact call_refers (fun _ hop => .seq (expr_refers e) (.emitConversion hop))
      (.seq (expr_refers e) (.throw _)) (arguments_refer [e])
  | .call name (some (e :: e' :: l)) => by
    simp only [term, Term.references]
    exact call_refers (fun _ hop => .seq (expr_refers e) (.emitConversion hop))
      (.seq (expr_refers e) (.seq (expr_refers e') (.emit rfl))) (arguments_refer (e :: e' :: l))
  | .group e => expr_refers e

theorem arguments_refer : (l : List Expr) →
    Refers structs places o o (arguments l) (argumentReferences structs.keys o l).flatten
  | [] => .pure
  | e :: l => .seq (expr_refers e) (arguments_refer l)

theorem initializers_refer (struct : String) (i : Nat) : (l : List Expr) →
    Refers structs places o o (initializers struct i l)
      (argumentReferences structs.keys o l).flatten
  | [] => .pure
  | e :: l => .field fun _ => .next (.emit rfl) (.seq (expr_refers e)
      (.next (.emit rfl) (initializers_refer struct (i + 1) l)))

theorem path_refers : (refs : List Ref) →
    Refers structs places o o (path refs) (pathReferences structs.keys o refs)
  | [] => .pure
  | .mk name none :: refs => by
    simp only [path, pathReferences]
    exact .load (selectors_refer refs)
  | .mk name (some e) :: refs => by
    simp only [path, pathReferences]
    exact .load (.seq (expr_refers e) (.next (.emit rfl) (selectors_refer refs)))

theorem selectors_refer : (refs : List Ref) →
    Refers structs places o o (selectors refs) (selectorReferences structs.keys o refs)
  | [] => .pure
  | .mk name none :: refs => by
    simp only [selectors, selectorReferences]
    exact .next (.emit rfl) (selectors_refer refs)
  | .mk name (some e) :: refs => by
    simp only [selectors, selectorReferences]
    rw [List.append_assoc]
    exact .select (.seq (expr_refers e) (.next (.emit rfl) (selectors_refer refs)))

end

theorem inner_refers {step : String → Gen Unit} {f : String → List Reference}
    (h : ∀ name, Refers structs places o o (step name) (f name)) (refs : List Ref) :
    Refers structs places o o (inner step refs)
      (refs.tail.dropLast.flatMap fun r => f r.name.lexeme) := by
  unfold inner
  induction refs.tail.dropLast with
  | nil => exact .pure
  | cons r l ih => exact .seq (h _) ih

theorem assign_refers (a : Assign) :
    Refers structs places o o (assign a) (a.references structs.keys o) := by
  obtain ⟨target, value⟩ := a
  have hvalue := @expr_refers structs places o value
  simp only [assign]
  split
  · exact .pure
  · exact .offset (.seq hvalue (.emit_eq rfl))
  · exact .load (.seq (expr_refers _) (.first hvalue (.emit rfl)))
  · rename_i name i refs hnone hsome
    have hrefs : refs ≠ [] := by
      intro hrefs
      cases i with
      | none => exact hnone hrefs rfl
      | some e => exact hsome e hrefs rfl
    obtain ⟨r, refs, rfl⟩ := List.exists_cons_of_ne_nil hrefs
    simp only [List.getLast?_eq_some_getLast hrefs]
    cases i with
    | none =>
      have hstep (name : String) : Refers structs places o o (emit (.getField (.text name))) [] :=
        .emit rfl
      have hinner (target : List Ref) : Refers structs places o o
          (inner (fun field => emit (.getField (.text field))) target) [] := by
        have h := inner_refers hstep target
        rwa [List.flatMap_eq_nil_iff.2 fun _ _ => rfl] at h
      exact .load (.next (hinner _) (.first hvalue (.emit rfl)))
    | some e =>
      have hinner (target : List Ref) : Refers structs places o o (inner (fun field => do
          emit (.load (← offset field))
          emit (.getField (.text field))) target)
          (target.tail.dropLast.map fun r => .load r.name.lexeme o) := by
        rw [List.map_eq_flatMap]
        exact inner_refers (f := fun name => [.load name o]) (fun _ => .load (.emit rfl)) target
      exact .load (.seq (expr_refers e) (.next (.emit rfl) (.seq (hinner _)
        (.first hvalue (.emit rfl)))))

theorem declare_cons (names block : List String) (outer : List (List String)) :
    names.foldl Offsets.declare ⟨block :: outer⟩ = ⟨(block ++ names) :: outer⟩ := by
  induction names generalizing block with
  | nil => rw [List.append_nil]; rfl
  | cons name names ih =>
    rw [List.foldl_cons, Offsets.declare, ih, List.append_assoc, List.singleton_append]

theorem leave_declare (names : List String) (o : Offsets) :
    Offsets.leave (names.foldl Offsets.declare o.enter) = o := by
  rw [Offsets.enter, declare_cons]
  rfl

theorem inScope_refers {names : List String} {x : Gen Unit} {l : List Reference}
    (h : Refers structs places o.enter (names.foldl Offsets.declare o.enter) x l) :
    Refers structs places o o (inScope x) l := by
  have hscope := Refers.next (.onOffsets Offsets.enter) (h.first (.onOffsets Offsets.leave))
  rwa [leave_declare] at hscope

theorem varDecl_refers (d : VarDecl) :
    Refers structs places o (d.var.label.foldl Offsets.declare o) (varDecl d)
      (d.references structs.keys o) := by
  obtain ⟨⟨type, name⟩, init⟩ := d
  refine .need fun t ht => ?_
  cases ht
  refine .next (.onOffsets _) ?_
  cases init with
  | some e => exact .seq (expr_refers e) .store
  | none => exact .seq (.emit rfl) .store

theorem guarded_refers {condition : Expr} {x : Gen Unit} {f : Nat → Gen Unit} {names : List String}
    {l l' : List Reference}
    (hx : ∀ k, Refers structs (k :: places) o.enter (names.foldl Offsets.declare o.enter) x l)
    (h : ∀ k, Refers structs (k :: places) o o' (f k) l') :
    Refers structs places o o' (do
      expr condition
      let k ← here
      emit (.jumpFalse pending)
      inScope x
      f k) (condition.references structs.keys o ++ l ++ l') := by
  rw [List.append_assoc]
  exact .seq (expr_refers condition) (.jump rfl fun k => .seq (inScope_refers (hx k)) (h k))

mutual

theorem stmt_refers : (s : Stmt) → ∀ {places : List Nat} {o : Offsets},
    Refers structs places o (s.declares.foldl Offsets.declare o) (stmt s)
      (s.references structs.keys o)
  | .ret e, places, o => by
    simp only [stmt, Stmt.references]
    exact .first (expr_refers e) (.emit rfl)
  | .decl d, _, _ => varDecl_refers d
  | .assign a, _, _ => assign_refers a
  | .loop condition body, places, o => by
    simp only [stmt, Stmt.references]
    rw [← List.append_nil (_ ++ _)]
    exact .here fun start => guarded_refers (fun _ => stmts_refer body) fun exit =>
      .next (.emit rfl) (.next (.emit rfl) (.here fun _ => .patch rfl (by simp)))
  | .count init condition step body, places, o => by
    simp only [stmt, Stmt.references]
    rw [List.append_assoc, List.append_assoc]
    refine .next (.onOffsets Offsets.enter) (.seq (varDecl_refers init) (.here fun start => ?_))
    rw [← List.append_assoc]
    refine guarded_refers (fun _ => stmts_refer body) fun exit => .first (assign_refers step) ?_
    have hleave := @Refers.onOffsets structs (exit :: places)
      (init.var.label.foldl Offsets.declare o.enter) Offsets.leave
    rw [leave_declare] at hleave
    exact .next (.emit rfl) (.next (.emit rfl) (.here fun _ => .next (.patch rfl (by simp)) hleave))
  | .choice (.mk condition body) others otherwise, places, o => by
    simp only [stmt, Stmt.references]
    rw [List.append_assoc]
    refine guarded_refers (fun _ => stmts_refer body) fun skip => .jump rfl fun finish => ?_
    cases others with
    | nil =>
      cases otherwise with
      | nil =>
        exact .next (.emit rfl) (.here fun _ => .next (.patch rfl (by simp))
          (.patch rfl (by simp)))
      | cons s l =>
        exact .here fun _ => .next (.patch rfl (by simp)) (.next
          (.patch rfl (by simp)) (.throw _))
    | cons b bs =>
      refine .here fun _ => .next (.patch rfl (by simp)) ?_
      cases otherwise with
      | nil => exact .seq (branches_refer (b :: bs)) .pure
      | cons s l =>
        exact .seq (branches_refer (b :: bs)) (.first (inScope_refers (stmts_refer (s :: l)))
          (.here fun _ => .patch rfl (by simp)))
  | .call name args, _, _ => by
    simp only [stmt]
    exact term_refers (.call name args)
  | .expr e, _, _ => expr_refers e

theorem stmts_refer : (l : List Stmt) → ∀ {places : List Nat} {o : Offsets},
    Refers structs places o ((l.flatMap Stmt.declares).foldl Offsets.declare o) (stmts l)
      (stmtReferences structs.keys o l)
  | [], _, _ => .pure
  | s :: l, _, _ => by
    rw [List.flatMap_cons, List.foldl_append]
    exact .seq (stmt_refers s) (stmts_refer l)

theorem branches_refer : (l : List Branch) → ∀ {places : List Nat} {o : Offsets},
    Refers structs places o o (branches l) (branchReferences structs.keys o l)
  | [], _, _ => .pure
  | .mk condition body :: l, _, _ => by
    simp only [branches, branchReferences]
    exact guarded_refers (fun _ => stmts_refer body) fun skip => .next (.emit rfl)
      (.here fun _ => .next (.patch rfl (by simp)) (branches_refer l))

end

theorem emitReturn_refers : Refers structs places o o emitReturn [] := .next (.emit rfl) (.emit rfl)

theorem mainEnd_refers : Refers structs places o o mainEnd [] := by
  intro g g' hstructs hplaces ho h
  obtain ⟨t, g₁, htemplate, h⟩ := bind_eq_ok.1 h
  obtain ⟨-, rfl⟩ := template_eq_ok.1 htemplate
  cases hlast : t.code.back? with
  | none =>
    simp only [hlast] at h
    cases h
  | some i =>
    simp only [hlast] at h
    exact Refers.ite (fun _ => .pure) (fun _ => emitReturn_refers) hstructs hplaces ho h

theorem parameters_refer (l : List VarDef) :
    Refers structs places o ((l.flatMap VarDef.label).foldl Offsets.declare o) (l.forM parameter)
      (stmtReferences structs.keys o (l.map fun v => .decl ⟨v, none⟩)) := by
  induction l generalizing o with
  | nil => exact .pure
  | cons d l ih =>
    obtain ⟨type, name⟩ := d
    rw [List.flatMap_cons, List.foldl_append]
    refine .seq (x := parameter ⟨type, name⟩) (.need fun t ht => ?_) ih
    cases ht
    exact .next (.onOffsets _) .store

theorem stmtReferences_append (structs : List String) (o : Offsets) (l l' : List Stmt) :
    stmtReferences structs o (l ++ l') = stmtReferences structs o l ++
      stmtReferences structs ((l.flatMap Stmt.declares).foldl Offsets.declare o) l' := by
  induction l generalizing o with
  | nil => rfl
  | cons s l ih =>
    rw [List.cons_append, stmtReferences, stmtReferences, ih, List.flatMap_cons, List.foldl_append,
      List.append_assoc]

theorem funCode_refers (d : FunDef) : Refers structs places o.enter
    (d.leaves.foldl Offsets.declare o.enter) (funCode d) (d.references structs.keys o) := by
  have hbody {o : Offsets} : Refers structs places o
      ((d.body.flatMap Stmt.declares).foldl Offsets.declare o)
      (if d.body.isEmpty then emitReturn else stmts d.body)
      (stmtReferences structs.keys o d.body) := by
    by_cases hempty : d.body.isEmpty
    · rw [if_pos hempty, List.isEmpty_iff.1 hempty]
      exact emitReturn_refers
    · rw [if_neg hempty]
      exact stmts_refer d.body
  unfold funCode FunDef.leaves FunDef.references FunDef.statements
  by_cases hmain : d.name.lexeme = "main"
  · simp only [hmain, if_true, List.nil_append]
    by_cases hempty : d.body = []
    · rw [hempty]
      exact emitReturn_refers
    · rw [mainBody_eq hempty]
      exact .first (stmts_refer d.body) mainEnd_refers
  · simp only [hmain, if_false]
    have hparams : (d.params.map fun v => Stmt.decl ⟨v, none⟩).flatMap Stmt.declares =
        d.params.flatMap VarDef.label := List.flatMap_map ..
    rw [List.foldl_append, stmtReferences_append, hparams]
    exact .seq (parameters_refer d.params) hbody

end Walk

theorem finish_current {g g' : Generator} (h : finish g = .ok () g') : g'.current = g.current := by
  obtain ⟨⟨⟩, g₁, henter, h⟩ := bind_eq_ok.1 h
  obtain ⟨t, g₂, htemplate, h⟩ := bind_eq_ok.1 h
  obtain ⟨-, rfl⟩ := template_eq_ok.1 htemplate
  cases henter
  cases h
  rfl

theorem funDef_refers {d : FunDef} {g g' : Generator} (h : funDef d g = .ok () g') :
    ∃ t : Template, t.name = d.name.lexeme ∧ t.arity = d.params.length ∧
      t.references = (d.references g.structs.keys g.offsets).map Reference.op ∧
      g'.image = g.image.install t := by
  obtain ⟨code, hcode, -⟩ := funDef_ok h
  cases (hcode g rfl).symm.trans h
  refine ⟨d.template code g.offsets, rfl, rfl, ?_, rfl⟩
  rw [funDef_eq] at h
  obtain ⟨⟨⟩, g₁, hcode, hfinish⟩ := bind_eq_ok.1 h
  have hplaces : ∀ k ∈ ([] : List Nat), (amid g.structs [[]] [] g.offsets g.image
      (d.template [] .empty)).marks[k]? = some none := by simp
  obtain ⟨-, -, m, hm, hl⟩ := funCode_refers d rfl hplaces rfl hcode
  have hcurrent : g₁.current = some (d.template code g.offsets) := (finish_current hfinish).symm
  have hmarks : (d.template code g.offsets).marks = m := by
    rw [Generator.marks, hcurrent] at hm
    exact hm
  rw [← Template.reduceOption_marks, hmarks]
  exact hl

theorem forM_funDef_refers {before after : List FunDef} {d : FunDef} {g g' : Generator}
    (hg : g.offsets = leftBy []) (hnames : ((before ++ d :: after).map (·.name.lexeme)).Nodup)
    (h : (before ++ d :: after).forM funDef g = .ok () g') :
    ∃ t, g'.image.get? d.name.lexeme = some t ∧ t.arity = d.params.length ∧
      t.references = (d.references g.structs.keys (leftBy before)).map Reference.op := by
  obtain ⟨g₁, hbefore, h⟩ := forM_append_eq_ok.1 h
  obtain ⟨g₂, hd, hafter⟩ := forM_cons_eq_ok.1 h
  obtain ⟨hstructs, hg₁, -⟩ := forM_funDef [] hg hbefore
  have hone : [d].forM funDef g₁ = .ok () g₂ := forM_cons_eq_ok.2 ⟨g₂, hd, rfl⟩
  obtain ⟨-, hg₂, -⟩ := forM_funDef before hg₁ hone
  obtain ⟨-, -, himage⟩ := forM_funDef (before ++ [d]) hg₂ hafter
  obtain ⟨t, hname, harity, hreferences, hinstall⟩ := funDef_refers hd
  refine ⟨t, ?_, harity, by rw [hreferences, hstructs, hg₁, List.nil_append]⟩
  have hne : ∀ e ∈ after, e.name.lexeme ≠ d.name.lexeme := by
    rw [List.map_append, List.map_cons, List.nodup_append, List.nodup_cons] at hnames
    intro e he heq
    exact hnames.2.1.1 (heq ▸ List.mem_map_of_mem he)
  rw [himage _ hne, hinstall, Image.install, Table.get?_put, hname, BEq.rfl, if_pos rfl]

theorem forM_structDef_keys {l : List StructDef} {g : Generator}
    (h : (g.structs.keys ++ l.map (·.name.lexeme)).Nodup) :
    ∃ structs, l.forM structDef g = .ok () { g with structs } ∧
      structs.keys = g.structs.keys ++ l.map (·.name.lexeme) := by
  induction l generalizing g with
  | nil => exact ⟨g.structs, rfl, by simp⟩
  | cons d l ih =>
    have hname : d.name.lexeme ∉ g.structs.keys := fun hmem =>
      (List.nodup_append.1 h).2.2 _ hmem _ List.mem_cons_self rfl
    have hkeys : (g.structs.put d.name.lexeme d).keys = g.structs.keys ++ [d.name.lexeme] := by
      rw [Table.put_of_notMem hname]
      simp [Table.keys]
    have hsplit : g.structs.keys ++ (d :: l).map (·.name.lexeme) =
        (g.structs.put d.name.lexeme d).keys ++ l.map (·.name.lexeme) := by simp [hkeys]
    rw [hsplit] at h ⊢
    exact ih (g := { g with structs := g.structs.put d.name.lexeme d }) h

end Generator

namespace Checker

theorem forM_recordFunction_nodup {l : List FunDef} {c c' : Checker}
    (h : l.forM recordFunction c = .ok () c') (hc : c.functions.keys.Nodup) :
    (c.functions.keys ++ l.map (·.name.lexeme)).Nodup := by
  induction l generalizing c with
  | nil => simpa using hc
  | cons d l ih =>
    obtain ⟨c₁, hd, hl⟩ := forM_cons_eq_ok.1 h
    obtain ⟨hname, -, -, rfl⟩ := recordFunction_eq_ok.1 hd
    have hkeys : (⟨c.functions.entries ++ [(d.name.lexeme, d)]⟩ : Table String FunDef).keys =
        c.functions.keys ++ [d.name.lexeme] := by simp [Table.keys]
    have hnew : (c.functions.keys ++ [d.name.lexeme]).Nodup := by
      rw [← List.concat_eq_append, List.nodup_concat]
      exact ⟨hname, hc⟩
    have hrest := ih hl (by rwa [hkeys])
    rw [hkeys] at hrest
    simpa using hrest

theorem nodup_of_check {p : Program} (h : (Compiler.check p).2 = none) :
    (p.structs.map (·.name.lexeme)).Nodup ∧ (p.functions.map (·.name.lexeme)).Nodup := by
  obtain ⟨c, hc⟩ := check_eq_none.1 h
  obtain ⟨c₁, c₂, -, -, hstructs, hfunctions, -⟩ := program_eq_ok.1 hc
  obtain ⟨hnodup, rfl⟩ := (forM_recordStruct (c := .empty) List.nodup_nil).1 hstructs
  exact ⟨hnodup, forM_recordFunction_nodup hfunctions List.nodup_nil⟩

end Checker

theorem Compiler.compile_eq_none {source : Source} (h : (compile true source).2 = none) :
    ∃ p, Parser.parse source = .ok p ∧ (check p).2 = none ∧
      generate p = ((compile true source).1, none) := by
  unfold compile at h ⊢
  cases hparse : Parser.parse source with
  | error e => simp [hparse] at h
  | ok p =>
    cases hcheck : (check p).2 with
    | some e => simp [hparse, hcheck] at h
    | none =>
      simp only [hparse, hcheck, if_true] at h ⊢
      exact ⟨p, rfl, hcheck, Prod.ext rfl h⟩

open Generator

theorem Offsets.operand_eq_int_iff {o : Offsets} {name : String} :
    (∃ n : Nat, o.operand name = .int n) ↔ name ∈ o.blocks.flatten := by
  rw [← not_iff_not, ← Offsets.operand_eq_absent, Offsets.operand]
  cases o.offset? name <;> simp

theorem Reference.resolves_iff {image : Image} {functions : List FunDef}
    (hfunctions : ∀ d ∈ functions, ∃ t, image.get? d.name.lexeme = some t ∧ t.arity = d.params.length)
    (hnone : ∀ name, (∀ d ∈ functions, d.name.lexeme ≠ name) → image.get? name = none)
    (r : Reference) : r.Resolves image ↔ r.declared functions := by
  cases r with
  | load name declared | store name declared =>
    simp only [Resolves, Reference.declared, decide_eq_true_eq]
    exact Offsets.operand_eq_int_iff
  | call callee count =>
    simp only [Resolves, Reference.declared, List.any_eq_true, decide_eq_true_eq]
    constructor
    · rintro ⟨t, ht, harity⟩
      obtain ⟨d, hd, rfl⟩ : ∃ d ∈ functions, d.name.lexeme = callee := by
        by_contra hcallee
        rw [hnone callee fun d hd hname => hcallee ⟨d, hd, hname⟩] at ht
        cases ht
      obtain ⟨t', ht', harity'⟩ := hfunctions d hd
      cases ht.symm.trans ht'
      exact ⟨d, hd, rfl, by exact_mod_cast harity'.symm.trans harity⟩
    · rintro ⟨d, hd, rfl, hcount⟩
      obtain ⟨t, ht, harity⟩ := hfunctions d hd
      exact ⟨t, ht, by rw [harity, hcount]⟩

/-- The code of a checked program refers to what its tree refers to: the calls, loads and stores of
each function are those of its statements, in the same order. A call can be resolved if there is a
function of that name with as many parameters, and a variable if it is declared; neither of these is
checked. -/
theorem compile_references {source : Source} (h : (Compiler.compile true source).2 = none) :
    let image := (Compiler.compile true source).1.image
    ∃ p, Parser.parse source = .ok p ∧
      (∀ before d after, p.functions = before ++ d :: after →
        ∃ t, image.get? d.name.lexeme = some t ∧ t.arity = d.params.length ∧ t.references =
          (d.references (p.structs.map (·.name.lexeme)) (leftBy before)).map Reference.op) ∧
      (∀ name, (∀ d ∈ p.functions, d.name.lexeme ≠ name) → image.get? name = none) ∧
      ∀ r : Reference, r.Resolves image ↔ r.declared p.functions := by
  intro image
  obtain ⟨p, hparse, hcheck, hgenerate⟩ := Compiler.compile_eq_none h
  obtain ⟨hstructNames, hnames⟩ := Checker.nodup_of_check hcheck
  obtain ⟨structs, hstructs, hkeys⟩ := forM_structDef_keys (g := .ofImage .empty) hstructNames
  have hfunctions : p.functions.forM funDef ⟨.empty, none, leftBy [], structs⟩ =
      .ok () (Compiler.compile true source).1 := by
    rw [Compiler.generate, outcome_eq_ok, EStateM.run, program] at hgenerate
    simp only [bind, EStateM.bind, hstructs] at hgenerate
    exact hgenerate
  have htemplates : ∀ before d after, p.functions = before ++ d :: after →
      ∃ t, image.get? d.name.lexeme = some t ∧ t.arity = d.params.length ∧ t.references =
        (d.references (p.structs.map (·.name.lexeme)) (leftBy before)).map Reference.op := by
    intro before d after hsplit
    rw [hsplit] at hfunctions hnames
    obtain ⟨t, ht, harity, hreferences⟩ := forM_funDef_refers rfl hnames hfunctions
    rw [hkeys] at hreferences
    exact ⟨t, ht, harity, hreferences⟩
  have hnone : ∀ name, (∀ d ∈ p.functions, d.name.lexeme ≠ name) → image.get? name = none :=
    (forM_funDef [] rfl hfunctions).2.2
  refine ⟨p, hparse, htemplates, hnone, Reference.resolves_iff ?_ hnone⟩
  intro d hd
  obtain ⟨before, after, hsplit⟩ := List.append_of_mem hd
  obtain ⟨t, ht, harity, -⟩ := htemplates before d after hsplit
  exact ⟨t, ht, harity⟩

/-- A function can be called with one argument if it has one parameter, and not with two. -/
theorem compile_references_twice :
    let source := Source.ofText ("int twice(int x) \x7breturn x + x;\x7d " ++
      "void main() \x7bint y = 2; print(itos(twice(y)));\x7d")
    let image := (Compiler.compile true source).1.image
    (Compiler.compile true source).2 = none ∧ (Reference.call "twice" 1).Resolves image ∧
      ¬(Reference.call "twice" 2).Resolves image := by
  intro source image
  have h : (Compiler.compile true source).2 = none := by decide +kernel
  obtain ⟨p, hparse, -, -, hresolves⟩ := compile_references h
  have hone : (Parser.parse source).toOption.any
      (fun p => (Reference.call "twice" 1).declared p.functions) := by decide +kernel
  have htwo : (Parser.parse source).toOption.any
      (fun p => (Reference.call "twice" 2).declared p.functions) = false := by decide +kernel
  rw [hparse] at hone htwo
  refine ⟨h, (hresolves _).2 hone, fun hcall => ?_⟩
  cases htwo.symm.trans ((hresolves _).1 hcall)

/-- Nothing keeps a program from calling a function that does not exist, from calling one with another
number of arguments, or from using a variable that is not declared. -/
theorem compile_unresolved :
    let missing := Compiler.compile true (.ofText "void main() \x7bf();\x7d")
    let another := Compiler.compile true (.ofText "void f(int x) \x7b\x7d void main() \x7bf();\x7d")
    let undeclared := Compiler.compile true (.ofText "void main() \x7bx = 1;\x7d")
    missing.2 = none ∧ missing.1.image.get? "f" = none ∧
      (missing.1.image.get? "main").map Template.references = some [.call (.text "f")] ∧
      another.2 = none ∧ (another.1.image.get? "f").map Template.arity = some 1 ∧
      (another.1.image.get? "main").map Template.references = some [.call (.text "f")] ∧
      undeclared.2 = none ∧
      (undeclared.1.image.get? "main").map Template.references = some [.store .absent] := by
  decide +kernel

end StackLang
