import StackLang.Generator

namespace StackLang

/-- A token that stands at no place of a text. -/
def word (kind : Token.Kind) (lexeme : String) : Token := ⟨kind, lexeme, 0, 0⟩

def number (lexeme : String) : Expr := .operand (.literal (word .intVal lexeme))

def mention (name : String) : Expr := .operand (.path [.mk (word .id name) none])

def binary (x : Term) (kind : Token.Kind) (sign : String) (e : Expr) : Expr :=
  .mk (some false) x (some (word kind sign)) (some e)

def declaring (kind : Token.Kind) (type name : String) (init : Option Expr) : Stmt :=
  .decl ⟨⟨some ⟨false, some (word kind type)⟩, some (word .id name)⟩, init⟩

def printing (e : Expr) : Stmt := .call (word .id "print") (some [e])

def procedure (name : String) (body : List Stmt) : FunDef :=
  ⟨⟨false, some (word .voidType "void")⟩, word .id name, [], body⟩

def Template.append (t : Template) (ops : List Op) : Template :=
  { t with code := t.code ++ (ops.map Instr.plain).toArray }

@[simp] theorem Template.append_nil (t : Template) : t.append [] = t := by
  simp [append]

@[simp] theorem Template.append_append (t : Template) (a b : List Op) :
    (t.append a).append b = t.append (a ++ b) := by
  simp [append]

@[simp] theorem Template.size_append (t : Template) (a : List Op) :
    (t.append a).code.size = t.code.size + a.length := by
  simp [append]

/-- The offset of a variable as an operand; absent for a name that is not declared. -/
def Offsets.operand (o : Offsets) (name : String) : Value :=
  match o.offset? name with
  | some n => .int n
  | none => .absent

theorem Offsets.idxOf?_append_cons {own : List String} {name : String} (h : name ∉ own)
    (rest : List String) : (own ++ name :: rest).idxOf? name = some own.length := by
  rw [List.idxOf?, List.findIdx?_append, ← List.idxOf?, List.idxOf?_eq_none_iff.2 h]
  simp [List.idxOf?_cons]

theorem Offsets.operand_declared {block : List String} {name : String} (h : name ∉ block)
    (outer : List (List String)) : operand ⟨(block ++ [name]) :: outer⟩ name =
      .int (outer.flatten.length + block.length : Nat) := by
  simp only [operand, offset?, find, idxOf?_append_cons h]

namespace Generator

theorem offset_eq (name : String) (g : Generator) :
    offset name g = .ok (g.offsets.operand name) g := by
  have hget : offset name g = (match g.offsets.offset? name with
    | some n => pure (address n)
    | none => pure .absent : Gen Value) g := rfl
  rw [hget, Offsets.operand]
  cases g.offsets.offset? name <;> rfl

/-- Generation that finds the operations `a` written from place `n` on leaves the operations `b`
there. -/
def Gets (n : Nat) (p : Gen Unit) (o : Offsets) (a : List Op) (o' : Offsets) (b : List Op) : Prop :=
  ∀ (image : Image) (t : Template) (structs : Table String StructDef), t.code.size = n →
    p ⟨image, some (t.append a), o, structs⟩ = .ok () ⟨image, some (t.append b), o', structs⟩

/-- Generation appends the operations that `c` gives for the place where it goes on. -/
def Emits (p : Gen Unit) (o o' : Offsets) (c : Nat → List Op) : Prop :=
  ∀ n, Gets n p o [] o' (c n)

section Gets

variable {n : Nat} {p q : Gen Unit} {o o₁ o₂ o' : Offsets} {a b d : List Op}

theorem Emits.gets {c : Nat → List Op} (h : Emits p o o' c) :
    Gets n p o a o' (a ++ c (n + a.length)) := by
  intro image t structs ht
  subst ht
  simpa using h _ image (t.append a) structs rfl

namespace Gets

theorem seq (hp : Gets n p o a o₁ b) (hq : Gets n q o₁ b o₂ d) :
    Gets n (do p; q) o a o₂ d := by
  intro image t structs ht
  have h := hp image t structs ht
  simp only [bind, EStateM.bind, h]
  exact hq image t structs ht

protected theorem pure : Gets n (pure ()) o a o a := fun _ _ _ _ => rfl

theorem emit (op : Op) : Gets n (Generator.emit op) o a o (a ++ [op]) := by
  intro image t structs ht
  rw [← Template.append_append]
  simp only [Template.append, List.map_cons, List.map_nil, Array.append_singleton]
  rfl

theorem onOffsets (f : Offsets → Offsets) : Gets n (Generator.onOffsets f) o a (f o) a :=
  fun _ _ _ _ => rfl

theorem offset {name : String} {f : Value → Gen Unit} (h : Gets n (f (o.operand name)) o a o' b) :
    Gets n (Generator.offset name >>= f) o a o' b := by
  intro image t structs ht
  simp only [bind, EStateM.bind, offset_eq]
  exact h image t structs ht

theorem here {f : Nat → Gen Unit} (h : Gets n (f (n + a.length)) o a o' b) :
    Gets n (Generator.here >>= f) o a o' b := by
  intro image t structs ht
  have hsize : (t.append a).code.size = n + a.length := by rw [Template.size_append, ht]
  rw [← hsize] at h
  exact h image t structs ht

theorem patch {x op : Op} {i : Nat} (hi : i = n + a.length) :
    Gets n (Generator.patch i op) o (a ++ x :: b) o (a ++ op :: b) := by
  intro image t structs ht
  have hset : (t.append (a ++ x :: b)).code.setIfInBounds i (.plain op) =
      (t.append (a ++ op :: b)).code := by
    apply Array.ext'
    have hi' : i = t.code.toList.length + (a.map Instr.plain).length := by
      rw [Array.length_toList, List.length_map, hi, ht]
    simp only [Template.append, Array.toList_setIfInBounds, Array.toList_append, List.map_append,
      List.map_cons, hi', ← List.append_assoc]
    simp
  exact congrArg (fun code => EStateM.Result.ok ()
    (Generator.mk image (some { t with code }) o structs)) hset

end Gets

end Gets
end Generator

def Token.value? (t : Token) : Option Value :=
  match t.kind with
  | .intVal => (Numeral.int? t.lexeme).map .int
  | .doubleVal => (Numeral.double? t.lexeme).map .double
  | .stringVal => some (.text (Generator.literalText t.lexeme))
  | _ =>
    match t.lexeme with
    | "true" => some (.bool true)
    | "false" => some (.bool false)
    | "null" => some .null
    | _ => none

/-- The variable that a path without index and fields is. -/
def soleName? : List Ref → Option Token
  | [.mk name none] => some name
  | _ => none

theorem eq_of_soleName? {refs : List Ref} {name : Token} (h : soleName? refs = some name) :
    refs = [.mk name none] := by
  unfold soleName? at h
  split at h
  · cases h
    rfl
  · cases h

mutual

/-- Expressions of literals, variables, operators and parentheses. -/
def Expr.plain : Expr → Bool
  | .mk _ first op rest => first.plain && plainRest rest && op.isSome == rest.isSome

def Term.plain : Term → Bool
  | .literal t => t.value?.isSome
  | .path refs => (soleName? refs).isSome
  | .group e => e.plain
  | .create .. | .call .. => false

def plainRest : Option Expr → Bool
  | none => true
  | some e => e.plain

end

def operation (op : Option Token) : List Op := (op.bind fun t => Generator.operator? t.lexeme).toList

mutual

def Expr.code (o : Offsets) : Expr → List Op
  | .mk negated first op rest =>
    (if Generator.swaps op then restCode o rest ++ first.code o
    else first.code o ++ ((if negated = some true then [.not] else []) ++ restCode o rest)) ++
      operation op

def Term.code (o : Offsets) : Term → List Op
  | .literal t => t.value?.toList.map .push
  | .path refs => (soleName? refs).toList.map fun name => .load (o.operand name.lexeme)
  | .group e => e.code o
  | .create .. | .call .. => []

def restCode (o : Offsets) : Option Expr → List Op
  | none => []
  | some e => e.code o

end

namespace Generator

variable {o : Offsets}

theorem literalValue_of_value? {t : Token} {v : Value} (h : t.value? = some v) (g : Generator) :
    literalValue t g = .ok (some v) g := by
  obtain ⟨kind, lexeme, line, column⟩ := t
  simp only [Token.value?] at h
  simp only [literalValue]
  cases kind with
  | intVal | doubleVal =>
    obtain ⟨i, hi, rfl⟩ := Option.map_eq_some_iff.1 h
    simp only [hi]
    rfl
  | stringVal =>
    cases h
    rfl
  | _ =>
    dsimp only at h
    split at h <;> cases h <;> rfl

theorem literal_emits {t : Token} (h : t.value?.isSome) :
    Emits (literal t) o o fun _ => t.value?.toList.map .push := by
  obtain ⟨v, hv⟩ := Option.isSome_iff_exists.1 h
  intro n image u structs hu
  simp only [literal, bind, EStateM.bind, literalValue_of_value? hv, hv]
  exact Gets.emit (.push v) image u structs hu

theorem operation_emits {n : Nat} {a : List Op} (op : Option Token) :
    Gets n (match op.bind fun t => operator? t.lexeme with
      | some o => emit o
      | none => pure ()) o a o (a ++ operation op) := by
  simp only [operation]
  cases op.bind fun t => operator? t.lexeme with
  | some f => exact Gets.emit f
  | none => simpa using Gets.pure

theorem path_emits {refs : List Ref} (h : (soleName? refs).isSome) :
    Emits (path refs) o o fun _ =>
      (soleName? refs).toList.map fun name => .load (o.operand name.lexeme) := by
  obtain ⟨name, hname⟩ := Option.isSome_iff_exists.1 h
  rw [hname, eq_of_soleName? hname]
  intro n
  exact .offset (.seq (.emit _) .pure)

section Expressions

variable {negated : Option Bool} {first : Term} {op : Option Token} {e : Expr} {a b : List Op}

theorem expr_operand (hfirst : Emits (term first) o o fun _ => a) :
    Emits (expr (.mk negated first none none)) o o fun _ =>
      a ++ if negated = some true then [.not] else [] := by
  intro n
  refine (hfirst n).seq ?_
  by_cases h : negated = some true
  · simp only [h, if_true]
    exact (Gets.emit .not).seq .pure
  · simp only [h, if_false, List.append_nil]
    exact .pure

theorem expr_swapped (hop : swaps op) (hfirst : Emits (term first) o o fun _ => a)
    (he : Emits (expr e) o o fun _ => b) :
    Emits (expr (.mk negated first op (some e))) o o fun _ => b ++ a ++ operation op := by
  intro n
  simp only [expr, hop, if_true]
  exact (he n).seq (hfirst.gets.seq (operation_emits op))

theorem expr_operation (hop : ¬swaps op) (hfirst : Emits (term first) o o fun _ => a)
    (he : Emits (expr e) o o fun _ => b) :
    Emits (expr (.mk negated first op (some e))) o o fun _ =>
      a ++ ((if negated = some true then [.not] else []) ++ b) ++ operation op := by
  intro n
  simp only [expr, hop, if_false, Bool.false_eq_true]
  refine (hfirst n).seq ?_
  by_cases h : negated = some true
  · simp only [h, if_true, ← List.append_assoc]
    exact (Gets.emit .not).seq (he.gets.seq (operation_emits op))
  · simp only [h, if_false, List.nil_append]
    exact he.gets.seq (operation_emits op)

end Expressions

mutual

theorem expr_emits : (e : Expr) → e.plain → Emits (expr e) o o fun _ => e.code o
  | .mk negated first op none, h => by
    simp only [Expr.plain, Bool.and_eq_true, beq_iff_eq, Option.isSome_none,
      Option.isSome_eq_false_iff, Option.isNone_iff_eq_none] at h
    obtain ⟨⟨hfirst, -⟩, rfl⟩ := h
    simpa [Expr.code, restCode, swaps, operation] using expr_operand (term_emits first hfirst)
  | .mk negated first op (some e), h => by
    simp only [Expr.plain, Bool.and_eq_true] at h
    have hfirst := term_emits first h.1.1
    have he := expr_emits e h.1.2
    by_cases hop : swaps op
    · simpa only [Expr.code, restCode, hop, if_true] using expr_swapped hop hfirst he
    · simpa only [Expr.code, restCode, hop, if_false, Bool.false_eq_true] using
        expr_operation hop hfirst he

theorem term_emits : (t : Term) → t.plain → Emits (term t) o o fun _ => t.code o
  | .literal _, h => literal_emits h
  | .path _, h => path_emits h
  | .group e, h => expr_emits e h
  | .create .., h | .call .., h => by cases h

end

/-- The operations that generation appends to an empty function. -/
def emitted (o : Offsets) (p : Gen Unit) : List Op :=
  match p ⟨.empty, some ⟨"", 0, #[]⟩, o, ∅⟩ with
  | .ok _ g | .error _ g => (g.current.map fun t => t.code.toList.map Instr.op).getD []

theorem Emits.emitted_eq {p : Gen Unit} {o o' : Offsets} {c : Nat → List Op} (h : Emits p o o' c) :
    emitted o p = c 0 := by
  have := h 0 .empty ⟨"", 0, #[]⟩ ∅ rfl
  rw [Template.append_nil] at this
  simp [emitted, this, Template.append, Instr.plain, Function.comp_def]

theorem emitted_expr {e : Expr} (h : e.plain) : emitted o (expr e) = e.code o :=
  (expr_emits e h).emitted_eq

theorem Emits.of_plain {e : Expr} (h : e.plain) : Emits (expr e) o o fun _ => emitted o (expr e) := by
  rw [emitted_expr h]
  exact expr_emits e h

end Generator
end StackLang
