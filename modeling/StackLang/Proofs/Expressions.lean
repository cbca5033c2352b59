import StackLang.Proofs.Illegible

namespace StackLang

open Generator Machine

namespace Token

def isConstant (t : Token) : Bool := t.isLiteral || t.kind == .stringVal

def constant? (t : Token) : Option Value :=
  if t.kind = .stringVal ∧ t.lexeme = "" then some (.text " ") else t.denoted?

def isReadable (t : Token) : Bool := t.isConstant && t.constant?.isSome

theorem value?_eq_constant? {t : Token} (h : t.isConstant) : t.value? = t.constant? := by
  obtain ⟨kind, lexeme, line, column⟩ := t
  unfold constant?
  split
  · rename_i hempty
    obtain ⟨rfl, rfl⟩ := hempty
    rfl
  · rename_i hempty
    refine value?_eq ((Bool.or_eq_true_iff.1 h).elim id fun hkind => ?_)
    obtain rfl : kind = .stringVal := by simpa using hkind
    simpa [isLiteral] using hempty

theorem value?_of_isReadable (t : Token) (h : t.isReadable) : t.value?.isSome := by
  obtain ⟨hconstant, hvalue⟩ := Bool.and_eq_true_iff.1 h
  rwa [value?_eq_constant? hconstant]

theorem isNumeral_of_constant? {t : Token} (h : t.isConstant) (hnone : t.constant? = none) :
    t.kind = .intVal ∨ t.kind = .doubleVal := by
  obtain ⟨kind, lexeme, line, column⟩ := t
  cases kind with
  | intVal => exact .inl rfl
  | doubleVal => exact .inr rfl
  | stringVal =>
    unfold constant? at hnone
    split at hnone <;> cases hnone
  | boolVal | nullVal => cases hnone
  | _ => cases h

end Token

def Offsets.value? (o : Offsets) (vars : List Value) (name : String) : Option Value :=
  (o.offset? name).bind fun k => vars[k]?

mutual

/-- The value of an expression. Operators group to the right, and those that ask for "greater"
compare the right side with the left. -/
def Expr.value (held : String → Option Value) : Expr → Except Failure Value
  | .mk negated first op rest =>
    match op.bind fun t => sign? t.lexeme with
    | none => do
      let x ← first.value held
      if negated = some true then x.denied else return x
    | some (f, false) => do
      let y ← first.value held
      let x ← restValue held rest
      f.result y x
    | some (f, true) => do
      let y ← restValue held rest
      let x ← first.value held
      f.result y x

def Term.value (held : String → Option Value) : Term → Except Failure Value
  | .literal t => t.constant?.elim (.error (.crash .badNumeral)) .ok
  | .path refs =>
    ((soleName? refs).bind fun t => held t.lexeme).elim (.error (.crash .unknownKey)) .ok
  | .group e => e.value held
  | .create .. | .call .. => .error (.crash .missingPart)

def restValue (held : String → Option Value) : Option Expr → Except Failure Value
  | none => .error (.crash .missingPart)
  | some e => e.value held

end

section Value

variable {image : Image} {o : Offsets} {vars : List Value} {names : List String}

theorem path_produces_value {refs : List Ref}
    (h : (soleName? refs).any fun t => names.contains t.lexeme)
    (hnames : ∀ name ∈ names, ∃ k, o.offset? name = some k ∧ k < vars.length) :
    Produces image vars ((soleName? refs).toList.map fun t => .load (o.operand t.lexeme))
      (((soleName? refs).bind fun t => o.value? vars t.lexeme).elim (.error (.crash .unknownKey))
        .ok) := by
  obtain ⟨t, ht, hmem⟩ := (Option.any_eq_true _ _).1 h
  obtain ⟨k, hk, hlt⟩ := hnames t.lexeme (List.contains_iff_mem.1 hmem)
  have hvar : vars[k]? = some vars[k] := List.getElem?_eq_getElem hlt
  simp only [ht, Option.toList_some, List.map_cons, List.map_nil, Option.bind_some, Offsets.operand,
    Offsets.value?, hk, hvar, Option.elim_some]
  exact produces_load hvar

mutual

theorem expr_produces_value
    (hnames : ∀ name ∈ names, ∃ k, o.offset? name = some k ∧ k < vars.length) :
    (e : Expr) → e.over Token.isReadable names →
      Produces image vars (e.code o) (e.value (o.value? vars))
  | .mk negated first op none, h => by
    obtain ⟨rfl, hfirst⟩ := Expr.over_operand h
    simpa [Expr.value, operate_not] using operand_produces (term_produces_value hnames first hfirst)
  | .mk negated first op (some e), h => by
    obtain ⟨t, f, swapped, rfl, hf, hneg, hfirst, he⟩ := Expr.over_operation h
    have hyields := operation_produces hf hneg (term_produces_value hnames first hfirst)
      (expr_produces_value hnames e he)
    simp only [operate_eq (operator?_of_sign? hf).2.2] at hyields
    cases swapped <;> simpa [Expr.value, restValue, hf] using hyields

theorem term_produces_value
    (hnames : ∀ name ∈ names, ∃ k, o.offset? name = some k ∧ k < vars.length) :
    (t : Term) → t.over Token.isReadable names →
      Produces image vars (t.code o) (t.value (o.value? vars))
  | .literal t, h => by
    obtain ⟨hconstant, hvalue⟩ := Bool.and_eq_true_iff.1 h
    obtain ⟨v, hv⟩ := Option.isSome_iff_exists.1 hvalue
    simp only [Term.code, Term.value, Token.value?_eq_constant? hconstant, hv]
    exact produces_push v
  | .path _, h => path_produces_value h hnames
  | .group e, h => expr_produces_value hnames e h
  | .create .., h | .call .., h => by cases h

end

end Value

namespace Machine

/-- The machine is about to execute operations that stand at place `k` of its innermost call. -/
structure Stands (ops : List Op) (k : Nat) (f : Frame) (below : List Frame) (m : Machine) :
    Prop where
  frames : m.frames = f :: below
  pc : f.pc = .int k
  holds : Holds f.template k ops

def arrived (m : Machine) (f : Frame) (below : List Frame) (k : Nat) (v : Value) (heap : Heap) :
    Machine :=
  { m with heap, frames := { f with pc := .int k, stack := v :: f.stack } :: below }

/-- Executing operations adds one value to the operands and may change the heap, and nothing else;
or it fails before anything is written. -/
def Gives (image : Image) (ops : List Op) (k : Nat) (f : Frame) (below : List Frame) (m : Machine) :
    Except Failure (Value × Heap) → Prop
  | .ok (v, heap) => Moves image below.length k (k + ops.length) ops.length m
      (m.arrived f below (k + ops.length) v heap)
  | .error e => Breaks image below.length k (k + ops.length) m e m.output

def Gains (base : Machine) (f : Frame) (below : List Frame) (vars stack : List Value)
    (output : String) (x : EStateM.Result Failure Machine Unit) :
    Except Failure (Value × Heap) → Prop
  | .ok (v, heap) => x = .ok () (working { base with heap } f below vars (v :: stack) output)
  | .error e => ∃ m, x = .error e m ∧ m.output = output

theorem gains_of_leaves {base : Machine} {f : Frame} {below : List Frame} {vars stack : List Value}
    {output : String} {x : EStateM.Result Failure Machine Unit} {r : Except Failure Value}
    (h : Leaves base f below vars stack output x r) :
    Gains base f below vars stack output x (r.map (·, base.heap)) := by
  cases r with
  | ok v => exact leaves_ok.1 h
  | error e => exact leaves_error.1 h

namespace Stands

variable {ops : List Op} {k : Nat} {f : Frame} {below : List Frame} {m : Machine}
  (h : Stands ops k f below m)

include h

theorem calls : m.calls = f.template :: below.map Frame.template := by
  rw [Machine.calls, h.frames]
  rfl

theorem seek : m.seek k = m := by
  obtain ⟨heap, frames, input, output⟩ := m
  obtain ⟨rfl, hpc, -⟩ := h
  rw [Machine.seek, ← hpc]

theorem working : working m f below f.locals f.stack m.output = m := by
  obtain ⟨heap, frames, input, output⟩ := m
  obtain ⟨rfl, -, -⟩ := h
  rfl

theorem gives {image : Image} {r : Except Failure (Value × Heap)}
    (hs : ∀ op ∈ ops, Local (exec image (.plain op)))
    (hops : Gains m f below f.locals f.stack m.output (perform image ops m) r) :
    Gives image ops k f below m r := by
  cases r with
  | ok result =>
    have hmoves := moves_local h.calls h.holds hs (Nat.le_refl k) (Nat.le_refl _) hops
    rw [h.seek, List.length_map] at hmoves
    exact hmoves
  | error e =>
    obtain ⟨m', hm', hout⟩ := hops
    have hbreaks := breaks_local h.calls h.holds hs (Nat.le_refl k) (Nat.le_refl _) hm'
    rw [h.seek, List.length_map, hout] at hbreaks
    exact hbreaks

theorem gives_value {image : Image} {r : Except Failure Value} (hs : ∀ op ∈ ops, op.straight)
    (hops : Produces image f.locals ops r) : Gives image ops k f below m (r.map (·, m.heap)) := by
  have hleaves := hops m f below f.stack m.output
  rw [h.working] at hleaves
  exact h.gives (fun op hop => .exec image (hs op hop)) (gains_of_leaves hleaves)

end Stands

end Machine

/-- The code of an expression of literals, variables, parentheses and operators, in which only
single operands are negated, computes the value of the expression at any place of any template, in
any call whose variables have something at the offsets of the names, if its numerals can all be
read. If one of them cannot, such as a whole number of too many digits, there is no code to run. -/
theorem expr_gives_value (e : Expr) (names : List String) (he : e.over Token.isConstant names)
    (g : Generator) (t : Template) (ht : g.current = some t) :
    (e.over Token.isReadable names →
      ∃ ops, expr e g = .ok () { g with current := some (t.append ops) } ∧
        ∀ image k f below m, Stands ops k f below m →
          (∀ name ∈ names, ∃ i, g.offsets.offset? name = some i ∧ i < f.locals.length) →
          Gives image ops k f below m
            ((e.value (g.offsets.value? f.locals)).map (·, m.heap))) ∧
    (e.over Token.isReadable names = false →
      ∃ g', expr e g = .error (.crash .badNumeral) g') := by
  obtain ⟨genImage, current, o, structs⟩ := g
  obtain rfl : current = some t := ht
  refine ⟨fun h => ?_, fun h => ?_⟩
  · have hplain := e.plain_of_values Token.value?_of_isReadable h
    refine ⟨e.code o, ?_, fun image k f below m hm hnames => ?_⟩
    · have hemits := expr_emits (o := o) e hplain t.code.size genImage t structs rfl
      rwa [Template.append_nil] at hemits
    · exact hm.gives_value e.straight_code (expr_produces_value hnames e h)
  · refine expr_stumbles_of Token.value?_of_isReadable (fun t ht hbad => ?_) e he h genImage t
      structs
    have hnone : t.constant? = none := by simpa [Token.isReadable, ht] using hbad
    exact literal_stumbles (Token.isNumeral_of_constant? ht hnone)
      (by rw [Token.value?_eq_constant? ht, hnone])

def reaching : Expr :=
  let numeral (lexeme : String) : Term := .literal (word .intVal lexeme)
  binary (.path [.mk (word .id "x") none]) .greaterEq ">="
    (binary (numeral "10") .minus "-" (binary (numeral "2") .minus "-" (number "1")))

theorem reaching_gives_true :
    let t : Template := ⟨"f", 0, #[.plain .nop]⟩
    let g : Generator := ⟨.empty, some t, ⟨[["y", "x"]]⟩, ∅⟩
    ∃ ops, expr reaching g = .ok () { g with current := some (t.append ops) } ∧
      ∀ image m, m.frames = [⟨t.append ops, .int 1, [.null, .int 9], [.int 3]⟩] →
        Gives image ops 1 ⟨t.append ops, .int 1, [.null, .int 9], [.int 3]⟩ [] m
          (.ok (.text "true", m.heap)) := by
  intro t g
  obtain ⟨ops, hops, hgives⟩ := (expr_gives_value reaching ["x"] (by decide +kernel) g t rfl).1
    (by decide +kernel)
  refine ⟨ops, hops, fun image m hm => ?_⟩
  have hnames : ∀ name ∈ ["x"], ∃ i, g.offsets.offset? name = some i ∧
      i < [Value.null, .int 9].length := by
    simp only [List.mem_singleton, forall_eq]
    exact ⟨1, by decide +kernel, by decide⟩
  have hvalue : reaching.value (g.offsets.value? [.null, .int 9]) = .ok (.text "true") := by
    decide +kernel
  have hm := hgives image 1 _ [] m ⟨hm, rfl, holds_append t ops⟩ hnames
  rwa [hvalue] at hm

end StackLang
