import StackLang.Parser
import StackLang.Proofs.Fragments
import StackLang.Proofs.Producing
import StackLang.Proofs.Truth

namespace StackLang

open Generator Machine

mutual

def Expr.isClosed : Expr → Bool
  | .mk _ first op rest =>
    first.isClosed && closedIfAny rest && op.isSome == rest.isSome &&
      op.all fun t => (sign? t.lexeme).isSome

def Term.isClosed : Term → Bool
  | .literal t => t.speaks
  | .create _ size args => closedIfAny size && closedList args
  | .path _ | .call .. => false
  | .group e => e.isClosed

def closedIfAny : Option Expr → Bool
  | some e => e.isClosed
  | none => true

def closedList : Option (List Expr) → Bool
  | some l => closedExprs l
  | none => true

def closedExprs : List Expr → Bool
  | [] => true
  | e :: l => e.isClosed && closedExprs l

end

section Closed

variable {negated : Option Bool} {first : Term} {op : Option Token}

theorem Expr.closed_operand (h : (Expr.mk negated first op none).isClosed) :
    op = none ∧ first.isClosed := by
  simp only [Expr.isClosed, closedIfAny, Bool.and_eq_true, beq_iff_eq, Option.isSome_none,
    Option.isSome_eq_false_iff, Option.isNone_iff_eq_none] at h
  exact ⟨h.1.2, h.1.1.1⟩

theorem Expr.closed_operation {e : Expr} (h : (Expr.mk negated first op (some e)).isClosed) :
    ∃ t f b, op = some t ∧ sign? t.lexeme = some (f, b) ∧ first.isClosed ∧ e.isClosed := by
  simp only [Expr.isClosed, closedIfAny, Bool.and_eq_true, beq_iff_eq] at h
  obtain ⟨⟨⟨hfirst, he⟩, hop⟩, hsign⟩ := h
  obtain ⟨t, rfl⟩ := Option.isSome_iff_exists.1 hop
  obtain ⟨⟨f, b⟩, hf⟩ := Option.isSome_iff_exists.1 hsign
  exact ⟨t, f, b, rfl, hf, hfirst, he⟩

end Closed

theorem Template.append_inj {t : Template} {a b : List Op} (h : t.append a = t.append b) :
    a = b := by
  have hcode := congrArg (fun u => u.code.toList) h
  simp only [append, Array.toList_append, List.append_cancel_left_eq] at hcode
  exact List.map_injective_iff.2 (fun _ _ hop => congrArg Instr.op hop) hcode

namespace Generator

/-- The code of an operation, from the code of its sides. -/
def arranged (negated : Option Bool) (op : Option Token) (a b : List Op) : List Op :=
  if swaps op then b ++ (a ++ operation op) else a ++ (negation negated ++ (b ++ operation op))

section Arranged

variable {o : Offsets} {structs : Table String StructDef} {negated : Option Bool} {first : Term}
  {op : Option Token} {e : Expr} {a b : List Op} {C D : List Op → Prop} {x : Gen Unit}

theorem Fixed.self (h : Fixed o structs C x) :
    Fixed o structs (fun a => C a ∧ Writes o structs x a) x := by
  obtain ⟨a, ha, hx⟩ | hx := h
  · exact .inl ⟨a, ⟨ha, hx⟩, hx⟩
  · exact .inr hx

theorem Fixed.of_ok {image : Image} {t : Template} (h : Fixed o structs C x)
    (hx : x ⟨image, some t, o, structs⟩ = .ok () ⟨image, some (t.append a), o, structs⟩) :
    C a ∧ Writes o structs x a := by
  obtain ⟨b, hb, hw⟩ | ⟨e, he⟩ := h
  · rw [hw] at hx
    simp only [EStateM.Result.ok.injEq, Generator.mk.injEq, Option.some.injEq, true_and,
      and_true] at hx
    obtain rfl := Template.append_inj hx
    exact ⟨hb, hw⟩
  · obtain ⟨g, hg⟩ := he image t
    rw [hg] at hx
    cases hx

theorem Fixed.of_writes (h : Fixed o structs C x) (hx : Writes o structs x a) : C a :=
  (h.of_ok (hx .empty ⟨"", 0, #[]⟩)).1

theorem operation_writes (op : Option Token) : Writes o structs
    (match op.bind fun t => operator? t.lexeme with
      | some f => emit f
      | none => pure ()) (operation op) := by
  intro image t
  have hemits := operation_emits (n := t.code.size) (o := o) (a := []) op image t structs rfl
  rwa [Template.append_nil] at hemits

theorem negated_writes (negated : Option Bool) (hx : Writes o structs x a) : Writes o structs
    (if negated = some true then do emit .not; x else x) (negation negated ++ a) := by
  unfold negation
  split
  · exact (Writes.emit .not).seq hx
  · exact hx

theorem expr_writes_operand (ha : Writes o structs (term first) a) :
    Writes o structs (expr (.mk negated first none none)) (a ++ negation negated) := by
  have hwrites := ha.seq (negated_writes negated (operation_writes none))
  rwa [show operation none = [] from rfl, List.append_nil] at hwrites

theorem expr_writes_operation (ha : Writes o structs (term first) a)
    (hb : Writes o structs (expr e) b) :
    Writes o structs (expr (.mk negated first op (some e))) (arranged negated op a b) := by
  unfold arranged
  by_cases hswaps : swaps op
  · simp only [expr, hswaps, if_true]
    exact hb.seq (ha.seq (operation_writes op))
  · simp only [expr, hswaps, if_false, Bool.false_eq_true]
    exact ha.seq (negated_writes negated (hb.seq (operation_writes op)))

theorem Fixed.both {y : Gen Unit} (hx : Fixed o structs C x) (hy : Fixed o structs D y) :
    Fixed o structs (fun ops => ∃ a b, C a ∧ D b ∧ ops = a ++ b) (do x; y) :=
  hx.seq hy fun a b ha hb => ⟨a, b, ha, hb, rfl⟩

theorem expr_fixed_operand (ha : Fixed o structs C (term first)) :
    Fixed o structs (fun ops => ∃ a, C a ∧ ops = a ++ negation negated)
      (expr (.mk negated first none none)) := by
  refine (ha.both (negated_fixed negated (operation_fixed none))).mono ?_
  rintro _ ⟨a, _, ha, ⟨_, rfl, rfl⟩, rfl⟩
  exact ⟨a, ha, by simp [operation]⟩

theorem expr_fixed_operation (ha : Fixed o structs C (term first))
    (hb : Fixed o structs D (expr e)) :
    Fixed o structs (fun ops => ∃ a b, C a ∧ D b ∧ ops = arranged negated op a b)
      (expr (.mk negated first op (some e))) := by
  by_cases hswaps : swaps op
  · simp only [expr, arranged, hswaps, if_true]
    refine (hb.both (ha.both (operation_fixed op))).mono ?_
    rintro _ ⟨b, _, hb, ⟨a, _, ha, rfl, rfl⟩, rfl⟩
    exact ⟨a, b, ha, hb, rfl⟩
  · simp only [expr, arranged, hswaps, if_false, Bool.false_eq_true]
    refine (ha.both (negated_fixed negated (hb.both (operation_fixed op)))).mono ?_
    rintro _ ⟨a, _, ha, ⟨_, ⟨b, _, hb, rfl, rfl⟩, rfl⟩, rfl⟩
    exact ⟨a, b, ha, hb, rfl⟩

theorem effective_negation (ha : Effective 0 a) : Effective 0 (a ++ negation negated) := by
  unfold negation
  split
  · exact ha.append .not
  · rwa [List.append_nil]

theorem effective_arranged {t : Token} {f : Op} {swapped : Bool}
    (hf : sign? t.lexeme = some (f, swapped)) (ha : Effective 0 a) (hb : Effective 0 b) :
    Effective 0 (arranged negated (some t) a b) := by
  obtain ⟨hoperator, -, hbinary⟩ := operator?_of_sign? hf
  have hop : operation (some t) = [f] := by simp [operation, hoperator]
  unfold arranged
  rw [hop]
  split
  · exact hb.append (ha.append (.operation hbinary))
  · rw [← List.append_assoc]
    exact (effective_negation ha).append (hb.append (.operation hbinary))

mutual

theorem expr_effective : (e : Expr) → e.isClosed → Fixed o structs (Effective 0) (expr e)
  | .mk negated first op none, h => by
    obtain ⟨rfl, hfirst⟩ := Expr.closed_operand h
    refine (expr_fixed_operand (term_effective first hfirst)).mono ?_
    rintro _ ⟨a, ha, rfl⟩
    exact effective_negation ha
  | .mk negated first op (some e), h => by
    obtain ⟨t, f, swapped, rfl, hf, hfirst, he⟩ := Expr.closed_operation h
    refine (expr_fixed_operation (term_effective first hfirst) (expr_effective e he)).mono ?_
    rintro _ ⟨a, b, ha, hb, rfl⟩
    exact effective_arranged hf ha hb

theorem term_effective : (t : Term) → t.isClosed → Fixed o structs (Effective 0) (term t)
  | .literal t, h => literal_fixed h .push
  | .create type (some e) args, h => by
    simp only [Term.isClosed, closedIfAny, Bool.and_eq_true] at h
    simp only [term]
    exact (expr_effective e h.1).seq (D := Effective 1) (.emit .allocArray) fun _ _ ha hb =>
      ha.append hb
  | .create type none (some l), h => by
    simp only [Term.isClosed, closedIfAny, closedList, Bool.true_and] at h
    simp only [term]
    exact Fixed.seq (C := Effective 0) (.emit .allocStruct)
      (initializers_effective type.lexeme 0 l h) fun _ _ ha hb => ha.append hb
  | .create type none none, h => by
    simp only [term]
    exact Fixed.seq (C := Effective 0) (D := fun _ => False) (.emit .allocStruct) (.throw _)
      fun _ _ _ h => h.elim
  | .path _, h | .call .., h => by cases h
  | .group e, h => expr_effective e h

theorem initializers_effective (struct : String) (i : Nat) : (l : List Expr) → closedExprs l →
    Fixed o structs (Effective 1) (initializers struct i l)
  | [], _ => .pure .nil
  | e :: l, h => by
    simp only [closedExprs, Bool.and_eq_true] at h
    refine .field fun name => ?_
    have hlater := initializers_effective struct (i + 1) l h.2
    refine (((expr_effective e h.1).both (hlater.cons (.setField (.text name)))).cons .dup).mono ?_
    rintro _ ⟨_, ⟨a, _, ha, ⟨b, hb, rfl⟩, rfl⟩, rfl⟩
    have hfields := (ha.field (.text name)).append hb
    simpa using hfields

end

end Arranged
end Generator

theorem Parser.expr_not {n : Nat} {s₀ s s' : Feed} {w : Token} {e : Expr}
    (hw : s₀.current = some w) (hkind : w.kind = .notOp) (hs : Parse.advance s₀ = .ok () s)
    (he : Parser.expr n s = .ok e s') : Parser.expr (n + 1) s₀ = .ok e.negate s' := by
  have hlook : Parse.kind s₀ = .ok .notOp s₀ := by
    simp only [Parse.kind, Parse.look, bind, EStateM.bind, hw, hkind]
    rfl
  simp only [Parser.expr, bind, EStateM.bind, hlook, hs, he]
  rfl

theorem Generator.expr_of_swaps {negated negated' : Option Bool} {first : Term} {op : Option Token}
    {rest : Option Expr} (h : swaps op) :
    Generator.expr (.mk negated first op rest) = Generator.expr (.mk negated' first op rest) := by
  cases rest <;> simp only [Generator.expr, h, if_true]

namespace Machine

/-- Operations have a result in every machine with the given heap. -/
def Amounts (ops : List Op) (heap : Heap) (r : Except Failure (Value × Heap)) : Prop :=
  ∀ image k f below m, Stands ops k f below m → m.heap = heap → Gives image ops k f below m r

theorem Acts.amounts {ops : List Op} {r : Effect} (h : Acts 0 ops r)
    (hs : ∀ op ∈ ops, op.steady) (heap : Heap) : Amounts ops heap (r [] heap) := by
  rintro image k f below m hm rfl
  exact hm.gives_effect hs h

theorem Acts.eq_of_gives {image : Image} {ops : List Op} {k : Nat} {f : Frame} {below : List Frame}
    {m : Machine} {r : Effect} {s : Except Failure (Value × Heap)} (h : Acts 0 ops r)
    (hs : ∀ op ∈ ops, op.steady) (hm : Stands ops k f below m)
    (hops : Gives image ops k f below m s) : r [] m.heap = s :=
  (hm.gives_effect hs h).unique hops

end Machine

section Negate

variable {o : Offsets} {structs : Table String StructDef} {first : Term} {negated : Option Bool}
  {image : Image} {ops : List Op} {k : Nat} {f : Frame} {below : List Frame} {m : Machine}
  {v : Value} {heap : Heap}

theorem negate_operand (hclosed : first.isClosed) (hneg : negated ≠ some true)
    (hops : Writes o structs (expr (.mk negated first none none)) ops)
    (hm : Stands ops k f below m) (hv : Gives image ops k f below m (.ok (v, heap))) :
    ∃ ops', Writes o structs (expr (.mk (some true) first none none)) ops' ∧
      Amounts ops' m.heap (v.denied.map (·, heap)) := by
  obtain ⟨a, ⟨ha, hwrites⟩, heq⟩ :=
    (expr_fixed_operand (term_effective first hclosed).self).of_writes hops
  rw [negation, if_neg hneg, List.append_nil] at heq
  subst heq
  have hnot := ha.append .not
  obtain ⟨r, hr⟩ := ha.acts
  have hvalue := hr.eq_of_gives ha.steady hm hv
  have hamounts := (hr.append acts_not).amounts hnot.steady m.heap
  simp only [List.take_zero, hvalue] at hamounts
  exact ⟨ops ++ [.not], expr_writes_operand hwrites, hamounts⟩

theorem negate_operation {e : Expr} {t : Token} {op : Op} (hfirst : first.isClosed)
    (he : e.isClosed) (hneg : negated ≠ some true) (hop : sign? t.lexeme = some (op, false))
    (hops : Writes o structs (expr (.mk negated first (some t) (some e))) ops)
    (hm : Stands ops k f below m) (hv : Gives image ops k f below m (.ok (v, heap))) :
    ∃ ops' a b y x heap₁, Writes o structs (expr (.mk (some true) first (some t) (some e))) ops' ∧
      Writes o structs (term first) a ∧ Amounts a m.heap (.ok (y, heap₁)) ∧
      Writes o structs (expr e) b ∧ Amounts b heap₁ (.ok (x, heap)) ∧ op.result y x = .ok v ∧
      Amounts ops' m.heap ((do op.result (← y.denied) x).map (·, heap)) := by
  obtain ⟨hoperator, hswaps, hbinary⟩ := operator?_of_sign? hop
  have hoperation : operation (some t) = [op] := by simp [operation, hoperator]
  have hforward : swaps (some t) = false := hswaps
  obtain ⟨a, b, ⟨ha, hwa⟩, ⟨hb, hwb⟩, heq⟩ :=
    (expr_fixed_operation (term_effective first hfirst).self (expr_effective e he).self).of_writes
      hops
  have hbehind := hb.append (.operation hbinary)
  obtain ⟨r, hr⟩ := ha.acts
  obtain ⟨s, hs⟩ := hb.acts
  -- The run of the whole splits into those of the two sides.
  obtain ⟨y, x, heap₁, hy, hx, hresult⟩ : ∃ y x heap₁, r [] m.heap = .ok (y, heap₁) ∧
      s [] heap₁ = .ok (x, heap) ∧ op.result y x = .ok v := by
    simp only [arranged, hforward, if_false, Bool.false_eq_true, negation, if_neg hneg, hoperation,
      List.nil_append] at heq
    subst heq
    exact Op.sides_of_joined ((hr.join hbinary hs).eq_of_gives (ha.append hbehind).steady hm hv)
  have hwrites : Writes o structs (expr (.mk (some true) first (some t) (some e))) _ :=
    expr_writes_operation hwa hwb
  have hcode : arranged (some true) (some t) a b = a ++ [.not] ++ (b ++ [op]) := by
    simp [arranged, hforward, negation, hoperation]
  have hamounts := (Acts.join hbinary (hr.append acts_not) hs).amounts
    ((ha.append .not).append hbehind).steady m.heap
  rw [hcode] at hwrites
  refine ⟨_, a, b, y, x, heap₁, hwrites, hwa, hy ▸ hr.amounts ha.steady m.heap, hwb,
    hx ▸ hs.amounts hb.steady heap₁, hresult, ?_⟩
  convert hamounts using 1
  simp only [Op.joined, List.take_zero, hy, bind, Except.bind, List.headD_cons]
  cases y.denied with
  | error e => rfl
  | ok z => simp [Except.map, hx]

theorem shown_denied_iff {b : Bool} (hv : v.shown = .ok (truthWord b)) :
    v.denied = .ok (.bool !v.truthy) ∧
      ((Value.bool !v.truthy).shown = .ok (truthWord !b) ↔ v ≠ .text "false") := by
  obtain rfl | rfl := Value.tells_of_shown hv <;> cases b <;> decide

end Negate

/-- The word `not` in front of a closed expression whose code computes a truth value. The expression
with the word has a tree and code. If it started with the word already, or if its operator asks for
"greater", the code is the same. A single operand gets negated, and that gives the opposite truth
value unless the value is the text "false". Of any other operation the left side is negated. -/
theorem negate_amounts (n : Nat) (s₀ s s' : Feed) (w : Token) (e : Expr)
    (hw : s₀.current = some w) (hkind : w.kind = .notOp) (hs : Parse.advance s₀ = .ok () s)
    (he : Parser.expr n s = .ok e s') (hclosed : e.isClosed) (g : Generator) (t : Template)
    (ht : g.current = some t) (ops : List Op)
    (hops : Generator.expr e g = .ok () { g with current := some (t.append ops) })
    (image : Image) (k : Nat) (f : Frame) (below : List Frame) (m : Machine)
    (hm : Stands ops k f below m) (v : Value) (heap : Heap) (b : Bool)
    (hv : Gives image ops k f below m (.ok (v, heap))) (hb : v.shown = .ok (truthWord b)) :
    Parser.expr (n + 1) s₀ = .ok e.negate s' ∧ Amounts ops m.heap (.ok (v, heap)) ∧
    ∃ ops', Generator.expr e.negate g = .ok () { g with current := some (t.append ops') } ∧
      ((e.negated = some true ∨ swaps e.op) ∧ ops' = ops ∨
        e.negated ≠ some true ∧ e.op = none ∧
          Amounts ops' m.heap (.ok (.bool !v.truthy, heap)) ∧
          ((Value.bool !v.truthy).shown = .ok (truthWord !b) ↔ v ≠ .text "false") ∨
        e.negated ≠ some true ∧ ∃ sign rest op, e.op = some sign ∧ e.rest = some rest ∧
          sign? sign.lexeme = some (op, false) ∧ ∃ left right y x heap₁,
            term e.first g = .ok () { g with current := some (t.append left) } ∧
            Amounts left m.heap (.ok (y, heap₁)) ∧
            Generator.expr rest g = .ok () { g with current := some (t.append right) } ∧
            Amounts right heap₁ (.ok (x, heap)) ∧ op.result y x = .ok v ∧
            Amounts ops' m.heap ((do op.result (← y.denied) x).map (·, heap))) := by
  obtain ⟨genImage, current, o, structs⟩ := g
  obtain rfl : current = some t := ht
  obtain ⟨heffective, hwrites⟩ := (expr_effective e hclosed).of_ok hops
  obtain ⟨r, hr⟩ := heffective.acts
  have hsame : Amounts ops m.heap (.ok (v, heap)) :=
    hr.eq_of_gives heffective.steady hm hv ▸ hr.amounts heffective.steady m.heap
  refine ⟨Parser.expr_not hw hkind hs he, hsame, ?_⟩
  obtain ⟨negated, first, op, rest⟩ := e
  by_cases hneg : negated = some true
  · subst hneg
    exact ⟨ops, hops, .inl ⟨.inl rfl, rfl⟩⟩
  by_cases hswaps : swaps op
  · refine ⟨ops, ?_, .inl ⟨.inr hswaps, rfl⟩⟩
    rw [← hops]
    exact congrFun (expr_of_swaps hswaps) _
  cases rest with
  | none =>
    obtain ⟨rfl, hfirst⟩ := Expr.closed_operand hclosed
    obtain ⟨hdenied, hshown⟩ := shown_denied_iff hb
    obtain ⟨ops', hops', hamounts⟩ := negate_operand hfirst hneg hwrites hm hv
    rw [hdenied] at hamounts
    exact ⟨ops', hops' genImage t, .inr (.inl ⟨hneg, rfl, hamounts, hshown⟩)⟩
  | some rest =>
    obtain ⟨sign, op, swapped, rfl, hsign, hfirst, hrest⟩ := Expr.closed_operation hclosed
    obtain rfl : swapped = false := by
      rw [← (operator?_of_sign? hsign).2.1]
      simpa [swaps] using hswaps
    obtain ⟨ops', left, right, y, x, heap₁, hops', hleft, hy, hright, hx, hresult, hamounts⟩ :=
      negate_operation hfirst hrest hneg hsign hwrites hm hv
    exact ⟨ops', hops' genImage t, .inr (.inr ⟨hneg, sign, rest, op, rfl, rfl, hsign, left, right,
      y, x, heap₁, hleft genImage t, hy, hright genImage t, hx, hresult, hamounts⟩)⟩

def having : Expr :=
  .operand (.group (.mk (some false)
    (.create ⟨.intType, "int", 1, 10⟩ (some (.operand (.literal ⟨.intVal, "3", 1, 14⟩))) none)
    (some ⟨.andOp, "and", 1, 17⟩) (some (.operand (.literal ⟨.boolVal, "true", 1, 21⟩)))))

/-- The tokens of `not (new int[3] and true)`. -/
def notHaving : Feed :=
  let read (kind : Token.Kind) (lexeme : String) (column : Nat) : Reading :=
    ⟨⟨kind, lexeme, 1, column⟩, 1, column⟩
  ⟨some ⟨.notOp, "not", 1, 1⟩, 1, 1, [read .lparen "(" 5, read .newKw "new" 6,
    read .intType "int" 10, read .lbracket "[" 13, read .intVal "3" 14, read .rbracket "]" 15,
    read .andOp "and" 17, read .boolVal "true" 21, read .rparen ")" 25], .marks 1 26⟩

/-- An object counts as true, so the operand in parentheses is true and its negation is not. -/
theorem having_negated :
    let g : Generator := ⟨.empty, some ⟨"f", 0, #[]⟩, ⟨[]⟩, ∅⟩
    (∃ s, Parser.expr 9 notHaving = .ok having.negate s) ∧
    ∃ ops, Generator.expr having.negate g =
        .ok () { g with current := some (Template.append ⟨"f", 0, #[]⟩ ops) } ∧
      Amounts ops .empty (.ok (.bool false, ⟨#[.array #[.null, .null, .null]]⟩)) := by
  intro g
  let ops : List Op := [.push (.int 3), .allocArray, .push (.bool true), .and]
  let f : Frame := .enter (Template.append ⟨"f", 0, #[]⟩ ops)
  have hparse : Parser.expr 8 { notHaving with
      current := some ⟨.lparen, "(", 1, 5⟩, column := 5, ahead := notHaving.ahead.tail } =
      .ok having ⟨some ⟨.eos, "", 1, 26⟩, 1, 26, [], .marks 1 27⟩ := rfl
  have hm : Stands ops 0 f [] { Machine.empty with frames := [f] } :=
    ⟨rfl, rfl, holds_append ⟨"f", 0, #[]⟩ ops⟩
  have hv : Gives .empty ops 0 f [] { Machine.empty with frames := [f] }
      (.ok (.bool true, ⟨#[.array #[.null, .null, .null]]⟩)) :=
    .step rfl rfl (.step rfl rfl (.step rfl rfl (.step rfl rfl (.none _))))
  obtain ⟨hnot, -, ops', hops', hcases⟩ := negate_amounts 8 notHaving _ _ _ having rfl rfl rfl
    hparse (by decide +kernel) g ⟨"f", 0, #[]⟩ rfl ops rfl .empty 0 f [] _ hm _ _ true hv rfl
  refine ⟨⟨_, hnot⟩, ops', hops', ?_⟩
  obtain ⟨h | h, -⟩ | ⟨-, -, hamounts, -⟩ | ⟨-, sign, rest, op, h, -⟩ := hcases
  · cases h
  · cases h
  · exact hamounts
  · cases h

/-- The word negates the first operand only: `not true and false` is shown as `true and false`. -/
theorem execute_not_both :
    (Compiler.execute false false (.ofText "void main() \x7bprint(true and false);\x7d")
        []).1.output = "false" ∧
      (Compiler.execute false false (.ofText "void main() \x7bprint(not true and false);\x7d")
        []).1.output = "false" := by
  decide +kernel

end StackLang
