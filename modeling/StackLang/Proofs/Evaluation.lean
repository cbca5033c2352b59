import StackLang.Proofs.ControlFlow
import StackLang.Proofs.Operands

namespace StackLang

open Generator Machine

/-- The characters of a literal, with the escapes for the line break and the tab replaced. -/
def unescaped : List Char → List Char
  | '\\' :: 'n' :: rest => '\n' :: unescaped rest
  | '\\' :: 't' :: rest => '\t' :: unescaped rest
  | c :: rest => c :: unescaped rest
  | [] => []

namespace Token

def isLiteral (t : Token) : Bool :=
  match t.kind with
  | .intVal | .doubleVal => true
  | .stringVal => t.lexeme != ""
  | .boolVal => t.lexeme == "true" || t.lexeme == "false"
  | .nullVal => t.lexeme == "null"
  | _ => false

def denoted? (t : Token) : Option Value :=
  match t.kind with
  | .intVal => (Numeral.int? t.lexeme).map .int
  | .doubleVal => (Numeral.double? t.lexeme).map .double
  | .stringVal => some (.text (String.ofList (unescaped t.lexeme.toList)))
  | .boolVal => some (.bool (t.lexeme == "true"))
  | .nullVal => some .null
  | _ => none

def isLegible (t : Token) : Bool := t.isLiteral && t.denoted?.isSome

/-- Literals that denote a value, or would if a whole number could have any number of digits. -/
def isMeant (t : Token) : Bool :=
  t.isLiteral && (t.denoted?.isSome || t.kind == .intVal && (Numeral.whole? t.lexeme).isSome)

theorem isLiteral_of_isMeant (t : Token) (h : t.isMeant) : t.isLiteral :=
  (Bool.and_eq_true_iff.1 h).1

end Token

/-- The operation of an operator sign, and whether it takes the right side before the left. -/
def sign? : String → Option (Op × Bool)
  | "+" => some (.add, false)
  | "-" => some (.sub, false)
  | "*" => some (.mul, false)
  | "/" => some (.div, false)
  | "and" => some (.and, false)
  | "or" => some (.or, false)
  | "<" => some (.less, false)
  | ">" => some (.less, true)
  | "<=" => some (.lessEq, false)
  | ">=" => some (.lessEq, true)
  | "==" => some (.equal, false)
  | "!=" => some (.notEqual, false)
  | _ => none

mutual

/-- Expressions of literals, known variables, parentheses and operators, without a negation of an
operation. -/
def Expr.over (literal : Token → Bool) (names : List String) : Expr → Bool
  | .mk negated first op rest =>
    first.over literal names && overRest literal names rest && op.isSome == rest.isSome &&
      op.all (fun t => (sign? t.lexeme).isSome) && (negated != some true || op.isNone)

def Term.over (literal : Token → Bool) (names : List String) : Term → Bool
  | .literal t => literal t
  | .path refs => (soleName? refs).any fun t => names.contains t.lexeme
  | .group e => e.over literal names
  | .create .. | .call .. => false

def overRest (literal : Token → Bool) (names : List String) : Option Expr → Bool
  | none => true
  | some e => e.over literal names

end

section Over

variable {literal : Token → Bool} {names : List String} {negated : Option Bool} {first : Term}
  {op : Option Token}

theorem Expr.over_operand (h : (Expr.mk negated first op none).over literal names) :
    op = none ∧ first.over literal names := by
  simp only [Expr.over, Bool.and_eq_true, beq_iff_eq, Option.isSome_none,
    Option.isSome_eq_false_iff, Option.isNone_iff_eq_none] at h
  exact ⟨h.1.1.2, h.1.1.1.1⟩

theorem Expr.over_operation {e : Expr}
    (h : (Expr.mk negated first op (some e)).over literal names) :
    ∃ t f b, op = some t ∧ sign? t.lexeme = some (f, b) ∧ negated ≠ some true ∧
      first.over literal names ∧ e.over literal names := by
  simp only [Expr.over, Bool.and_eq_true, beq_iff_eq] at h
  obtain ⟨⟨⟨⟨hfirst, he⟩, hop⟩, hsign⟩, hneg⟩ := h
  obtain ⟨t, rfl⟩ := Option.isSome_iff_exists.1 hop
  obtain ⟨⟨f, b⟩, hf⟩ := Option.isSome_iff_exists.1 hsign
  exact ⟨t, f, b, rfl, hf, by simpa using hneg, hfirst, he⟩

end Over

mutual

/-- The value of an expression. Operators group to the right. -/
def Expr.eval (env : List (String × Value)) : Expr → Except Failure Value
  | .mk negated first op rest =>
    match op.bind fun t => sign? t.lexeme with
    | none => do
      let x ← first.eval env
      if negated = some true then operate .not [x] else return x
    | some (f, false) => do
      let y ← first.eval env
      let x ← evalRest env rest
      operate f [x, y]
    | some (f, true) => do
      let y ← evalRest env rest
      let x ← first.eval env
      operate f [x, y]

def Term.eval (env : List (String × Value)) : Term → Except Failure Value
  | .literal t => t.denoted?.elim (.error (.crash .badNumeral)) .ok
  | .path refs =>
    ((soleName? refs).bind fun t => env.lookup t.lexeme).elim (.error (.crash .unknownKey)) .ok
  | .group e => e.eval env
  | .create .. | .call .. => .error (.crash .missingPart)

def evalRest (env : List (String × Value)) : Option Expr → Except Failure Value
  | none => .error (.crash .missingPart)
  | some e => e.eval env

end

theorem unescape_keep {escape replacement c : Char} {rest : List Char}
    (h : c = '\\' → rest.head? ≠ some escape) :
    unescape escape replacement (c :: rest) = c :: unescape escape replacement rest := by
  by_cases hc : c = '\\'
  · subst hc
    cases rest with
    | nil => rfl
    | cons d rest =>
      have hd : d ≠ escape := by simpa using h rfl
      rw [unescape, if_neg hd]
  · rw [unescape]
    simp [hc]

theorem unescape_head {escape replacement x : Char} {cs : List Char}
    (h : (unescape escape replacement cs).head? = some x) :
    x = replacement ∨ cs.head? = some x := by
  cases cs with
  | nil => cases h
  | cons c rest =>
    by_cases hk : c = '\\' ∧ rest.head? = some escape
    · obtain ⟨rfl, hrest⟩ := hk
      obtain ⟨tail, rfl⟩ := List.head?_eq_some_iff.1 hrest
      rw [unescape, if_pos rfl] at h
      exact .inl (Option.some.inj h).symm
    · rw [unescape_keep fun hc hrest => hk ⟨hc, hrest⟩] at h
      exact .inr h

theorem unescape_unescape (cs : List Char) :
    unescape 't' '\t' (unescape 'n' '\n' cs) = unescaped cs := by
  induction cs using unescaped.induct with
  | case1 rest ih => simp [unescape, unescaped, ih]
  | case2 rest ih => simp [unescape, unescaped, ih]
  | case3 c rest hn ht ih =>
    have hinner : c = '\\' → rest.head? ≠ some 'n' := by
      rintro rfl hrest
      obtain ⟨tail, rfl⟩ := List.head?_eq_some_iff.1 hrest
      exact hn tail rfl rfl
    have houter : c = '\\' → (unescape 'n' '\n' rest).head? ≠ some 't' := by
      rintro rfl hrest
      obtain h | h := unescape_head hrest
      · cases h
      · obtain ⟨tail, rfl⟩ := List.head?_eq_some_iff.1 h
        exact ht tail rfl rfl
    rw [unescape_keep hinner, unescape_keep houter, ih, unescaped]
    · exact hn
    · exact ht
  | case4 => rfl

theorem Token.value?_eq {t : Token} (h : t.isLiteral) : t.value? = t.denoted? := by
  obtain ⟨kind, lexeme, line, column⟩ := t
  cases kind with
  | intVal | doubleVal => rfl
  | stringVal =>
    have hne : lexeme ≠ "" := by simpa [isLiteral] using h
    simp only [value?, denoted?, literalText, if_neg hne, unescape_unescape]
  | boolVal =>
    have hword : lexeme = "true" ∨ lexeme = "false" := by simpa [isLiteral] using h
    obtain rfl | rfl := hword <;> rfl
  | nullVal =>
    obtain rfl : lexeme = "null" := by simpa [isLiteral] using h
    rfl
  | _ => cases h

theorem operator?_of_sign? {sign : String} {f : Op} {b : Bool} (h : sign? sign = some (f, b)) :
    operator? sign = some f ∧ (sign == ">" || sign == ">=") = b ∧ f.isBinary := by
  unfold sign? at h
  split at h <;> cases h <;> exact ⟨rfl, rfl, rfl⟩

/-- The machine has a value on top of the operands, or failed, and nothing was written. -/
def Leaves (base : Machine) (f : Frame) (below : List Frame) (vars stack : List Value)
    (output : String) : EStateM.Result Failure Machine Unit → Except Failure Value → Prop
  | .ok _ m, .ok v => m = working base f below vars (v :: stack) output
  | .error e m, .error e' => e = e' ∧ m.output = output
  | _, _ => False

def Produces (image : Image) (vars : List Value) (ops : List Op) (r : Except Failure Value) : Prop :=
  ∀ base f below stack output, Leaves base f below vars stack output
    (perform image ops (working base f below vars stack output)) r

section Leaves

variable {base : Machine} {f : Frame} {below : List Frame} {vars stack : List Value}
  {output : String} {x : EStateM.Result Failure Machine Unit}

theorem leaves_ok {v : Value} : Leaves base f below vars stack output x (.ok v) ↔
    x = .ok () (working base f below vars (v :: stack) output) := by
  cases x <;> simp [Leaves]

theorem leaves_error {e : Failure} : Leaves base f below vars stack output x (.error e) ↔
    ∃ m, x = .error e m ∧ m.output = output := by
  cases x <;> simp [Leaves]

theorem leaves_append {image : Image} {a b : List Op} {m : Machine} {stack' : List Value}
    {r : Except Failure Value} {g : Value → Except Failure Value}
    (ha : Leaves base f below vars stack' output (perform image a m) r)
    (hb : ∀ v, Leaves base f below vars stack output
      (perform image b (working base f below vars (v :: stack') output)) (g v)) :
    Leaves base f below vars stack output (perform image (a ++ b) m) (r >>= g) := by
  rw [perform_append]
  cases r with
  | error e =>
    obtain ⟨m, hm, hout⟩ := leaves_error.1 ha
    exact leaves_error.2 ⟨m, bind_eq_error.2 (.inl hm), hout⟩
  | ok v =>
    simp only [bind, EStateM.bind, leaves_ok.1 ha]
    exact hb v

theorem leaves_settle (r : Except Failure Value) :
    Leaves base f below vars stack output (settle base f below vars stack output r) r := by
  cases r with
  | ok v => rfl
  | error e => exact ⟨rfl, rfl⟩

end Leaves

section Produces

variable {image : Image} {vars : List Value} {a b : List Op} {r s : Except Failure Value}

theorem produces_push (v : Value) : Produces image vars [.push v] (.ok v) :=
  fun _ _ _ _ _ => rfl

theorem produces_load {k : Nat} {v : Value} (h : vars[k]? = some v) :
    Produces image vars [.load (.int k)] (.ok v) := by
  intro base f below stack output
  exact leaves_ok.2 (bind_eq_ok.2 ⟨(), _, exec_load_working h, rfl⟩)

theorem Produces.not (ha : Produces image vars a r) :
    Produces image vars (a ++ [.not]) (do let x ← r; operate .not [x]) := by
  intro base f below stack output
  refine leaves_append (ha base f below stack output) fun x => ?_
  rw [perform_singleton, exec_not]
  exact leaves_settle _

theorem Produces.operate {op : Op} (hop : op.isBinary) (ha : Produces image vars a r)
    (hb : Produces image vars b s) :
    Produces image vars (a ++ (b ++ [op])) (do let y ← r; let x ← s; operate op [x, y]) := by
  intro base f below stack output
  refine leaves_append (ha base f below stack output) fun y => ?_
  refine leaves_append (hb base f below (y :: stack) output) fun x => ?_
  rw [perform_singleton, exec_operate hop]
  exact leaves_settle _

variable {o : Offsets} {negated : Option Bool} {first : Term}

theorem operand_produces (hfirst : Produces image vars (first.code o) r) :
    Produces image vars (Expr.code o (.mk negated first none none))
      (do let x ← r; if negated = some true then operate .not [x] else pure x) := by
  by_cases hneg : negated = some true
  · simpa [Expr.code, restCode, operation, swaps, hneg] using hfirst.not
  · simpa [Expr.code, restCode, operation, swaps, hneg] using hfirst

theorem operation_produces {t : Token} {e : Expr} {f : Op} {swapped : Bool}
    (hf : sign? t.lexeme = some (f, swapped)) (hneg : negated ≠ some true)
    (hfirst : Produces image vars (first.code o) r) (he : Produces image vars (e.code o) s) :
    Produces image vars (Expr.code o (.mk negated first (some t) (some e)))
      (if swapped then do let y ← s; let x ← r; operate f [x, y]
        else do let y ← r; let x ← s; operate f [x, y]) := by
  obtain ⟨hoperator, hswaps, hbinary⟩ := operator?_of_sign? hf
  cases swapped with
  | false =>
    simpa [Expr.code, restCode, operation, swaps, hoperator, hswaps, hneg] using
      Produces.operate hbinary hfirst he
  | true =>
    simpa [Expr.code, restCode, operation, swaps, hoperator, hswaps] using
      Produces.operate hbinary he hfirst

end Produces

theorem lookup_eq (env : List (String × Value)) (name : String) :
    env.lookup name =
      ((env.map Prod.fst).idxOf? name).bind fun k => (env.map Prod.snd)[k]? := by
  induction env with
  | nil => rfl
  | cons p env ih =>
    obtain ⟨n, v⟩ := p
    simp only [List.lookup_cons, List.map_cons, List.idxOf?_cons]
    by_cases h : n = name
    · subst h
      simp
    · have h' : (name == n) = false := by simpa using Ne.symm h
      rw [ih]
      cases (env.map Prod.fst).idxOf? name <;> simp [h, h']

theorem operand_of_lookup {env : List (String × Value)} {name : String} {v : Value}
    (later : List String) (h : env.lookup name = some v) :
    ∃ k : Nat, Offsets.operand ⟨[env.map Prod.fst ++ later]⟩ name = .int k ∧
      (env.map Prod.snd)[k]? = some v := by
  rw [lookup_eq] at h
  obtain ⟨k, hk, hv⟩ := Option.bind_eq_some_iff.1 h
  have hk' : (env.map Prod.fst ++ later).idxOf? name = some k := by
    rw [List.idxOf?, List.findIdx?_append, ← List.idxOf?, hk, Option.some_or]
  refine ⟨k, ?_, hv⟩
  simp [Offsets.operand, Offsets.offset?, Offsets.find, hk']

section Eval

variable {image : Image} {env : List (String × Value)} {later : List String}

theorem literal_produces {t : Token} (h : t.isLegible) :
    Produces image (env.map Prod.snd) (t.value?.toList.map .push)
      (t.denoted?.elim (.error (.crash .badNumeral)) .ok) := by
  simp only [Token.isLegible, Bool.and_eq_true] at h
  obtain ⟨v, hv⟩ := Option.isSome_iff_exists.1 h.2
  rw [Token.value?_eq h.1, hv]
  exact produces_push v

theorem path_produces {refs : List Ref}
    (h : (soleName? refs).any fun t => (env.map Prod.fst).contains t.lexeme) :
    Produces image (env.map Prod.snd)
      ((soleName? refs).toList.map fun t =>
        .load (Offsets.operand ⟨[env.map Prod.fst ++ later]⟩ t.lexeme))
      (((soleName? refs).bind fun t => env.lookup t.lexeme).elim (.error (.crash .unknownKey))
        .ok) := by
  obtain ⟨t, ht, hmem⟩ := (Option.any_eq_true _ _).1 h
  obtain ⟨v, hv⟩ : ∃ v, env.lookup t.lexeme = some v := by
    refine Option.ne_none_iff_exists'.1 fun hnone => ?_
    obtain ⟨p, hp, hname⟩ := List.mem_map.1 (List.contains_iff_mem.1 hmem)
    simpa [hname] using List.lookup_eq_none_iff.1 hnone p hp
  obtain ⟨k, hk, hvar⟩ := operand_of_lookup later hv
  simp only [ht, Option.toList_some, List.map_cons, List.map_nil, Option.bind_some, hv, hk,
    Option.elim_some]
  exact produces_load hvar

mutual

theorem expr_produces : (e : Expr) → e.over Token.isLegible (env.map Prod.fst) →
    Produces image (env.map Prod.snd) (e.code ⟨[env.map Prod.fst ++ later]⟩) (e.eval env)
  | .mk negated first op none, h => by
    obtain ⟨rfl, hfirst⟩ := Expr.over_operand h
    simpa [Expr.eval] using operand_produces (term_produces first hfirst)
  | .mk negated first op (some e), h => by
    obtain ⟨t, f, swapped, rfl, hf, hneg, hfirst, he⟩ := Expr.over_operation h
    have hyields := operation_produces hf hneg (term_produces first hfirst) (expr_produces e he)
    cases swapped <;> simpa [Expr.eval, evalRest, hf] using hyields

theorem term_produces : (t : Term) → t.over Token.isLegible (env.map Prod.fst) →
    Produces image (env.map Prod.snd) (t.code ⟨[env.map Prod.fst ++ later]⟩) (t.eval env)
  | .literal _, h => literal_produces h
  | .path _, h => path_produces h
  | .group e, h => expr_produces e h
  | .create .., h | .call .., h => by cases h

end

end Eval

end StackLang
