import StackLang.Proofs.StraightLine

namespace StackLang

open Generator Machine

inductive Relation where
  | less | atMost | greater | atLeast | equal | notEqual

inductive Connective where
  | both | either

/-- Statements about integers. -/
inductive Formula where
  | constant (b : Bool)
  | comparison (r : Relation) (i j : Int)
  | connection (c : Connective) (p q : Formula)

def truthWord (b : Bool) : String := if b then "true" else "false"

namespace Relation

def sign : Relation → String
  | less => "<"
  | atMost => "<="
  | greater => ">"
  | atLeast => ">="
  | equal => "=="
  | notEqual => "!="

def holds : Relation → Int → Int → Bool
  | less, i, j => i < j
  | atMost, i, j => i ≤ j
  | greater, i, j => i > j
  | atLeast, i, j => i ≥ j
  | equal, i, j => i = j
  | notEqual, i, j => i ≠ j

/-- The value of a comparison. -/
def outcome (r : Relation) (i j : Int) : Value :=
  match r with
  | atMost | atLeast => .text (truthWord (r.holds i j))
  | _ => .bool (r.holds i j)

end Relation

namespace Connective

def sign : Connective → String
  | both => "and"
  | either => "or"

def holds : Connective → Bool → Bool → Bool
  | both, a, b => a && b
  | either, a, b => a || b

/-- The operand that a connective selects. -/
def outcome (c : Connective) (y x : Value) : Value :=
  match c with
  | both => if y.truthy then x else y
  | either => if y.truthy then y else x

end Connective

namespace Formula

/-- The usual meaning. -/
def holds : Formula → Bool
  | constant b => b
  | comparison r i j => r.holds i j
  | connection c p q => c.holds p.holds q.holds

/-- The value that the machine computes. -/
def outcome : Formula → Value
  | constant b => .bool b
  | comparison r i j => r.outcome i j
  | connection c p q => c.outcome p.outcome q.outcome

def isClear : Formula → Bool
  | constant _ | comparison .. => true
  | connection _ p q => p.isClear && q.isClear && !(p.outcome == .text "false" && q.holds)

end Formula

/-- Operands that write a formula down. Those of a connective are words or stand in parentheses, and
nothing is negated. -/
inductive Expresses : Term → Formula → Prop
  | word {t : Token} {b : Bool} : t.kind = .boolVal → t.lexeme = truthWord b →
      Expresses (.literal t) (.constant b)
  | group {negated : Option Bool} {x : Term} {p : Formula} : negated ≠ some true → Expresses x p →
      Expresses (.group (.mk negated x none none)) p
  | comparison {negated negated' : Option Bool} {s t u : Token} {r : Relation} {i j : Int} :
      negated ≠ some true → negated' ≠ some true → t.lexeme = r.sign →
      s.kind = .intVal → Numeral.whole? s.lexeme = some i →
      u.kind = .intVal → Numeral.whole? u.lexeme = some j →
      Expresses (.group (.mk negated (.literal s) (some t)
        (some (.mk negated' (.literal u) none none)))) (.comparison r i j)
  | connection {negated negated' : Option Bool} {x y : Term} {t : Token} {c : Connective}
      {p q : Formula} : negated ≠ some true → negated' ≠ some true → t.lexeme = c.sign →
      Expresses x p → Expresses y q →
      Expresses (.group (.mk negated x (some t) (some (.mk negated' y none none))))
        (.connection c p q)

def Relation.code : Relation → Op × Bool
  | less => (.less, false)
  | atMost => (.lessEq, false)
  | greater => (.less, true)
  | atLeast => (.lessEq, true)
  | equal => (.equal, false)
  | notEqual => (.notEqual, false)

def Connective.op : Connective → Op
  | both => .and
  | either => .or

theorem Relation.sign?_sign (r : Relation) : sign? r.sign = some r.code := by
  cases r <;> rfl

theorem Connective.sign?_sign (c : Connective) : sign? c.sign = some (c.op, false) := by
  cases c <;> rfl

theorem Relation.result_eq (r : Relation) (i j : Int) :
    (if r.code.2 then r.code.1.result (.int j) (.int i) else r.code.1.result (.int i) (.int j)) =
      .ok (r.outcome i j) := by
  cases r <;> simp [code, outcome, holds, truthWord, Op.result, ifPresent, crashing, Value.less_int,
    Value.lessEq_int, Value.same_int, Functor.map, Except.map]

def Value.tells (v : Value) (b : Bool) : Prop := v = .bool b ∨ v = .text (truthWord b)

theorem Value.shown_of_tells {v : Value} {b : Bool} (h : v.tells b) :
    v.shown = .ok (truthWord b) := by
  obtain rfl | rfl := h <;> rfl

theorem Relation.outcome_tells (r : Relation) (i j : Int) :
    (r.outcome i j).tells (r.holds i j) := by
  cases r with
  | atMost | atLeast => exact .inr rfl
  | _ => exact .inl rfl

theorem Formula.exists_tells (p : Formula) : ∃ b, p.outcome.tells b := by
  induction p with
  | constant b => exact ⟨b, .inl rfl⟩
  | comparison r i j => exact ⟨_, r.outcome_tells i j⟩
  | connection c p q hp hq =>
    cases c <;> simp only [outcome, Connective.outcome] <;> split <;> assumption

theorem Formula.outcome_ne_absent (p : Formula) : p.outcome ≠ .absent := by
  obtain ⟨b, h | h⟩ := p.exists_tells <;> rw [h] <;> nofun

theorem Connective.result_eq (c : Connective) (p q : Formula) :
    c.op.result p.outcome q.outcome = .ok (c.outcome p.outcome q.outcome) := by
  cases c <;>
    simp [op, outcome, Op.result, ifPresent, p.outcome_ne_absent, q.outcome_ne_absent]

theorem denoted?_of_isLegible {t : Token} {i : Int} (hkind : t.kind = .intVal)
    (hint : Numeral.whole? t.lexeme = some i) (h : t.isLegible) : t.denoted? = some (.int i) := by
  have hsome : (Numeral.int? t.lexeme).isSome := by
    simpa [Token.isLegible, Token.isLiteral, Token.denoted?, hkind] using h
  obtain ⟨j, hj⟩ := Option.isSome_iff_exists.1 hsome
  obtain rfl : j = i := Option.some.inj ((Numeral.int?_eq_some.1 hj).2.symm.trans hint)
  simp only [Token.denoted?, hkind, hj, Option.map_some]

theorem isMeant_numeral {t : Token} {i : Int} (hkind : t.kind = .intVal)
    (hint : Numeral.whole? t.lexeme = some i) : t.isMeant := by
  simp [Token.isMeant, Token.isLiteral, hkind, hint]

theorem isMeant_word {t : Token} {b : Bool} (hkind : t.kind = .boolVal)
    (hlexeme : t.lexeme = truthWord b) : t.isMeant := by
  cases b <;> simp [Token.isMeant, Token.isLiteral, Token.denoted?, hkind, hlexeme, truthWord]

theorem Expresses.over {x : Term} {p : Formula} (h : Expresses x p) :
    x.over Token.isMeant [] := by
  induction h with
  | word hkind hlexeme => exact isMeant_word hkind hlexeme
  | group hneg _ hx => simpa [Term.over, Expr.over, overRest, hneg] using hx
  | comparison hneg hneg' ht hs hi hu hj =>
    simp [Term.over, Expr.over, overRest, hneg, ht, Relation.sign?_sign,
      isMeant_numeral hs hi, isMeant_numeral hu hj]
  | connection hneg hneg' ht _ _ hx hy =>
    simp [Term.over, Expr.over, overRest, hneg, ht, Connective.sign?_sign, hx, hy]

theorem eval_operation {negated negated' : Option Bool} {x y : Term} {t : Token} {v w : Value}
    {f : Op} {swapped : Bool} (ht : sign? t.lexeme = some (f, swapped))
    (hneg : negated' ≠ some true) (hx : x.eval [] = .ok v) (hy : y.eval [] = .ok w) :
    (Term.group (.mk negated x (some t) (some (.mk negated' y none none)))).eval [] =
      if swapped then f.result w v else f.result v w := by
  have hbinary := (operator?_of_sign? ht).2.2
  cases swapped with
  | false =>
    simp only [Term.eval, Expr.eval, evalRest, Option.bind_some, Option.bind_none, ht, hneg,
      if_false, hx, hy]
    exact operate_eq hbinary w v
  | true =>
    simp only [Term.eval, Expr.eval, evalRest, Option.bind_some, Option.bind_none, ht, hneg,
      if_false, hx, hy]
    exact operate_eq hbinary v w

theorem Expresses.eval {x : Term} {p : Formula} (h : Expresses x p)
    (hlegible : x.over Token.isLegible []) : x.eval [] = .ok p.outcome := by
  induction h with
  | @word t b hkind hlexeme =>
    have hdenoted : t.denoted? = some (.bool b) := by
      cases b <;> simp [Token.denoted?, hkind, hlexeme, truthWord]
    simp only [Term.eval, hdenoted, Formula.outcome, Option.elim_some]
  | group hneg _ hx =>
    have hx := hx (Expr.over_operand hlegible).2
    simp only [Term.eval, Expr.eval, Option.bind_none, hneg, if_false, hx]
    rfl
  | @comparison _ _ s t u r i j _ hneg' ht hs hi hu hj =>
    obtain ⟨-, -, -, -, -, -, hleft, hright⟩ := Expr.over_operation hlegible
    have hsign : sign? t.lexeme = some (r.code.1, r.code.2) := ht ▸ r.sign?_sign
    have hx : (Term.literal s).eval [] = .ok (.int i) := by
      rw [Term.eval, denoted?_of_isLegible hs hi hleft]
      rfl
    have hy : (Term.literal u).eval [] = .ok (.int j) := by
      rw [Term.eval, denoted?_of_isLegible hu hj (Expr.over_operand hright).2]
      rfl
    exact (eval_operation hsign hneg' hx hy).trans (r.result_eq i j)
  | @connection _ _ _ _ t c p q _ hneg' ht _ _ hx hy =>
    obtain ⟨-, -, -, -, -, -, hleft, hright⟩ := Expr.over_operation hlegible
    have hsign : sign? t.lexeme = some (c.op, false) := ht ▸ c.sign?_sign
    exact (eval_operation hsign hneg' (hx hleft) (hy (Expr.over_operand hright).2)).trans
      (c.result_eq p q)

def Wordless (l : List Char) : Prop := ∀ c ∈ l, c ≠ 'r' ∧ c ≠ 's'

namespace Wordless

variable {l l' : List Char} {c : Char}

@[simp] theorem nil : Wordless [] := List.forall_mem_nil _

@[simp] theorem cons_iff : Wordless (c :: l) ↔ (c ≠ 'r' ∧ c ≠ 's') ∧ Wordless l :=
  List.forall_mem_cons

@[simp] theorem append_iff : Wordless (l ++ l') ↔ Wordless l ∧ Wordless l' := List.forall_mem_append

theorem mono (h : Wordless l) (hl : l' ⊆ l) : Wordless l' := fun c hc => h c (hl hc)

theorem toDigits (n : Nat) : Wordless (Nat.toDigits 10 n) := by
  intro c hc
  have hdigit := Nat.isDigit_of_mem_toDigits (by decide) (by decide) hc
  constructor <;> rintro rfl <;> cases hdigit

@[simp] theorem zeros (n : Nat) : Wordless (Double.zeros n) := by
  intro c hc
  rw [(List.mem_replicate.1 hc).2]
  decide

theorem shortest (m : Nat) (e : Int) : Wordless (Double.shortest m e).1 := by
  intro c hc
  exact toDigits _ c (List.mem_reverse.1 ((List.dropWhile_suffix _).mem (List.mem_reverse.1 hc)))

theorem positional (h : Wordless l) (point : Int) : Wordless (Double.positional l point) := by
  have htake (n : Nat) : Wordless (l.take n) := h.mono (List.take_subset n l)
  have hdrop (n : Nat) : Wordless (l.drop n) := h.mono (List.drop_subset n l)
  unfold Double.positional
  dsimp only
  split
  · simp [h]
  · split <;> simp [h, htake, hdrop]

theorem scientific (h : Wordless l) (point : Int) : Wordless (Double.scientific l point) := by
  have htake : Wordless (l.take 1) := h.mono (List.take_subset 1 l)
  have htail : Wordless l.tail := h.mono (List.tail_sublist l).subset
  unfold Double.scientific
  dsimp only
  refine append_iff.2 ⟨append_iff.2 ⟨htake, ?_⟩, ?_⟩
  · cases hl : l.tail with
    | nil => exact nil
    | cons c l =>
      rw [hl] at htail
      exact cons_iff.2 ⟨by decide, htail⟩
  · split <;> simp [toDigits]

theorem render (d : Double) : Wordless d.render.toList := by
  cases d with
  | nan => simp [Double.render]
  | infinite s => cases s <;> simp [Double.render]
  | finite s m e =>
    have hbody : Wordless (if m = 0 then ['0', '.', '0'] else
        if Double.layout.least ≤ (Double.shortest m e).2 ∧
          (Double.shortest m e).2 ≤ Double.layout.greatest then
          Double.positional (Double.shortest m e).1 (Double.shortest m e).2
        else Double.scientific (Double.shortest m e).1 (Double.shortest m e).2) := by
      split
      · simp
      · split
        · exact (shortest m e).positional _
        · exact (shortest m e).scientific _
    rw [Double.render, String.toList_ofList]
    split
    · exact cons_iff.2 ⟨by decide, hbody⟩
    · exact hbody

theorem int (i : Int) : Wordless (toString i).toList := by
  have hnat (n : Nat) : Wordless (Nat.repr n).toList := by
    rw [Nat.repr, String.toList_ofList]
    exact toDigits n
  cases i with
  | ofNat n => exact hnat n
  | negSucc n =>
    have hsign : toString (Int.negSucc n) = "-" ++ Nat.repr (n + 1) := rfl
    rw [hsign, String.toList_append]
    exact append_iff.2 ⟨by simp, hnat _⟩

end Wordless

theorem truthWord_not_wordless (b : Bool) : ¬Wordless (truthWord b).toList := by
  cases b <;> simp [truthWord]

theorem Value.tells_of_shown {v : Value} {b : Bool} (h : v.shown = .ok (truthWord b)) :
    v.tells b := by
  have hwordless {s : String} (hs : Wordless s.toList) : s ≠ truthWord b := by
    rintro rfl
    exact truthWord_not_wordless b hs
  cases v with
  | absent => exact absurd (Except.ok.inj h) (hwordless (by simp))
  | bool a =>
    obtain rfl : a = b := by
      revert h
      cases a <;> cases b <;> decide
    exact .inl rfl
  | int i =>
    have htext : Numeral.ofInt? i = some (truthWord b) := by
      cases htext : Numeral.ofInt? i <;> simp [shown, render, htext] at h
      rw [h]
    unfold Numeral.ofInt? at htext
    split at htext
    · exact absurd (Option.some.inj htext) (hwordless (.int i))
    · cases htext
  | double d => exact absurd (Except.ok.inj h) (hwordless (.render d))
  | text s => exact .inr (congrArg Value.text (Except.ok.inj h))

namespace Connective

variable {c : Connective} {y x : Value} {a b : Bool}

theorem shown_outcome_iff (hy : y.tells a) (hx : x.tells b) :
    (c.outcome y x).shown = .ok (truthWord (c.holds a b)) ↔ ¬(y = .text "false" ∧ b) := by
  obtain rfl | rfl := hy <;> obtain rfl | rfl := hx <;> cases c <;> cases a <;> cases b <;> decide

theorem outcome_tells (hy : y.tells a) (hx : x.tells b) (h : ¬(y = .text "false" ∧ b)) :
    (c.outcome y x).tells (c.holds a b) :=
  Value.tells_of_shown ((shown_outcome_iff hy hx).2 h)

end Connective

namespace Formula

variable {c : Connective} {p q : Formula}

theorem isClear_connection : (connection c p q).isClear ↔
    p.isClear ∧ q.isClear ∧ ¬(p.outcome = .text "false" ∧ q.holds) := by
  simp [isClear, and_assoc, imp_iff_not_or]

theorem outcome_tells (h : p.isClear) : p.outcome.tells p.holds := by
  induction p with
  | constant b => exact .inl rfl
  | comparison r i j => exact r.outcome_tells i j
  | connection c p q hp hq =>
    obtain ⟨hpc, hqc, hbad⟩ := isClear_connection.1 h
    exact Connective.outcome_tells (hp hpc) (hq hqc) hbad

theorem shown_connection_iff (hp : p.isClear) (hq : q.isClear) :
    (connection c p q).outcome.shown = .ok (truthWord (connection c p q).holds) ↔
      (connection c p q).isClear := by
  rw [isClear_connection]
  simp only [hp, hq, true_and]
  exact Connective.shown_outcome_iff (outcome_tells hp) (outcome_tells hq)

end Formula

theorem evalLine_formula {callee : Token} {e : Expr} {φ : Formula} {s : String}
    (hcallee : callee.lexeme = "print") (he : Expresses (.group e) φ)
    (hlegible : e.over Token.isLegible []) (hs : φ.outcome.shown = .ok s) :
    evalLine [] "" [.call callee (some [e])] = (s, none) := by
  have hvalue : printedValue [] callee (some [e]) = .ok φ.outcome := by
    simpa [printedValue, printed?, hcallee, Term.eval] using he.eval hlegible
  have htext : printedText [] callee (some [e]) = .ok s := by
    rw [printedText, hvalue]
    exact congrArg crashing hs
  simp [evalLine, htext]

/-- The program that prints a formula prints the word for the value that the machine computes. That
is the truth of the formula if the formula is clear, and it is not if a connective that is not clear
joins two clear formulas. If an integer has too many digits to be read, there is no code to run. -/
theorem formula_printed (p : Program) (d : FunDef) (hp : p.functions = [d])
    (hd : d.name.lexeme = "main") (callee : Token) (hcallee : callee.lexeme = "print") (e : Expr)
    (hbody : d.body = [.call callee (some [e])]) (φ : Formula) (he : Expresses (.group e) φ)
    (input : List Char) :
    (e.over Token.isLegible [] → ∃ g c m, Compiler.generate p = (g, none) ∧
      (∀ fuel, outcome (run g.image false (fuel + c) { Machine.empty with input }) = (m, none)) ∧
      m.frames = [] ∧ φ.outcome.shown = .ok m.output ∧
      (φ.isClear → m.output = truthWord φ.holds) ∧
      ∀ c p q, φ = .connection c p q → p.isClear → q.isClear →
        (m.output = truthWord φ.holds ↔ φ.isClear)) ∧
    (e.over Token.isLegible [] = false →
      ∃ g, Compiler.generate p = (g, some (.crash .badNumeral))) := by
  have hprinted : printed? callee (some [e]) = some e := if_pos hcallee
  have hline (literal : Token → Bool) : line literal [] d.body = e.over literal [] := by
    simp [hbody, line, hprinted]
  constructor
  · intro hlegible
    obtain ⟨b, htells⟩ := φ.exists_tells
    have hshown := Value.shown_of_tells htells
    obtain ⟨g, t, hg, hmain, hcode⟩ := generate_line hp hd ((hline _).trans hlegible)
    have hsize : (d.body.length : Int) ≤ Value.sizeLimit := by
      rw [hbody, List.length_singleton]
      decide
    obtain ⟨c, m, hrun, hout, hend⟩ :=
      run_line input ((hline _).trans hlegible) hsize hmain hcode
    rw [hbody, evalLine_formula hcallee he hlegible hshown] at hrun hout hend
    rw [← show m.output = truthWord b from hout] at hshown
    refine ⟨g, c, m, hg, hrun, hend rfl, hshown, fun hclear => ?_, ?_⟩
    · rw [Value.shown_of_tells (Formula.outcome_tells hclear)] at hshown
      exact (Except.ok.inj hshown).symm
    · rintro c p q rfl hp hq
      rw [← Formula.shown_connection_iff hp hq, hshown, Except.ok.injEq]
  · intro hillegible
    exact generate_illegible hp hd Token.isLiteral_of_isMeant ((hline _).trans he.over)
      ((hline _).trans hillegible)

def programPrinting (e : Expr) : Program := ⟨[], [procedure "main" [printing e]]⟩

def excess : Term := .group (binary (.literal (word .intVal "2")) .lessEq "<=" (number "1"))

theorem expresses_excess : Expresses excess (.comparison .atMost 2 1) :=
  .comparison (by decide) (by decide) rfl rfl (by decide +kernel) rfl (by decide +kernel)

/-- A comparison behind the connective does no harm: `true and (2 <= 1)`. -/
theorem comparison_behind_printed :
    let e := binary (.literal (word .boolVal "true")) .andOp "and" (.operand excess)
    ∃ g c m, Compiler.generate (programPrinting e) = (g, none) ∧
      (∀ fuel, outcome (run g.image false (fuel + c) .empty) = (m, none)) ∧ m.output = "false" := by
  intro e
  have he : Expresses (.group e) (.connection .both (.constant true) (.comparison .atMost 2 1)) :=
    .connection (by decide) (by decide) rfl (.word rfl rfl) expresses_excess
  obtain ⟨g, c, m, hg, hrun, -, -, hclear, -⟩ := (formula_printed (programPrinting e) _ rfl rfl _ rfl e
    rfl _ he []).1 (by decide +kernel)
  exact ⟨g, c, m, hg, hrun, hclear (by decide)⟩

/-- In front of the connective the text "false" counts as true: `(2 <= 1) and true`. -/
theorem comparison_before_printed :
    let e := binary excess .andOp "and" (.operand (.literal (word .boolVal "true")))
    let φ : Formula := .connection .both (.comparison .atMost 2 1) (.constant true)
    let g := Compiler.generate (programPrinting e)
    Expresses (.group e) φ ∧ φ.holds = false ∧ g.2 = none ∧
      (outcome (run g.1.image false 9 .empty)).1.output = "true" ∧
      (outcome (run g.1.image false 9 .empty)).2 = none ∧
      (Compiler.execute false false (.ofText "void main() \x7bprint((2 <= 1) and true);\x7d")
        []).1.output = "true" :=
  ⟨.connection (by decide) (by decide) rfl expresses_excess (.word rfl rfl), by decide +kernel⟩

end StackLang
