import StackLang.Proofs.Conversions
import StackLang.Proofs.Entry
import StackLang.Proofs.Illegible

namespace StackLang

open Generator Machine

/-- Declarations of new variables and prints, over the variables that are known. -/
def line (literal : Token → Bool) : List String → List Stmt → Bool
  | _, [] => true
  | names, .decl d :: l =>
    d.var.name.isSome && !names.contains d.lexeme && d.init.all (·.over literal names) &&
      line literal (names ++ [d.lexeme]) l
  | names, .call callee args :: l =>
    (printed? callee args).any (·.over literal names) && line literal names l
  | _, _ :: _ => false

def VarDecl.value (env : List (String × Value)) (d : VarDecl) : Except Failure Value :=
  d.init.elim (.ok .null) (Expr.eval env)

def printedValue (env : List (String × Value)) (callee : Token) (args : Option (List Expr)) :
    Except Failure Value :=
  (printed? callee args).elim (.error (.crash .missingPart)) (Expr.eval env)

def printedText (env : List (String × Value)) (callee : Token) (args : Option (List Expr)) :
    Except Failure String := do
  crashing (← printedValue env callee args).shown

/-- What declarations and prints write behind some output, and the failure that ends them if there
is one. -/
def evalLine (env : List (String × Value)) (output : String) : List Stmt → String × Option Failure
  | .decl d :: l =>
    match d.value env with
    | .ok v => evalLine (env ++ [(d.lexeme, v)]) output l
    | .error e => (output, some e)
  | .call callee args :: l =>
    match printedText env callee args with
    | .ok s => evalLine env (output ++ s) l
    | .error e => (output, some e)
  | _ => (output, none)

theorem VarDecl.plain_of_over {names : List String} {d : VarDecl} (hname : d.var.name.isSome)
    (h : d.init.all (·.over Token.isLegible names)) : d.plain := by
  obtain ⟨var, init⟩ := d
  simp only [VarDecl.plain, hname, Bool.true_and]
  cases init with
  | none => rfl
  | some e => exact e.plain_of_over h

theorem plainStmts_of_line {names : List String} {l : List Stmt}
    (h : line Token.isLegible names l) : plainStmts l := by
  induction l generalizing names with
  | nil => rfl
  | cons s l ih =>
    cases s with
    | decl d =>
      simp only [line, Bool.and_eq_true] at h
      simp only [plainStmts, Stmt.plain, d.plain_of_over h.1.1.1 h.1.2, ih h.2, Bool.and_true]
    | call callee args =>
      simp only [line, Bool.and_eq_true] at h
      obtain ⟨e, hargs, he⟩ := (Option.any_eq_true _ _).1 h.1
      simp only [plainStmts, Stmt.plain, hargs, Option.any_some, e.plain_of_over he, ih h.2,
        Bool.and_true]
    | _ => cases h

section Performs

variable {image : Image} {base : Machine} {f : Frame} {below : List Frame}
  {env : List (String × Value)} {output : String}

theorem operand_declare {names : List String} {name : String} (h : names.contains name = false) :
    Offsets.operand ⟨[names ++ [name]]⟩ name = .int names.length := by
  have hname : name ∉ names := by simpa using h
  rw [Offsets.operand_declared hname, List.flatten_nil, List.length_nil, Nat.zero_add]

theorem executes_ok {vars : List Value} {a : List Op} {op : Op} {v : Value} {m : Machine}
    (ha : Produces image vars a (.ok v))
    (hop : exec image (.plain op) (working base f below vars [v] output) = .ok () m) :
    (Flow.act (a ++ [op])).Executes image (working base f below vars [] output) (.falls m) := by
  refine .act ?_
  rw [perform_append, perform_singleton]
  exact bind_eq_ok.2 ⟨(), _, leaves_ok.1 (ha base f below [] output), hop⟩

theorem executes_last_error {vars : List Value} {a : List Op} {op : Op} {v : Value} {e : Failure}
    (ha : Produces image vars a (.ok v)) {vars' stack : List Value}
    (hop : exec image (.plain op) (working base f below vars [v] output) =
      .error e (working base f below vars' stack output)) :
    (Flow.act (a ++ [op])).Executes image (working base f below vars [] output)
      (.raises e output) := by
  have hfails : perform image (a ++ [op]) (working base f below vars [] output) =
      .error e (working base f below vars' stack output) := by
    rw [perform_append, perform_singleton]
    exact bind_eq_error.2 (.inr ⟨(), _, leaves_ok.1 (ha base f below [] output), hop⟩)
  exact .act_fails hfails

theorem executes_error {vars : List Value} {a b : List Op} {e : Failure}
    (ha : Produces image vars a (.error e)) :
    (Flow.act (a ++ b)).Executes image (working base f below vars [] output)
      (.raises e output) := by
  obtain ⟨m, hm, rfl⟩ := leaves_error.1 (ha base f below [] output)
  refine .act_fails ?_
  rw [perform_append]
  exact bind_eq_error.2 (.inl hm)

theorem VarDecl.produces (image : Image) {d : VarDecl}
    (h : d.init.all (·.over Token.isLegible (env.map Prod.fst))) :
    ∃ a, d.ops ⟨[env.map Prod.fst ++ [d.lexeme]]⟩ =
        a ++ [.store (Offsets.operand ⟨[env.map Prod.fst ++ [d.lexeme]]⟩ d.lexeme)] ∧
      Produces image (env.map Prod.snd) a (d.value env) := by
  obtain ⟨var, init⟩ := d
  refine ⟨_, rfl, ?_⟩
  cases init with
  | none => exact produces_push .null
  | some e =>
    dsimp only
    rw [emitted_expr (e.plain_of_over h)]
    exact expr_produces e h

theorem print_produces (image : Image) {callee : Token} {args : Option (List Expr)}
    (h : (printed? callee args).any (·.over Token.isLegible (env.map Prod.fst))) :
    Produces image (env.map Prod.snd)
      ((printed? callee args).toList.flatMap fun e => emitted ⟨[env.map Prod.fst]⟩ (expr e))
      (printedValue env callee args) := by
  obtain ⟨e, hargs, he⟩ := (Option.any_eq_true _ _).1 h
  have hyields : Produces image _ (e.code ⟨[env.map Prod.fst ++ []]⟩) _ := expr_produces e he
  rw [List.append_nil, ← emitted_expr (e.plain_of_over he)] at hyields
  simpa [printedValue, hargs] using hyields

def lineEnd (base : Machine) (f : Frame) (below : List Frame) (vars : List Value) :
    String × Option Failure → Finish
  | (output, none) => .falls (working base f below vars [] output)
  | (output, some e) => .raises e output

theorem line_executes (env : List (String × Value)) (output : String) {l : List Stmt}
    (h : line Token.isLegible (env.map Prod.fst) l)
    (hsize : (env.length + l.length : Int) ≤ Value.sizeLimit) :
    ∃ vars, (flows ⟨[env.map Prod.fst]⟩ l).Executes image
      (working base f below (env.map Prod.snd) [] output)
      (lineEnd base f below vars (evalLine env output l)) := by
  -- the variables of the call are the values of the environment, in the same order
  induction l generalizing env output with
  | nil => exact ⟨env.map Prod.snd, .act rfl⟩
  | cons s l ih =>
    rw [List.length_cons] at hsize
    cases s with
    | decl d =>
      simp only [line, Bool.and_eq_true, Bool.not_eq_true'] at h
      obtain ⟨⟨⟨-, hnew⟩, hinit⟩, hl⟩ := h
      obtain ⟨a, hops, ha⟩ := d.produces image hinit
      have hflow : flows ⟨[env.map Prod.fst]⟩ (.decl d :: l) =
          .seq (.act (d.ops ⟨[env.map Prod.fst ++ [d.lexeme]]⟩))
            (flows ⟨[env.map Prod.fst ++ [d.lexeme]]⟩ l) := rfl
      rw [hflow, hops, operand_declare hnew]
      cases hv : d.value env with
      | error e =>
        rw [hv] at ha
        simp only [evalLine, hv]
        exact ⟨[], .seq_stops (executes_error ha) trivial⟩
      | ok v =>
        rw [hv] at ha
        have hnames : (env ++ [(d.lexeme, v)]).map Prod.fst = env.map Prod.fst ++ [d.lexeme] := by
          simp
        have hvalues : (env ++ [(d.lexeme, v)]).map Prod.snd = env.map Prod.snd ++ [v] := by simp
        rw [← hnames] at hl
        obtain ⟨vars, hvars⟩ := ih _ output hl (by simp; omega)
        rw [hnames, hvalues] at hvars
        simp only [evalLine, hv]
        refine ⟨vars, .seq (executes_ok ha ?_) hvars⟩
        rw [List.length_map, ← List.length_map Prod.snd]
        exact exec_store_working (by simp; omega)
    | call callee args =>
      simp only [line, Bool.and_eq_true] at h
      have ha := print_produces image h.1
      cases hv : printedValue env callee args with
      | error e =>
        have htext : printedText env callee args = .error e := by rw [printedText, hv]; rfl
        rw [hv] at ha
        simp only [evalLine, htext]
        exact ⟨[], .seq_stops (executes_error ha) trivial⟩
      | ok v =>
        have htext : printedText env callee args = crashing v.shown := by rw [printedText, hv]; rfl
        rw [hv] at ha
        cases hs : v.shown with
        | error c =>
          rw [hs] at htext
          simp only [evalLine, htext, crashing]
          exact ⟨[], .seq_stops (executes_last_error ha (exec_write_unshown hs)) trivial⟩
        | ok s =>
          rw [hs] at htext
          obtain ⟨vars, hvars⟩ := ih env (output ++ s) h.2 (by omega)
          simp only [evalLine, htext, crashing]
          exact ⟨vars, .seq (executes_ok ha (exec_write_shown hs)) hvars⟩
    | _ => cases h

end Performs

section Generation

variable {literal : Token → Bool} (hliteral : ∀ t, literal t → t.isLiteral) {names : List String}
  {o : Offsets}

theorem line_last {l : List Stmt} (h : line literal names l) (hl : l ≠ []) (n : Nat) :
    ∃ op, ((flows o l).code n).getLast? = some op ∧ op ≠ .ret := by
  induction l generalizing names o n with
  | nil => exact absurd rfl hl
  | cons s l ih =>
    have hcode : (flows o (s :: l)).code n =
        (s.flow o).code n ++ (flows (s.scope o) l).code (n + (s.flow o).size) := rfl
    have hrest : ∃ names', line literal names' l := by
      cases s with
      | decl d => exact ⟨_, (Bool.and_eq_true_iff.1 h).2⟩
      | call callee args => exact ⟨_, (Bool.and_eq_true_iff.1 h).2⟩
      | _ => cases h
    have hfirst : ∃ op, ((s.flow o).code n).getLast? = some op ∧ op ≠ .ret := by
      cases s with
      | decl d => exact ⟨_, List.getLast?_concat, nofun⟩
      | call callee args => exact ⟨.write, List.getLast?_concat, nofun⟩
      | _ => cases h
    rw [hcode, List.getLast?_append]
    by_cases hnil : l = []
    · subst hnil
      exact hfirst
    · obtain ⟨names', hl'⟩ := hrest
      obtain ⟨op, hop, hne⟩ := ih hl' hnil (n + (s.flow o).size)
      exact ⟨op, by rw [hop, Option.some_or], hne⟩

include hliteral

theorem varDecl_stumbles {d : VarDecl} (hname : d.var.name.isSome)
    (h : d.init.all (·.over literal names))
    (hnone : d.init.all (·.over Token.isLegible names) = false) : Stumbles (varDecl d) o := by
  obtain ⟨⟨type, name⟩, init⟩ := d
  obtain ⟨t, rfl⟩ := Option.isSome_iff_exists.1 hname
  cases init with
  | none => cases hnone
  | some e =>
    simp only [varDecl, need, pure_bind]
    exact .after (fun n => Gets.onOffsets _) (expr_stumbles hliteral e h hnone).first

theorem line_stumbles {l : List Stmt} (h : line literal names l)
    (hnone : line Token.isLegible names l = false) : Stumbles (stmts l) o := by
  induction l generalizing names o with
  | nil => cases hnone
  | cons s l ih =>
    simp only [stmts]
    cases s with
    | decl d =>
      simp only [line, Bool.and_eq_true] at h
      obtain ⟨⟨⟨hname, hnew⟩, hinit⟩, hl⟩ := h
      cases hlegible : d.init.all (·.over Token.isLegible names) with
      | false => exact (varDecl_stumbles hliteral hname hinit hlegible).first
      | true =>
        have hbad : line Token.isLegible (names ++ [d.lexeme]) l = false := by
          simpa only [line, hname, hnew, hlegible, Bool.true_and] using hnone
        exact .after (varDecl_emits (d.plain_of_over hname hlegible)) (ih hl hbad)
    | call callee args =>
      simp only [line, Bool.and_eq_true] at h
      obtain ⟨e, hargs, he⟩ := (Option.any_eq_true _ _).1 h.1
      cases hlegible : e.over Token.isLegible names with
      | false =>
        have hcall : Stumbles (stmt (.call callee args)) o := by
          rw [stmt_print_eq hargs]
          exact (expr_stumbles hliteral e he hlegible).first
        exact hcall.first
      | true =>
        have hbad : line Token.isLegible names l = false := by
          simpa [line, hargs, hlegible] using hnone
        exact .after (stmt_call_emits hargs (e.plain_of_over hlegible)) (ih h.2 hbad)
    | _ => cases h

end Generation

section Main

variable {p : Program} {d : FunDef} (hp : p.functions = [d]) (hd : d.name.lexeme = "main")

include hp hd

theorem generate_line (h : line Token.isLegible [] d.body) :
    ∃ g t, Compiler.generate p = (g, none) ∧ g.image.get? "main" = some t ∧
      Holds t 0 ((Flow.seq (flows ⟨[[]]⟩ d.body) (.ret [.push .null])).code 0) := by
  have hbody := mainBody_emits (stmts_emits ⟨[[]]⟩ d.body (plainStmts_of_line h))
    fun hne n => line_last h hne n
  obtain ⟨g, hg, hmain⟩ := generate_main hp hd hbody
  exact ⟨g, _, hg, hmain, holds_append (mainTemplate d) _⟩

theorem generate_illegible {literal : Token → Bool} (hliteral : ∀ t, literal t → t.isLiteral)
    (h : line literal [] d.body) (hnone : line Token.isLegible [] d.body = false) :
    ∃ g, Compiler.generate p = (g, some (.crash .badNumeral)) := by
  have hbody : Stumbles (mainBody d.body) ⟨[[]]⟩ := by
    cases hcons : d.body with
    | nil =>
      rw [hcons] at hnone
      cases hnone
    | cons s l =>
      rw [hcons] at h hnone
      exact (line_stumbles hliteral h hnone).first
  exact generate_fails hp hd hbody

end Main

theorem run_line {image : Image} {t : Template} {l : List Stmt} (input : List Char)
    (h : line Token.isLegible [] l) (hsize : (l.length : Int) ≤ Value.sizeLimit)
    (hmain : image.get? "main" = some t)
    (hcode : Holds t 0 ((Flow.seq (flows ⟨[[]]⟩ l) (.ret [.push .null])).code 0)) :
    ∃ c m, (∀ fuel, outcome (run image false (fuel + c) { Machine.empty with input }) =
        (m, (evalLine [] "" l).2)) ∧
      m.output = (evalLine [] "" l).1 ∧ ((evalLine [] "" l).2 = none → m.frames = []) := by
  have hstraight : (Flow.seq (flows ⟨[[]]⟩ l) (.ret [.push .null])).straight :=
    ⟨straight_flows _ l (plainStmts_of_line h), by simp [Flow.straight, Op.straight]⟩
  have hentered : entered t input =
      working { Machine.empty with input } (.enter t) [] [] [] "" := rfl
  obtain ⟨vars, hline⟩ : ∃ vars, (flows ⟨[[]]⟩ l).Executes image (entered t input)
      (lineEnd { Machine.empty with input } (.enter t) [] vars (evalLine [] "" l)) := by
    rw [hentered]
    exact line_executes [] "" h (by simpa using hsize)
  cases heval : evalLine [] "" l with
  | mk output failure =>
    rw [heval] at hline
    cases failure with
    | some e =>
      obtain ⟨c, m, hout, hrun⟩ :=
        run_raises hmain hstraight hcode (.seq_stops hline trivial)
      exact ⟨c, m, fun fuel => by rw [hrun]; rfl, hout, fun h => by cases h⟩
    | none =>
      have hleave : leave image [.push .null]
          (working { Machine.empty with input } (.enter t) [] vars [] output) =
          .ok () { Machine.empty with input, output } := rfl
      obtain ⟨c, hrun⟩ := run_returns hmain hstraight hcode (.seq hline (.ret hleave)) rfl
      exact ⟨c, _, fun fuel => by rw [hrun]; rfl, rfl, fun _ => rfl⟩

/-- A main function of declarations and prints runs as it is evaluated, to an empty call stack or to
the failure of the evaluation, if its numerals can all be read. If a whole number among them has too
many digits, there is no code to run. No list of statements is longer than the list of variables can
get. -/
theorem generate_run_line (p : Program) (d : FunDef) (hp : p.functions = [d])
    (hd : d.name.lexeme = "main") (hl : line Token.isMeant [] d.body)
    (hsize : (d.body.length : Int) ≤ Value.sizeLimit) (input : List Char) :
    (line Token.isLegible [] d.body → ∃ g c m, Compiler.generate p = (g, none) ∧
      (∀ fuel, outcome (run g.image false (fuel + c) { Machine.empty with input }) =
        (m, (evalLine [] "" d.body).2)) ∧
      m.output = (evalLine [] "" d.body).1 ∧
      ((evalLine [] "" d.body).2 = none → m.frames = [])) ∧
    (line Token.isLegible [] d.body = false →
      ∃ g, Compiler.generate p = (g, some (.crash .badNumeral))) := by
  refine ⟨fun h => ?_, generate_illegible hp hd Token.isLiteral_of_isMeant hl⟩
  obtain ⟨g, t, hg, hmain, hcode⟩ := generate_line hp hd h
  obtain ⟨c, m, hrun, hout, hend⟩ := run_line input h hsize hmain hcode
  exact ⟨g, c, m, hg, hrun, hout, hend⟩

/-- The function
`void main() {int n = 7; bool b; print(n - 2 - 1); print(n > 6); print(b); print(n / divisor);}`. -/
def deducting (divisor : String) : FunDef :=
  let n : Term := .path [.mk (word .id "n") none]
  procedure "main" [declaring .intType "int" "n" (some (number "7")), declaring .boolType "bool" "b" none,
    printing (binary n .minus "-" (binary (.literal (word .intVal "2")) .minus "-" (number "1"))),
    printing (binary n .greater ">" (number "6")), printing (mention "b"),
    printing (binary n .divide "/" (number divisor))]

theorem generate_run_deducting :
    (∃ g c m, Compiler.generate ⟨[], [deducting "7"]⟩ = (g, none) ∧
      (∀ fuel, outcome (run g.image false (fuel + c) .empty) = (m, none)) ∧
      m.output = "6truenull1" ∧ m.frames = []) ∧
    ∃ g c m, Compiler.generate ⟨[], [deducting "0"]⟩ = (g, none) ∧
      (∀ fuel, outcome (run g.image false (fuel + c) .empty) =
        (m, some (.machine .divisionByZero))) ∧
      m.output = "6truenull" := by
  have hseven : evalLine [] "" (deducting "7").body = ("6truenull1", none) := by decide +kernel
  have hzero : evalLine [] "" (deducting "0").body =
      ("6truenull", some (.machine .divisionByZero)) := by decide +kernel
  obtain ⟨g, c, m, hg, hrun, hout, hend⟩ := (generate_run_line ⟨[], [deducting "7"]⟩ _ rfl rfl
    (by decide +kernel) (by decide +kernel) []).1 (by decide +kernel)
  obtain ⟨g', c', m', hg', hrun', hout', -⟩ := (generate_run_line ⟨[], [deducting "0"]⟩ _ rfl rfl
    (by decide +kernel) (by decide +kernel) []).1 (by decide +kernel)
  rw [hseven] at hrun hout hend
  rw [hzero] at hrun' hout'
  exact ⟨⟨g, c, m, hg, hrun, hout, hend rfl⟩, g', c', m', hg', hrun', hout'⟩

def square : Expr := binary (.path [.mk (word .id "x") none]) .times "*" (mention "x")

def squaring (digits : String) : FunDef :=
  procedure "main" [declaring .intType "int" "x" (some (number digits)),
    printing (.operand (.literal (word .stringVal "a"))), printing square]

theorem eval_square (n : Int) : square.eval [("x", .int n)] = .ok (.int (n * n)) := rfl

section Squaring

variable {digits : String} {n : Int} (h : Numeral.int? digits = some n)

include h

theorem denoted?_numeral : (word .intVal digits).denoted? = some (.int n) := by
  simp only [Token.denoted?, word, h, Option.map_some]

theorem squaring_legible : line Token.isLegible [] (squaring digits).body := by
  have hlegible : (word .intVal digits).isLegible := by
    rw [Token.isLegible, denoted?_numeral h]
    rfl
  have hnumber : (number digits).over Token.isLegible [] := by
    simp only [number, Expr.operand, Expr.over, Term.over, overRest, hlegible]
    rfl
  have hrest : line Token.isLegible ["x"]
      [printing (.operand (.literal (word .stringVal "a"))), printing square] := by decide
  exact Bool.and_eq_true_iff.2 ⟨Bool.and_eq_true_iff.2 ⟨rfl, hnumber⟩, hrest⟩

theorem eval_number : (number digits).eval [] = .ok (.int n) := by
  simp only [number, Expr.operand, Expr.eval, Term.eval, denoted?_numeral h]
  rfl

theorem evalLine_squaring (hsquare : Numeral.ofInt? (n * n) = none) :
    evalLine [] "" (squaring digits).body = ("a", some (.crash .badNumeral)) := by
  have hshown : (Value.int (n * n)).shown = .error .badNumeral := by
    simp only [Value.shown, Value.render, hsquare]
  have hprint : printedText [("x", .int n)] (word .id "print") (some [square]) =
      .error (.crash .badNumeral) := by
    have hvalue : printedValue [("x", .int n)] (word .id "print") (some [square]) =
        .ok (.int (n * n)) := rfl
    rw [printedText, hvalue]
    exact congrArg crashing hshown
  have hdecl : VarDecl.value [] ⟨⟨some ⟨false, some (word .intType "int")⟩, some (word .id "x")⟩,
      some (number digits)⟩ = .ok (.int n) := eval_number h
  have hfirst : evalLine [] "" (squaring digits).body =
      evalLine [("x", .int n)] "a" [printing square] := by
    simp only [squaring, procedure, declaring, evalLine, hdecl]
    rfl
  rw [hfirst, printing, evalLine, hprint]

theorem run_squaring (hsquare : Numeral.ofInt? (n * n) = none) :
    ∃ g c m, Compiler.generate ⟨[], [squaring digits]⟩ = (g, none) ∧
      (∀ fuel, outcome (run g.image false (fuel + c) .empty) =
        (m, some (.crash .badNumeral))) ∧ m.output = "a" := by
  obtain ⟨g, t, hg, hmain, hcode⟩ := generate_line (p := ⟨[], [squaring digits]⟩) rfl rfl
    (squaring_legible h)
  obtain ⟨c, m, hrun, hout, -⟩ := run_line [] (squaring_legible h)
    (show (3 : Int) ≤ Value.sizeLimit by decide) hmain hcode
  rw [evalLine_squaring h hsquare] at hrun hout
  exact ⟨g, c, m, hg, hrun, hout⟩

end Squaring

/-- A number can be read and its square be computed, but the square is too long to be printed. -/
theorem run_squaring_nines :
    line Token.isLegible [] (squaring (Numeral.nines Numeral.digitLimit)).body ∧
    (∃ n : Int, (number (Numeral.nines Numeral.digitLimit)).eval [] = .ok (.int n) ∧
      square.eval [("x", .int n)] = .ok (.int (n * n))) ∧
    ∃ g c m, Compiler.generate ⟨[], [squaring (Numeral.nines Numeral.digitLimit)]⟩ = (g, none) ∧
      (∀ fuel, outcome (run g.image false (fuel + c) .empty) =
        (m, some (.crash .badNumeral))) ∧ m.output = "a" := by
  have h := Numeral.int?_nines (k := Numeral.digitLimit) (by decide)
  rw [if_pos le_rfl] at h
  exact ⟨squaring_legible h, ⟨_, eval_number h, eval_square _⟩,
    run_squaring h (Numeral.ofInt?_square_nines (Numeral.natural_nines _))⟩

end StackLang
