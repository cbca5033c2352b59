import StackLang.Proofs.Emission
import StackLang.Proofs.Simulation

namespace StackLang

open Generator

def VarDecl.lexeme (d : VarDecl) : String := (d.var.name.map Token.lexeme).getD ""

def VarDecl.plain (d : VarDecl) : Bool := d.var.name.isSome && d.init.all Expr.plain

/-- A declaration, where its variable is known already. -/
def VarDecl.ops (o : Offsets) (d : VarDecl) : List Op :=
  (match d.init with
    | some e => emitted o (expr e)
    | none => [.push .null]) ++ [.store (o.operand d.lexeme)]

def Assign.plain (a : Assign) : Bool := (soleName? a.target).isSome && a.value.plain

def Assign.ops (o : Offsets) (a : Assign) : List Op :=
  emitted o (expr a.value) ++
    (soleName? a.target).toList.map fun name => .store (o.operand name.lexeme)

def printed? (callee : Token) : Option (List Expr) → Option Expr
  | some [e] => if callee.lexeme = "print" then some e else none
  | _ => none

mutual

/-- Declarations, assignments to variables, prints, returns, loops and conditions without
alternatives. -/
def Stmt.plain : Stmt → Bool
  | .ret e => e.plain
  | .decl d => d.plain
  | .assign a => a.plain
  | .loop condition body => condition.plain && plainStmts body
  | .count init condition step body =>
    init.plain && condition.plain && step.plain && plainStmts body
  | .choice (.mk condition body) others otherwise =>
    condition.plain && plainStmts body && others.isEmpty && otherwise.isEmpty
  | .call callee args => (printed? callee args).any Expr.plain
  | .expr _ => false

def plainStmts : List Stmt → Bool
  | [] => true
  | s :: l => s.plain && plainStmts l

end

/-- The variables that are known behind a statement. -/
def Stmt.scope (o : Offsets) : Stmt → Offsets
  | .decl d => o.declare d.lexeme
  | _ => o

mutual

def Stmt.flow (o : Offsets) : Stmt → Flow
  | .ret e => .ret (emitted o (expr e))
  | .decl d => .act (d.ops (o.declare d.lexeme))
  | .assign a => .act (a.ops o)
  | .loop condition body => .loop (emitted o (expr condition)) (flows o.enter body)
  | .count init condition step body =>
    let o' := o.enter.declare init.lexeme
    .seq (.act (init.ops o'))
      (.loop (emitted o' (expr condition)) (.seq (flows o'.enter body) (.act (step.ops o'))))
  | .choice (.mk condition body) _ _ => .branch (emitted o (expr condition)) (flows o.enter body)
  | .call callee args =>
    .act (((printed? callee args).toList.flatMap fun e => emitted o (expr e)) ++ [.write])
  | .expr _ => .act []

def flows (o : Offsets) : List Stmt → Flow
  | [] => .act []
  | s :: l => .seq (s.flow o) (flows (s.scope o) l)

end

theorem Offsets.leave_declare (o : Offsets) (name : String) : (o.declare name).leave = o.leave := by
  obtain ⟨_ | ⟨block, outer⟩⟩ := o <;> rfl

theorem leave_scopes (o : Offsets) (l : List Stmt) : (l.foldl Stmt.scope o).leave = o.leave := by
  induction l generalizing o with
  | nil => rfl
  | cons s l ih =>
    rw [List.foldl_cons, ih]
    cases s <;> simp only [Stmt.scope, Offsets.leave_declare]

namespace Generator

variable {o o' : Offsets} {p q : Gen Unit} {c : Nat → List Op}

theorem varDecl_emits {d : VarDecl} (h : d.plain) :
    Emits (varDecl d) o (o.declare d.lexeme) fun _ => d.ops (o.declare d.lexeme) := by
  obtain ⟨⟨type, name⟩, init⟩ := d
  simp only [VarDecl.plain, Bool.and_eq_true] at h
  obtain ⟨t, rfl⟩ := Option.isSome_iff_exists.1 h.1
  intro n
  cases init with
  | none =>
    simp only [varDecl, need, pure_bind]
    exact (Gets.onOffsets _).seq ((Gets.emit _).seq (.offset (.emit _)))
  | some e =>
    simp only [varDecl, need, pure_bind]
    exact (Gets.onOffsets _).seq ((Emits.of_plain h.2 n).seq (.offset (.emit _)))

theorem assign_emits {a : Assign} (h : a.plain) : Emits (assign a) o o fun _ => a.ops o := by
  obtain ⟨target, value⟩ := a
  simp only [Assign.plain, Bool.and_eq_true] at h
  obtain ⟨name, hname⟩ := Option.isSome_iff_exists.1 h.1
  obtain rfl := eq_of_soleName? hname
  intro n
  exact .offset ((Emits.of_plain h.2 n).seq (.emit _))

theorem inScope_emits (h : Emits p o.enter o' c) (ho : o'.leave = o) : Emits (inScope p) o o c := by
  intro n
  have hleave := Gets.onOffsets (n := n) (o := o') (a := c n) Offsets.leave
  rw [ho] at hleave
  exact (Gets.onOffsets Offsets.enter).seq ((h n).seq hleave)

/-- The code of a loop, with whatever is done in each round. -/
def cycle (condition round : Gen Unit) : Gen Unit := do
  let start ← here
  condition
  let exit ← here
  emit (.jumpFalse pending)
  round
  emit (.jump (address start))
  emit .nop
  patch exit (.jumpFalse (address ((← here) - 1)))

theorem cycle_emits {ops : List Op} {f : Flow} (hp : Emits p o o fun _ => ops)
    (hq : Emits q o o f.code) : Emits (cycle p q) o o (Flow.loop ops f).code := by
  intro n
  refine .here ((hp n).seq (.here ((Gets.emit _).seq (hq.gets.seq ((Gets.emit _).seq
    ((Gets.emit _).seq (.here ?_)))))))
  have hpatch : Gets n
      (patch (n + ops.length) (.jumpFalse (.int (n + (ops.length + 1 + f.size + 1) : Nat)))) o
      (ops ++ .jumpFalse pending :: (f.code (n + (ops.length + 1)) ++ [.jump (.int n), .nop])) o
      ((Flow.loop ops f).code n) := Gets.patch rfl
  have hlanding : n + (ops.length + (f.size + 2 + 1)) - 1 = n + (ops.length + 1 + f.size + 1) := by
    omega
  simpa [Flow.length_code, address, hlanding] using hpatch

theorem choice_emits {condition : Expr} {body : List Stmt} {f : Flow} {ops : List Op}
    (hp : Emits (expr condition) o o fun _ => ops) (hq : Emits (inScope (stmts body)) o o f.code) :
    Emits (stmt (.choice (.mk condition body) [] [])) o o (Flow.branch ops f).code := by
  intro n
  simp only [stmt]
  refine (hp n).seq (.here ((Gets.emit _).seq (hq.gets.seq (.here ((Gets.emit _).seq
    ((Gets.emit _).seq (.here ?_)))))))
  have hskip (landing : Nat) : Gets n (patch (n + ops.length) (.jumpFalse (.int landing))) o
      (ops ++ .jumpFalse pending :: (f.code (n + (ops.length + 1)) ++ [.jump pending, .nop])) o
      (ops ++ .jumpFalse (.int landing) ::
        (f.code (n + (ops.length + 1)) ++ [.jump pending, .nop])) := Gets.patch rfl
  have hjump (landing : Nat) : Gets n
      (patch (n + (ops.length + (f.size + 1))) (.jump (.int landing))) o
      ((ops ++ .jumpFalse (.int landing) :: f.code (n + (ops.length + 1))) ++
        .jump pending :: [.nop]) o
      ((ops ++ .jumpFalse (.int landing) :: f.code (n + (ops.length + 1))) ++
        .jump (.int landing) :: [.nop]) := Gets.patch (by simp [Flow.length_code])
  simp only [List.append_assoc, List.cons_append] at hjump
  have hlanding : n + (ops.length + (f.size + 2 + 1)) - 1 = n + (ops.length + 1 + f.size + 1) := by
    omega
  have := (hskip (n + (ops.length + 1 + f.size + 1))).seq (hjump (n + (ops.length + 1 + f.size + 1)))
  simpa [Flow.code, Flow.guarded, Flow.length_code, address, hlanding] using this

theorem seq_emits {o₁ o₂ : Offsets} {f h : Flow} (hp : Emits p o o₁ f.code)
    (hq : Emits q o₁ o₂ h.code) : Emits (do p; q) o o₂ (Flow.seq f h).code := by
  intro n
  have := (hp n).seq hq.gets
  rwa [Flow.length_code] at this

theorem stmt_loop_eq (condition : Expr) (body : List Stmt) :
    stmt (.loop condition body) = cycle (expr condition) (inScope (stmts body)) := by
  rw [stmt, cycle]

theorem stmt_count_eq (init : VarDecl) (condition : Expr) (step : Assign) (body : List Stmt) :
    stmt (.count init condition step body) = inScope (do
      varDecl init
      cycle (expr condition) (do inScope (stmts body); assign step)) := by
  simp only [stmt, cycle, inScope, bind_assoc]

theorem stmt_print_eq {callee : Token} {args : Option (List Expr)} {e : Expr}
    (h : printed? callee args = some e) :
    stmt (.call callee args) = (do expr e; emit .write) := by
  unfold printed? at h
  split at h
  · split at h
    · rename_i hprint
      cases h
      simp only [stmt, term, hprint, conversion?]
      rfl
    · cases h
  · cases h

theorem stmt_call_emits {callee : Token} {args : Option (List Expr)} {e : Expr}
    (hargs : printed? callee args = some e) (he : e.plain) :
    Emits (stmt (.call callee args)) o o fun _ => emitted o (expr e) ++ [.write] := by
  rw [stmt_print_eq hargs]
  intro n
  exact (Emits.of_plain he n).seq (Gets.emit .write)

mutual

theorem stmt_emits (o : Offsets) :
    (s : Stmt) → s.plain → Emits (stmt s) o (s.scope o) (s.flow o).code
  | .ret e, h => fun n => by
    simp only [stmt]
    exact (Emits.of_plain h n).seq (.emit .ret)
  | .decl d, h => varDecl_emits h
  | .assign a, h => assign_emits h
  | .loop condition body, h => by
    simp only [Stmt.plain, Bool.and_eq_true] at h
    rw [stmt_loop_eq]
    exact cycle_emits (.of_plain h.1)
      (inScope_emits (stmts_emits o.enter body h.2) (leave_scopes _ _))
  | .count init condition step body, h => by
    simp only [Stmt.plain, Bool.and_eq_true] at h
    obtain ⟨⟨⟨hinit, hcond⟩, hstep⟩, hbody⟩ := h
    have hround := seq_emits (h := .act (step.ops (o.enter.declare init.lexeme)))
      (inScope_emits (stmts_emits (o.enter.declare init.lexeme).enter body hbody)
        (leave_scopes _ _)) (assign_emits hstep)
    have hloop := seq_emits (f := .act (init.ops (o.enter.declare init.lexeme)))
      (varDecl_emits hinit) (cycle_emits (.of_plain hcond) hround)
    rw [stmt_count_eq]
    exact inScope_emits hloop (Offsets.leave_declare _ _)
  | .choice (.mk condition body) others otherwise, h => by
    simp only [Stmt.plain, Bool.and_eq_true, List.isEmpty_iff] at h
    obtain ⟨⟨⟨hcond, hbody⟩, rfl⟩, rfl⟩ := h
    exact choice_emits (.of_plain hcond)
      (inScope_emits (stmts_emits o.enter body hbody) (leave_scopes _ _))
  | .call callee args, h => by
    obtain ⟨e, hargs, he⟩ := (Option.any_eq_true _ _).1 h
    have hcall := stmt_call_emits (o := o) hargs he
    simpa [Stmt.flow, Stmt.scope, hargs, Flow.code] using hcall
  | .expr e, h => by cases h

theorem stmts_emits (o : Offsets) :
    (l : List Stmt) → plainStmts l → Emits (stmts l) o (l.foldl Stmt.scope o) (flows o l).code
  | [], _ => fun n => by
    simp only [stmts]
    exact Gets.pure
  | s :: l, h => by
    simp only [plainStmts, Bool.and_eq_true] at h
    simp only [stmts]
    exact seq_emits (stmt_emits o s h.1) (stmts_emits (s.scope o) l h.2)

end

end Generator

section Straight

variable {o : Offsets}

theorem straight_operator {sign : String} {op : Op} (h : operator? sign = some op) : op.straight := by
  unfold operator? at h
  split at h <;> cases h <;> rfl

theorem straight_operation (op : Option Token) : ∀ f ∈ operation op, f.straight := by
  intro f hf
  obtain ⟨t, -, ht⟩ := Option.bind_eq_some_iff.1 (Option.mem_toList.1 hf)
  exact straight_operator ht

mutual

theorem Expr.straight_code : (e : Expr) → ∀ op ∈ e.code o, op.straight
  | .mk negated first op rest => by
    have hfirst := Term.straight_code first
    have hrest := straight_restCode rest
    simp only [Expr.code]
    refine List.forall_mem_append.2 ⟨?_, straight_operation op⟩
    split
    · exact List.forall_mem_append.2 ⟨hrest, hfirst⟩
    · refine List.forall_mem_append.2 ⟨hfirst, List.forall_mem_append.2 ⟨?_, hrest⟩⟩
      split <;> simp [Op.straight]

theorem Term.straight_code : (t : Term) → ∀ op ∈ t.code o, op.straight
  | .literal t => by simp [Term.code, Op.straight]
  | .path refs => by simp [Term.code, Op.straight]
  | .group e => Expr.straight_code e
  | .create .. | .call .. => by simp [Term.code]

theorem straight_restCode : (e : Option Expr) → ∀ op ∈ restCode o e, op.straight
  | none => by simp [restCode]
  | some e => Expr.straight_code e

end

theorem straight_emitted {e : Expr} (h : e.plain) : ∀ op ∈ emitted o (expr e), op.straight := by
  rw [emitted_expr h]
  exact e.straight_code

theorem VarDecl.straight_ops {d : VarDecl} (h : d.plain) : ∀ op ∈ d.ops o, op.straight := by
  obtain ⟨var, init⟩ := d
  simp only [VarDecl.plain, Bool.and_eq_true] at h
  cases init with
  | none => simp [VarDecl.ops, Op.straight]
  | some e => exact List.forall_mem_append.2 ⟨straight_emitted h.2, by simp [Op.straight]⟩

theorem Assign.straight_ops {a : Assign} (h : a.plain) : ∀ op ∈ a.ops o, op.straight := by
  simp only [Assign.plain, Bool.and_eq_true] at h
  exact List.forall_mem_append.2 ⟨straight_emitted h.2, by simp [Op.straight]⟩

mutual

theorem Stmt.straight_flow (o : Offsets) : (s : Stmt) → s.plain → (s.flow o).straight
  | .ret e, h => straight_emitted h
  | .decl d, h => d.straight_ops h
  | .assign a, h => a.straight_ops h
  | .loop condition body, h => by
    simp only [Stmt.plain, Bool.and_eq_true] at h
    exact ⟨straight_emitted h.1, straight_flows o.enter body h.2⟩
  | .count init condition step body, h => by
    simp only [Stmt.plain, Bool.and_eq_true] at h
    obtain ⟨⟨⟨hinit, hcond⟩, hstep⟩, hbody⟩ := h
    exact ⟨init.straight_ops hinit, straight_emitted hcond, straight_flows _ body hbody,
      step.straight_ops hstep⟩
  | .choice (.mk condition body) others otherwise, h => by
    simp only [Stmt.plain, Bool.and_eq_true] at h
    exact ⟨straight_emitted h.1.1.1, straight_flows o.enter body h.1.1.2⟩
  | .call callee args, h => by
    obtain ⟨e, hargs, he⟩ := (Option.any_eq_true _ _).1 h
    refine List.forall_mem_append.2 ⟨?_, by simp [Op.straight]⟩
    simpa [hargs] using straight_emitted he
  | .expr e, h => by cases h

theorem straight_flows (o : Offsets) : (l : List Stmt) → plainStmts l → (flows o l).straight
  | [], _ => by simp [flows, Flow.straight]
  | s :: l, h => by
    simp only [plainStmts, Bool.and_eq_true] at h
    exact ⟨s.straight_flow o h.1, straight_flows (s.scope o) l h.2⟩

end

end Straight

open Machine

/-- In any machine that is about to execute the code of a template from place `lo` on, it is run
up to place `hi` as a structured program is executed: to the same ending, or on and on. -/
def RunsAs (t : Template) (lo hi : Nat) (p : Flow) : Prop :=
  ∀ (image : Image) (m : Machine) (f : Frame) (below : List Frame),
    m.frames = f :: below → f.template = t → f.pc = .int lo →
      (∀ r, (∃ n, span image below.length lo hi n m = some r) ↔
        ∃ r', p.Executes image m r' ∧ r'.movedTo hi = r) ∧
      ((∀ n, span image below.length lo hi n m = none) ↔ ∀ r, ¬p.Executes image m r)

theorem runsAs_of_holds {t : Template} {k : Nat} {p : Flow} (hp : p.straight)
    (h : Holds t k (p.code k)) : RunsAs t k (k + p.size) p := by
  intro image m f below hframes ht hpc
  have hm : m.seek k = m := by
    rw [seek, hframes]
    simp only [← hpc, ← hframes]
  have hcalls : m.calls = t :: below.map Frame.template := by
    rw [calls, hframes, List.map_cons, ht]
  have hiff : ∀ r, (∃ n, span image below.length k (k + p.size) n m = some r) ↔
      ∃ r', p.Executes image m r' ∧ r'.movedTo (k + p.size) = r := by
    intro r
    have hspan : (∃ n, span image (below.map Frame.template).length k (k + p.size) n (m.seek k) =
        some r) ↔ _ := Flow.span_iff_executes hcalls hp h
    rwa [hm, List.length_map] at hspan
  refine ⟨hiff, fun hnone r hr => ?_, fun hnone n => ?_⟩
  · obtain ⟨n, hn⟩ := (hiff _).2 ⟨r, hr, rfl⟩
    rw [hnone n] at hn
    cases hn
  · rw [Option.eq_none_iff_forall_not_mem]
    intro r hr
    obtain ⟨r', hr', -⟩ := (hiff r).1 ⟨n, hr⟩
    exact hnone r' hr'

theorem holds_append (t : Template) (ops : List Op) : Holds (t.append ops) t.code.size ops := by
  intro i op hi
  rw [Template.append, Array.getElem?_append_right (by omega)]
  simp [hi]

theorem stmts_runsAs (l : List Stmt) (hl : plainStmts l) (g : Generator) (t : Template)
    (hg : g.current = some t) :
    ∃ ops : List Op,
      stmts l g = .ok () { g with
        current := some (t.append ops), offsets := l.foldl Stmt.scope g.offsets } ∧
      ∀ host, Holds host t.code.size ops →
        RunsAs host t.code.size (t.code.size + ops.length) (flows g.offsets l) := by
  obtain ⟨image, current, offsets, structs⟩ := g
  cases hg
  refine ⟨(flows offsets l).code t.code.size, ?_, ?_⟩
  · simpa using stmts_emits offsets l hl t.code.size image t structs rfl
  · intro host hhost
    rw [Flow.length_code]
    exact runsAs_of_holds (straight_flows offsets l hl) hhost

/-- The statements of `int n = 0; while (n < 2) {if (n == 1) {print(n);} n = n + 1;} return n;`. -/
def counting : List Stmt :=
  let n : Term := .path [.mk (word .id "n") none]
  let operation (kind : Token.Kind) (sign lexeme : String) : Expr :=
    binary n kind sign (number lexeme)
  [declaring .intType "int" "n" (some (number "0")),
    .loop (operation .less "<" "2")
      [.choice (.mk (operation .equal "==" "1") [printing (mention "n")]) [] [],
        .assign ⟨[.mk (word .id "n") none], operation .plus "+" "1"⟩],
    .ret (mention "n")]

theorem counting_runsAs :
    plainStmts counting ∧ ∃ ops : List Op,
      stmts counting ⟨.empty, some ⟨"main", 0, #[]⟩, ⟨[[]]⟩, ∅⟩ =
        .ok () ⟨.empty, some (Template.append ⟨"main", 0, #[]⟩ ops), ⟨[["n"]]⟩, ∅⟩ ∧
      RunsAs (Template.append ⟨"main", 0, #[]⟩ ops) 0 ops.length (flows ⟨[[]]⟩ counting) := by
  have hplain : plainStmts counting := by decide
  obtain ⟨ops, hops, hruns⟩ :=
    stmts_runsAs counting hplain ⟨.empty, some ⟨"main", 0, #[]⟩, ⟨[[]]⟩, ∅⟩ _ rfl
  refine ⟨hplain, ops, hops, ?_⟩
  simpa using hruns _ (holds_append _ ops)

end StackLang
