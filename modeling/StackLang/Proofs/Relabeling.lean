import StackLang.Proofs.Yielding

namespace StackLang

mutual

/-- The expression with other tokens at the same places of the tree. -/
def Expr.relabel (f : Token → Token) : Expr → Expr
  | .mk negated first op rest => .mk negated (first.relabel f) (op.map f) (relabelIfAny f rest)

def Term.relabel (f : Token → Token) : Term → Term
  | .literal t => .literal (f t)
  | .create type size args => .create (f type) (relabelIfAny f size) (relabelList f args)
  | .path refs => .path (relabelRefs f refs)
  | .call name args => .call (f name) (relabelList f args)
  | .group e => .group (e.relabel f)

def relabelIfAny (f : Token → Token) : Option Expr → Option Expr
  | some e => some (e.relabel f)
  | none => none

def relabelList (f : Token → Token) : Option (List Expr) → Option (List Expr)
  | some l => some (relabelExprs f l)
  | none => none

def relabelExprs (f : Token → Token) : List Expr → List Expr
  | [] => []
  | e :: l => e.relabel f :: relabelExprs f l

def relabelRefs (f : Token → Token) : List Ref → List Ref
  | [] => []
  | .mk name index :: l => .mk (f name) (relabelIfAny f index) :: relabelRefs f l

end

def DataType.relabel (f : Token → Token) (t : DataType) : DataType := { t with name := t.name.map f }

def VarDef.relabel (f : Token → Token) (d : VarDef) : VarDef :=
  ⟨d.type.map (DataType.relabel f), d.name.map f⟩

def VarDecl.relabel (f : Token → Token) (d : VarDecl) : VarDecl :=
  ⟨d.var.relabel f, relabelIfAny f d.init⟩

def Assign.relabel (f : Token → Token) (a : Assign) : Assign :=
  ⟨relabelRefs f a.target, a.value.relabel f⟩

mutual

def Stmt.relabel (f : Token → Token) : Stmt → Stmt
  | .ret e => .ret (e.relabel f)
  | .decl d => .decl (d.relabel f)
  | .assign a => .assign (a.relabel f)
  | .loop condition body => .loop (condition.relabel f) (relabelStmts f body)
  | .count init condition step body =>
    .count (init.relabel f) (condition.relabel f) (step.relabel f) (relabelStmts f body)
  | .choice first others otherwise =>
    .choice (first.relabel f) (relabelBranches f others) (relabelStmts f otherwise)
  | .call name args => .call (f name) (relabelList f args)
  | .expr e => .expr (e.relabel f)

def Branch.relabel (f : Token → Token) : Branch → Branch
  | .mk condition body => .mk (condition.relabel f) (relabelStmts f body)

def relabelStmts (f : Token → Token) : List Stmt → List Stmt
  | [] => []
  | s :: l => s.relabel f :: relabelStmts f l

def relabelBranches (f : Token → Token) : List Branch → List Branch
  | [] => []
  | b :: l => b.relabel f :: relabelBranches f l

end

def StructDef.relabel (f : Token → Token) (d : StructDef) : StructDef :=
  ⟨f d.name, d.fields.map (VarDef.relabel f)⟩

def FunDef.relabel (f : Token → Token) (d : FunDef) : FunDef :=
  ⟨d.returns.relabel f, f d.name, d.params.map (VarDef.relabel f), relabelStmts f d.body⟩

def Program.relabel (f : Token → Token) (p : Program) : Program :=
  ⟨p.structs.map (StructDef.relabel f), p.functions.map (FunDef.relabel f)⟩

/-- The feed with other tokens. The places that the lexer has reached stay. -/
def Feed.relabel (f : Token → Token) (s : Feed) : Feed :=
  { s with
    current := s.current.map f
    ahead := s.ahead.map fun r => { r with token := f r.token } }

/-- The kinds of tokens stay the same, and end marks stay as they are. -/
structure Relabels (f : Token → Token) : Prop where
  kind (t : Token) : (f t).kind = t.kind
  eos (t : Token) : t.kind = .eos → f t = t

section Trees

variable {f : Token → Token} {e : Expr}

@[simp] theorem Expr.first_relabel : (e.relabel f).first = e.first.relabel f := by cases e; rfl

@[simp] theorem Expr.op_relabel : (e.relabel f).op = e.op.map f := by cases e; rfl

@[simp] theorem Expr.rest_relabel : (e.relabel f).rest = relabelIfAny f e.rest := by cases e; rfl

@[simp] theorem Expr.negated_relabel : (e.relabel f).negated = e.negated := by cases e; rfl

theorem Expr.relabel_negate : e.negate.relabel f = (e.relabel f).negate := by cases e; rfl

theorem Expr.relabel_withFirst {t : Term} :
    (e.withFirst t).relabel f = (e.relabel f).withFirst (t.relabel f) := by cases e; rfl

theorem Expr.relabel_withRest {r : Expr} :
    (e.withRest r).relabel f = (e.relabel f).withRest (r.relabel f) := by cases e; rfl

theorem relabelStmts_append (l l' : List Stmt) :
    relabelStmts f (l ++ l') = relabelStmts f l ++ relabelStmts f l' := by
  induction l with
  | nil => rfl
  | cons s l ih => rw [List.cons_append, relabelStmts, relabelStmts, ih, List.cons_append]

theorem relabelStmts_echo (s : Stmt) :
    relabelStmts f (Parser.echo s) = Parser.echo (s.relabel f) := by
  cases s <;> rfl

theorem relabelStmts_flatMap_echo (l : List Stmt) :
    relabelStmts f (l.flatMap Parser.echo) = (relabelStmts f l).flatMap Parser.echo := by
  induction l with
  | nil => rfl
  | cons s l ih =>
    rw [List.flatMap_cons, relabelStmts_append, relabelStmts_echo, ih, relabelStmts,
      List.flatMap_cons]

end Trees

section Composition

variable (f g : Token → Token)

mutual

theorem Expr.relabel_relabel : ∀ e : Expr, (e.relabel f).relabel g = e.relabel (g ∘ f)
  | .mk negated first op rest => by
    simp only [Expr.relabel, first.relabel_relabel, relabelIfAny_relabelIfAny rest, Option.map_map]

theorem Term.relabel_relabel : ∀ t : Term, (t.relabel f).relabel g = t.relabel (g ∘ f)
  | .literal t => rfl
  | .create type size args => by
    simp only [Term.relabel, relabelIfAny_relabelIfAny size, relabelList_relabelList args,
      Function.comp_apply]
  | .path refs => by simp only [Term.relabel, relabelRefs_relabelRefs refs]
  | .call name args => by
    simp only [Term.relabel, relabelList_relabelList args, Function.comp_apply]
  | .group e => by simp only [Term.relabel, e.relabel_relabel]

theorem relabelIfAny_relabelIfAny : ∀ o : Option Expr,
    relabelIfAny g (relabelIfAny f o) = relabelIfAny (g ∘ f) o
  | none => rfl
  | some e => by simp only [relabelIfAny, e.relabel_relabel]

theorem relabelList_relabelList : ∀ o : Option (List Expr),
    relabelList g (relabelList f o) = relabelList (g ∘ f) o
  | none => rfl
  | some l => by simp only [relabelList, relabelExprs_relabelExprs l]

theorem relabelExprs_relabelExprs : ∀ l : List Expr,
    relabelExprs g (relabelExprs f l) = relabelExprs (g ∘ f) l
  | [] => rfl
  | e :: l => by simp only [relabelExprs, e.relabel_relabel, relabelExprs_relabelExprs l]

theorem relabelRefs_relabelRefs : ∀ l : List Ref,
    relabelRefs g (relabelRefs f l) = relabelRefs (g ∘ f) l
  | [] => rfl
  | .mk name index :: l => by
    simp only [relabelRefs, relabelIfAny_relabelIfAny index, relabelRefs_relabelRefs l,
      Function.comp_apply]

end

theorem VarDef.relabel_relabel (d : VarDef) : (d.relabel f).relabel g = d.relabel (g ∘ f) := by
  obtain ⟨_ | type, name⟩ := d <;> simp [VarDef.relabel, DataType.relabel]

theorem VarDecl.relabel_relabel (d : VarDecl) : (d.relabel f).relabel g = d.relabel (g ∘ f) := by
  simp only [VarDecl.relabel, VarDef.relabel_relabel, relabelIfAny_relabelIfAny]

theorem Assign.relabel_relabel (a : Assign) : (a.relabel f).relabel g = a.relabel (g ∘ f) := by
  simp only [Assign.relabel, relabelRefs_relabelRefs, Expr.relabel_relabel]

mutual

theorem Stmt.relabel_relabel : ∀ s : Stmt, (s.relabel f).relabel g = s.relabel (g ∘ f)
  | .ret e => by simp only [Stmt.relabel, Expr.relabel_relabel]
  | .decl d => by simp only [Stmt.relabel, VarDecl.relabel_relabel]
  | .assign a => by simp only [Stmt.relabel, Assign.relabel_relabel]
  | .loop c body => by
    simp only [Stmt.relabel, Expr.relabel_relabel, relabelStmts_relabelStmts body]
  | .count init c step body => by
    simp only [Stmt.relabel, Expr.relabel_relabel, VarDecl.relabel_relabel, Assign.relabel_relabel,
      relabelStmts_relabelStmts body]
  | .choice first others otherwise => by
    simp only [Stmt.relabel, first.relabel_relabel, relabelBranches_relabelBranches others,
      relabelStmts_relabelStmts otherwise]
  | .call name args => by simp only [Stmt.relabel, relabelList_relabelList, Function.comp_apply]
  | .expr e => by simp only [Stmt.relabel, Expr.relabel_relabel]

theorem Branch.relabel_relabel : ∀ b : Branch, (b.relabel f).relabel g = b.relabel (g ∘ f)
  | .mk c body => by simp only [Branch.relabel, Expr.relabel_relabel, relabelStmts_relabelStmts body]

theorem relabelStmts_relabelStmts : ∀ l : List Stmt,
    relabelStmts g (relabelStmts f l) = relabelStmts (g ∘ f) l
  | [] => rfl
  | s :: l => by simp only [relabelStmts, s.relabel_relabel, relabelStmts_relabelStmts l]

theorem relabelBranches_relabelBranches : ∀ l : List Branch,
    relabelBranches g (relabelBranches f l) = relabelBranches (g ∘ f) l
  | [] => rfl
  | b :: l => by simp only [relabelBranches, b.relabel_relabel, relabelBranches_relabelBranches l]

end

theorem Program.relabel_relabel (p : Program) : (p.relabel f).relabel g = p.relabel (g ∘ f) := by
  simp [Program.relabel, StructDef.relabel, FunDef.relabel, DataType.relabel, Function.comp_def,
    VarDef.relabel_relabel, relabelStmts_relabelStmts]

end Composition

namespace Parse

variable {α β γ δ : Type} {f : Token → Token} {m : α → β} {m' : γ → δ}

/-- What `q` does to a relabeled feed is what `p` does to the feed itself, and `m` relabels the
result. Where one of the two fails, so does the other. -/
structure Commutes (f : Token → Token) (m : α → β) (p : Parse α) (q : Parse β) : Prop where
  ok (s s' : Feed) (a : α) : p s = .ok a s' → q (s.relabel f) = .ok (m a) (s'.relabel f)
  error (s s' : Feed) (e : Failure) : p s = .error e s' → ∃ e' t, q (s.relabel f) = .error e' t

namespace Commutes

theorem pure {a : α} {b : β} (h : m a = b) : Commutes f m (pure a) (pure b) := by
  constructor
  · intro s s' x hx
    cases hx
    rw [h]
    rfl
  · intro s s' e he
    cases he

theorem throw (e e' : Failure) : Commutes f m (throw e) (throw e') := by
  constructor
  · intro s s' a h
    cases h
  · intro s s' _ _
    exact ⟨e', s.relabel f, rfl⟩

theorem bind {p : Parse α} {q : Parse β} {g : α → Parse γ} {g' : β → Parse δ}
    (hp : Commutes f m p q) (hg : ∀ a, Commutes f m' (g a) (g' (m a))) :
    Commutes f m' (p >>= g) (q >>= g') := by
  constructor
  · intro s s' c h
    obtain ⟨a, t, ha, hc⟩ := exists_of_bind h
    rw [bind_of_ok (hp.ok s t a ha)]
    exact (hg a).ok t s' c hc
  · intro s s' e h
    cases ha : p s with
    | ok a t =>
      rw [bind_of_ok ha] at h
      rw [bind_of_ok (hp.ok s t a ha)]
      exact (hg a).error t s' e h
    | error e₁ t =>
      obtain ⟨e', t', hq⟩ := hp.error s t e₁ ha
      exact ⟨e', t', by simp only [Bind.bind, EStateM.bind, hq]⟩

theorem ite {c : Prop} [Decidable c] {p p' : Parse α} {q q' : Parse β} (h : Commutes f m p q)
    (h' : Commutes f m p' q') :
    Commutes f m (if c then p else p') (if c then q else q') := by
  by_cases hc : c
  · rw [if_pos hc, if_pos hc]
    exact h
  · rw [if_neg hc, if_neg hc]
    exact h'

theorem look : Commutes f f look look := by
  constructor
  · intro s s' t h
    cases hc : s.current with
    | none =>
      rw [Parse.look, hc] at h
      cases h
    | some u =>
      rw [Parse.look, hc] at h
      cases h
      rw [Parse.look, Feed.relabel, hc]
      rfl
  · intro s s' e h
    cases hc : s.current with
    | none =>
      refine ⟨.crash .missingPart, s.relabel f, ?_⟩
      rw [Parse.look, Feed.relabel, hc]
      rfl
    | some u =>
      rw [Parse.look, hc] at h
      cases h

theorem kind (hf : Relabels f) : Commutes f id kind kind :=
  look.bind fun t => .pure (hf.kind t).symm

theorem kind_bind (hf : Relabels f) {g : Token.Kind → Parse α} {g' : Token.Kind → Parse β}
    (h : ∀ k, Commutes f m (g k) (g' k)) : Commutes f m (Parse.kind >>= g) (Parse.kind >>= g') :=
  (kind hf).bind h

theorem sees_bind (hf : Relabels f) {k : Token.Kind} {g : Bool → Parse α} {g' : Bool → Parse β}
    (h : ∀ b, Commutes f m (g b) (g' b)) : Commutes f m (sees k >>= g) (sees k >>= g') := by
  have hsees : Commutes f id (sees k) (sees k) := kind_bind hf fun j => .pure rfl
  exact hsees.bind h

theorem reject {wanted : Expectation} : Commutes f m (reject wanted) (reject wanted) :=
  look.bind fun _ => throw _ _

theorem reject_bind {wanted : Expectation} {g : α → Parse γ} {g' : β → Parse δ} :
    Commutes f m' (Parse.reject wanted >>= g) (Parse.reject wanted >>= g') := by
  rw [Parse.reject, Parse.reject, bind_assoc, bind_assoc]
  exact look.bind fun _ => throw _ _

theorem advance (hf : Relabels f) : Commutes f id advance advance := by
  constructor
  · rintro ⟨current, line, column, ahead, ending⟩ s' ⟨⟩ h
    cases ahead with
    | cons r rs =>
      cases h
      rfl
    | nil =>
      cases ending with
      | failure => cases h
      | marks line column =>
        cases h
        have heos : some (f ⟨.eos, "", line, column⟩) = some ⟨.eos, "", line, column⟩ :=
          congrArg some (hf.eos _ rfl)
        simp only [Feed.relabel, Option.map_some, heos]
        rfl
  · rintro ⟨current, line, column, ahead, ending⟩ s' e h
    cases ahead with
    | cons r rs => cases h
    | nil =>
      cases ending with
      | failure => exact ⟨_, _, rfl⟩
      | marks => cases h

theorem expect (hf : Relabels f) {k : Token.Kind} {wanted : Expectation} :
    Commutes f id (expect k wanted) (expect k wanted) :=
  sees_bind hf fun _ => ite (advance hf) reject

theorem eat (hf : Relabels f) {k : Token.Kind} : Commutes f id (eat k) (eat k) := expect hf

/-- A token that is consumed only if a test of it says so. -/
theorem optional (hf : Relabels f) {c : Prop} [Decidable c] {g : Unit → Parse α}
    {g' : Unit → Parse β} (h : Commutes f m (g ()) (g' ())) :
    Commutes f m (if c then Parse.advance >>= g else g ()) (if c then Parse.advance >>= g' else g' ()) :=
  ite ((advance hf).bind fun _ => h) h

theorem take (hf : Relabels f) {k : Token.Kind} : Commutes f f (take k) (take k) :=
  look.bind fun _ => (eat hf).bind fun _ => .pure rfl

end Commutes
end Parse

namespace Parser

open Parse

variable {f : Token → Token} {n : Nat} {e : Expr}

theorem callee_commutes : Commutes f f (callee e) (callee (e.relabel f)) := by
  rw [callee, callee, Expr.first_relabel]
  cases e.first with
  | path refs =>
    cases refs with
    | nil => exact .throw _ _
    | cons r refs => cases r; exact .pure rfl
  | _ => exact .throw _ _

/-- With `n` steps of descent the parser makes relabeled expressions of relabeled tokens. -/
structure RelabelsExprs (f : Token → Token) (n : Nat) : Prop where
  expr : Commutes f (Expr.relabel f) (expr n) (expr n)
  operation (t : Term) : Commutes f (Expr.relabel f) (operation n t) (operation n (t.relabel f))
  operand : Commutes f (Term.relabel f) (operand n) (operand n)
  creation : Commutes f (Term.relabel f) (creation n) (creation n)
  moreArguments : Commutes f (relabelExprs f) (moreArguments n) (moreArguments n)
  index : Commutes f (relabelIfAny f) (index n) (index n)
  selectors : Commutes f (relabelRefs f) (selectors n) (selectors n)
  path (name : Token) : Commutes f (relabelRefs f) (path n name) (path n (f name))

namespace RelabelsExprs

variable (hf : Relabels f) (h : RelabelsExprs f n)

include hf h

theorem expr_succ : Commutes f (Expr.relabel f) (Parser.expr (n + 1)) (Parser.expr (n + 1)) := by
  have hoperand : Commutes f (Expr.relabel f) (Parser.operand n >>= Parser.operation n)
      (Parser.operand n >>= Parser.operation n) := h.operand.bind h.operation
  have hnegation : Commutes f (Expr.relabel f) (do advance; return (← Parser.expr n).negate)
      (do advance; return (← Parser.expr n).negate) :=
    (Commutes.advance hf).bind fun _ => h.expr.bind fun _ => .pure Expr.relabel_negate
  have hgroup : Commutes f (Expr.relabel f) (do
      advance
      let inner ← Parser.expr n
      expect .rparen .groupEnd
      Parser.operation n (.group inner)) (do
      advance
      let inner ← Parser.expr n
      expect .rparen .groupEnd
      Parser.operation n (.group inner)) :=
    (Commutes.advance hf).bind fun _ => h.expr.bind fun _ => (Commutes.expect hf).bind fun _ =>
      h.operation _
  rw [Parser.expr]
  refine .kind_bind hf fun k => ?_
  cases k <;> first
    | exact .reject
    | exact hnegation
    | exact hgroup
    | exact hoperand

theorem operation_succ (t : Term) : Commutes f (Expr.relabel f) (Parser.operation (n + 1) t)
    (Parser.operation (n + 1) (t.relabel f)) := by
  rw [Parser.operation, Parser.operation]
  refine Commutes.look.bind fun o => ?_
  rw [hf.kind]
  refine .ite ?_ (.pure rfl)
  exact (Commutes.advance hf).bind fun _ => h.expr.bind fun r => .pure rfl

theorem operand_succ :
    Commutes f (Term.relabel f) (Parser.operand (n + 1)) (Parser.operand (n + 1)) := by
  have hname : Commutes f (Term.relabel f) (do return .path (← Parser.path n (← take .id)))
      (do return .path (← Parser.path n (← take .id))) :=
    (Commutes.take hf).bind fun name => (h.path name).bind fun _ => .pure rfl
  have hliteral : Commutes f (Term.relabel f) (do let t ← look; advance; return .literal t)
      (do let t ← look; advance; return .literal t) :=
    Commutes.look.bind fun _ => (Commutes.advance hf).bind fun _ => .pure rfl
  rw [Parser.operand]
  refine .kind_bind hf fun k => ?_
  cases k <;> first
    | exact h.creation
    | exact hname
    | exact hliteral

theorem creation_succ :
    Commutes f (Term.relabel f) (Parser.creation (n + 1)) (Parser.creation (n + 1)) := by
  rw [Parser.creation]
  refine (Commutes.eat hf).bind fun _ => Commutes.look.bind fun type => ?_
  rw [hf.kind]
  refine .optional hf (.kind_bind hf fun k => ?_)
  have hone : Commutes f (Term.relabel f) (do return .create type none (some []))
      (do return .create (f type) none (some [])) := .pure rfl
  have hsize : Commutes f (Term.relabel f) (do return .create type (← Parser.index n) none)
      (do return .create (f type) (← Parser.index n) none) := h.index.bind fun _ => .pure rfl
  cases k <;> first
    | exact hone
    | exact hsize
    | refine (Commutes.advance hf).bind fun _ => .sees_bind hf fun b => .ite ?_ ?_
  · exact (Commutes.advance hf).bind fun _ => hone
  · exact h.expr.bind fun _ => h.moreArguments.bind fun _ => (Commutes.eat hf).bind fun _ =>
      .pure rfl

theorem moreArguments_succ : Commutes f (relabelExprs f) (Parser.moreArguments (n + 1))
    (Parser.moreArguments (n + 1)) := by
  rw [Parser.moreArguments]
  refine .sees_bind hf fun _ => .ite ?_ (.pure rfl)
  exact (Commutes.advance hf).bind fun _ => h.expr.bind fun _ => h.moreArguments.bind fun _ =>
    .pure rfl

theorem index_succ :
    Commutes f (relabelIfAny f) (Parser.index (n + 1)) (Parser.index (n + 1)) := by
  rw [Parser.index]
  refine .sees_bind hf fun _ => .ite ?_ (.pure rfl)
  exact (Commutes.advance hf).bind fun _ => h.expr.bind fun _ => (Commutes.eat hf).bind fun _ =>
    .pure rfl

theorem selectors_succ :
    Commutes f (relabelRefs f) (Parser.selectors (n + 1)) (Parser.selectors (n + 1)) := by
  rw [Parser.selectors]
  refine .sees_bind hf fun _ => .ite ?_ (.pure rfl)
  exact (Commutes.advance hf).bind fun _ => (Commutes.take hf).bind fun _ =>
    h.index.bind fun _ => h.selectors.bind fun _ => .pure rfl

omit hf in
theorem path_succ (name : Token) : Commutes f (relabelRefs f) (Parser.path (n + 1) name)
    (Parser.path (n + 1) (f name)) := by
  rw [Parser.path, Parser.path]
  exact h.index.bind fun _ => h.selectors.bind fun _ => .pure rfl

end RelabelsExprs

theorem relabelsExprs (hf : Relabels f) (n : Nat) : RelabelsExprs f n := by
  induction n with
  | zero =>
    exact ⟨.throw _ _, fun _ => .throw _ _, .throw _ _, .throw _ _, .throw _ _, .throw _ _,
      .throw _ _, fun _ => .throw _ _⟩
  | succ n ih =>
    exact ⟨ih.expr_succ hf, ih.operation_succ hf, ih.operand_succ hf, ih.creation_succ hf,
      ih.moreArguments_succ hf, ih.index_succ hf, ih.selectors_succ hf, ih.path_succ⟩

section Statements

variable (hf : Relabels f)

include hf

theorem arguments_commutes (n : Nat) :
    Commutes f (relabelList f) (arguments n) (arguments n) := by
  induction n with
  | zero => exact .throw _ _
  | succ n ih =>
    have h := relabelsExprs hf n
    have hclosed (args : List Expr) : Commutes f (relabelList f)
        (do expect .rparen .callEnd; return some args)
        (do expect .rparen .callEnd; return some (relabelExprs f args)) :=
      (Commutes.expect hf).bind fun _ => .pure rfl
    rw [arguments]
    simp only [pure_bind]
    refine .sees_bind hf fun _ => .ite ?_ (.pure rfl)
    refine (Commutes.advance hf).bind fun _ => .kind_bind hf fun k => .ite ?_ (hclosed [])
    refine h.expr.bind fun e => .sees_bind hf fun _ => .ite ?_ ?_
    · refine callee_commutes.bind fun name => ih.bind fun inner => ?_
      have hcall := hclosed [e.withFirst (.call name inner)]
      rw [relabelExprs, Expr.relabel_withFirst] at hcall
      exact hcall
    · exact h.moreArguments.bind fun l => hclosed (e :: l)

theorem dataType_commutes : Commutes f (DataType.relabel f) dataType dataType := by
  refine Commutes.look.bind fun t => ?_
  rw [hf.kind]
  have hname : Commutes f (DataType.relabel f) (do advance; return ⟨false, some t⟩)
      (do advance; return ⟨false, some (f t)⟩) := (Commutes.advance hf).bind fun _ => .pure rfl
  cases t.kind <;> first
    | exact .throw _ _
    | exact hname
    | exact .pure rfl
    | refine (Commutes.advance hf).bind fun _ => Commutes.look.bind fun u => ?_
  rw [hf.kind]
  exact .ite ((Commutes.advance hf).bind fun _ => .pure rfl) (.pure rfl)

theorem declared_commutes (named : Option Token) :
    Commutes f (VarDef.relabel f) (declared named) (declared (named.map f)) := by
  refine Commutes.look.bind fun t => ?_
  rw [hf.kind]
  refine .ite ?_ (.ite ?_ (.pure rfl))
  · exact (dataType_commutes hf).bind fun _ => (Commutes.take hf).bind fun _ => .pure rfl
  · exact (Commutes.advance hf).bind fun _ => .pure rfl

theorem declaration_commutes (n : Nat) (named : Option Token) :
    Commutes f (VarDecl.relabel f) (declaration n named) (declaration n (named.map f)) := by
  refine (declared_commutes hf named).bind fun var => .sees_bind hf fun _ => .ite ?_ (.pure rfl)
  refine (Commutes.advance hf).bind fun _ => (relabelsExprs hf n).expr.bind fun e =>
    .sees_bind hf fun _ => .ite ?_ (.pure rfl)
  refine callee_commutes.bind fun name => (arguments_commutes hf n).bind fun args => .pure ?_
  rw [VarDecl.relabel, relabelIfAny, Expr.relabel_withFirst]
  rfl

theorem assignment_commutes (n : Nat) (name : Token) :
    Commutes f (Assign.relabel f) (assignment n name) (assignment n (f name)) :=
  ((relabelsExprs hf n).path name).bind fun _ => (Commutes.eat hf).bind fun _ =>
    (relabelsExprs hf n).expr.bind fun _ => .pure rfl

theorem callInRest_commutes (n : Nat) (e : Expr) :
    Commutes f (Expr.relabel f) (callInRest n e) (callInRest n (e.relabel f)) := by
  rw [callInRest, callInRest, Expr.rest_relabel]
  cases e.rest with
  | none => exact .throw _ _
  | some r =>
    refine callee_commutes.bind fun name => (arguments_commutes hf n).bind fun args => .pure ?_
    rw [Expr.relabel_withRest]
    rfl

theorem condition_commutes (n : Nat) :
    Commutes f (Expr.relabel f) (condition n) (condition n) := by
  refine (relabelsExprs hf n).expr.bind fun e => .sees_bind hf fun _ => .ite ?_ (.pure rfl)
  rw [Expr.op_relabel, Option.isNone_map]
  refine .ite ?_ (callInRest_commutes hf n e)
  exact callee_commutes.bind fun name => (arguments_commutes hf n).bind fun args =>
    .pure Expr.relabel_withFirst

theorem returnedCalls_commutes (n : Nat) (e : Expr) :
    Commutes f (Expr.relabel f) (returnedCalls n e) (returnedCalls n (e.relabel f)) := by
  induction n generalizing e with
  | zero => exact .throw _ _
  | succ n ih =>
    rw [returnedCalls, returnedCalls]
    refine Commutes.look.bind fun op => ?_
    rw [hf.kind, Expr.negated_relabel, Expr.first_relabel]
    refine .ite ?_ (.pure rfl)
    exact (Commutes.advance hf).bind fun _ => Commutes.look.bind fun name =>
      (Commutes.advance hf).bind fun _ => (arguments_commutes hf n).bind fun args => ih _

theorem returned_commutes (n : Nat) : Commutes f (Expr.relabel f) (returned n) (returned n) := by
  refine (relabelsExprs hf n).expr.bind fun e => ?_
  rw [Expr.first_relabel, Expr.op_relabel, Option.isNone_map]
  cases e.first with
  | path refs =>
    refine .sees_bind hf fun _ => .ite (.ite ?_ (callInRest_commutes hf n e)) (.pure rfl)
    refine callee_commutes.bind fun name => (arguments_commutes hf n).bind fun args => ?_
    have hcalls := returnedCalls_commutes hf n (e.withFirst (.call name args))
    rw [Expr.relabel_withFirst] at hcalls
    exact hcalls
  | _ => exact .pure rfl

end Statements

/-- With `n` steps of descent the parser makes relabeled statements of relabeled tokens. -/
structure RelabelsStmts (f : Token → Token) (n : Nat) : Prop where
  stmt : Commutes f (Stmt.relabel f) (stmt n) (stmt n)
  alternatives : Commutes f (Prod.map (relabelBranches f) (relabelStmts f)) (alternatives n)
    (alternatives n)
  block : Commutes f (relabelStmts f) (block n) (block n)
  stmts : Commutes f (relabelStmts f) (stmts n) (stmts n)

namespace RelabelsStmts

variable (hf : Relabels f) (h : RelabelsStmts f n)

include hf h

/-- A condition with a body behind it, and what is made of the two. -/
theorem arm {β γ : Type} {m : β → γ} {g : Expr → List Stmt → Parse β}
    {g' : Expr → List Stmt → Parse γ}
    (hg : ∀ e body, Commutes f m (g e body) (g' (e.relabel f) (relabelStmts f body))) :
    Commutes f m
      (expr n >>= fun e => eat .rparen >>= fun _ => Parser.block n >>= fun body => g e body)
      (expr n >>= fun e => eat .rparen >>= fun _ => Parser.block n >>= fun body => g' e body) :=
  (relabelsExprs hf n).expr.bind fun e => (Commutes.eat hf).bind fun _ => h.block.bind (hg e)

theorem count_commutes : Commutes f (Stmt.relabel f)
    (do
      advance
      eat .lparen
      let init ← declaration n none
      eat .semicolon
      let e ← condition n
      eat .semicolon
      let name ← look
      advance
      let step ← assignment n name
      eat .rparen
      return .count init e step (← Parser.block n))
    (do
      advance
      eat .lparen
      let init ← declaration n none
      eat .semicolon
      let e ← condition n
      eat .semicolon
      let name ← look
      advance
      let step ← assignment n name
      eat .rparen
      return .count init e step (← Parser.block n)) := by
  refine (Commutes.advance hf).bind fun _ => (Commutes.eat hf).bind fun _ => ?_
  refine (declaration_commutes hf n none).bind fun init => (Commutes.eat hf).bind fun _ => ?_
  refine (condition_commutes hf n).bind fun e => (Commutes.eat hf).bind fun _ => ?_
  refine Commutes.look.bind fun name => (Commutes.advance hf).bind fun _ => ?_
  refine (assignment_commutes hf n name).bind fun step => (Commutes.eat hf).bind fun _ => ?_
  exact h.block.bind fun body => .pure rfl

theorem stmt_succ : Commutes f (Stmt.relabel f) (Parser.stmt (n + 1)) (Parser.stmt (n + 1)) := by
  have hreturn : Commutes f (Stmt.relabel f)
      (do advance; let e ← returned n; eat .semicolon; return .ret e)
      (do advance; let e ← returned n; eat .semicolon; return .ret e) :=
    (Commutes.advance hf).bind fun _ => (returned_commutes hf n).bind fun _ =>
      (Commutes.eat hf).bind fun _ => .pure rfl
  have hdecl : Commutes f (Stmt.relabel f)
      (do let d ← declaration n none; eat .semicolon; return .decl d)
      (do let d ← declaration n none; eat .semicolon; return .decl d) :=
    (declaration_commutes hf n none).bind fun _ => (Commutes.eat hf).bind fun _ => .pure rfl
  have hchoice (e : Expr) (body : List Stmt) : Commutes f (Stmt.relabel f)
      (do let x ← Parser.alternatives n; return .choice (.mk e body) x.1 x.2)
      (do
        let x ← Parser.alternatives n
        return .choice (.mk (e.relabel f) (relabelStmts f body)) x.1 x.2) :=
    h.alternatives.bind fun _ => .pure rfl
  rw [Parser.stmt]
  simp only [pure_bind]
  refine .kind_bind hf fun k => ?_
  cases k
  case whileKw =>
    refine (Commutes.advance hf).bind fun _ => (Commutes.eat hf).bind fun _ =>
      .sees_bind hf fun _ => .ite .reject_bind ?_
    exact h.arm hf fun _ _ => .pure rfl
  case ifKw =>
    refine (Commutes.advance hf).bind fun _ => (Commutes.eat hf).bind fun _ =>
      .sees_bind hf fun _ => .ite .reject_bind ?_
    exact h.arm hf hchoice
  case id =>
    refine (Commutes.take hf).bind fun name => .kind_bind hf fun k => ?_
    have hcall : Commutes f (Stmt.relabel f)
        (do let args ← arguments n; eat .semicolon; return .call name args)
        (do let args ← arguments n; eat .semicolon; return .call (f name) args) :=
      (arguments_commutes hf n).bind fun _ => (Commutes.eat hf).bind fun _ => .pure rfl
    have hassign : Commutes f (Stmt.relabel f)
        (do let a ← assignment n name; eat .semicolon; return .assign a)
        (do let a ← assignment n (f name); eat .semicolon; return .assign a) :=
      (assignment_commutes hf n name).bind fun _ => (Commutes.eat hf).bind fun _ => .pure rfl
    have hstruct : Commutes f (Stmt.relabel f)
        (do let d ← declaration n (some name); eat .semicolon; return .decl d)
        (do let d ← declaration n (some (f name)); eat .semicolon; return .decl d) :=
      (declaration_commutes hf n (some name)).bind fun _ => (Commutes.eat hf).bind fun _ => .pure rfl
    cases k <;> first
      | exact hcall
      | exact hassign
      | exact hstruct
  all_goals first
    | exact .reject
    | exact hreturn
    | exact hdecl
    | exact h.count_commutes hf

theorem alternatives_succ : Commutes f (Prod.map (relabelBranches f) (relabelStmts f))
    (Parser.alternatives (n + 1)) (Parser.alternatives (n + 1)) := by
  have helse : Commutes f (Prod.map (relabelBranches f) (relabelStmts f))
      (do advance; let body ← Parser.block n; return ([], body.flatMap echo))
      (do advance; let body ← Parser.block n; return ([], body.flatMap echo)) := by
    refine (Commutes.advance hf).bind fun _ => h.block.bind fun body => .pure ?_
    rw [Prod.map, relabelStmts_flatMap_echo]
    rfl
  rw [Parser.alternatives]
  refine .kind_bind hf fun k => ?_
  cases k
  case elseifKw =>
    refine (Commutes.advance hf).bind fun _ => (Commutes.eat hf).bind fun _ => h.arm hf fun e body =>
      h.alternatives.bind fun x => .pure ?_
    rw [Prod.map, relabelBranches, Branch.relabel, relabelStmts_flatMap_echo]
  case elseKw => exact helse
  all_goals exact .pure rfl

theorem block_succ : Commutes f (relabelStmts f) (Parser.block (n + 1)) (Parser.block (n + 1)) := by
  rw [Parser.block]
  exact (Commutes.eat hf).bind fun _ => h.stmts.bind fun _ => (Commutes.eat hf).bind fun _ =>
    .pure rfl

theorem stmts_succ : Commutes f (relabelStmts f) (Parser.stmts (n + 1)) (Parser.stmts (n + 1)) := by
  rw [Parser.stmts]
  refine .sees_bind hf fun _ => .ite (.pure rfl) ?_
  exact h.stmt.bind fun _ => h.stmts.bind fun _ => .pure rfl

end RelabelsStmts

theorem relabelsStmts (hf : Relabels f) (n : Nat) : RelabelsStmts f n := by
  induction n with
  | zero => exact ⟨.throw _ _, .throw _ _, .throw _ _, .throw _ _⟩
  | succ n ih => exact ⟨ih.stmt_succ hf, ih.alternatives_succ hf, ih.block_succ hf, ih.stmts_succ hf⟩

section Definitions

variable (hf : Relabels f)

include hf

theorem body_commutes (n : Nat) : Commutes f (relabelStmts f) (body n) (body n) := by
  induction n with
  | zero => exact .throw _ _
  | succ n ih =>
    rw [body]
    refine .kind_bind hf fun k => .ite (.pure rfl) ?_
    exact (relabelsStmts hf n).stmt.bind fun _ => ih.bind fun _ => .pure rfl

theorem parameter_commutes : Commutes f (VarDef.relabel f) parameter parameter :=
  (dataType_commutes hf).bind fun _ => (Commutes.take hf).bind fun _ => .pure rfl

theorem fields_commutes (n : Nat) :
    Commutes f (List.map (VarDef.relabel f)) (fields n) (fields n) := by
  induction n with
  | zero => exact .throw _ _
  | succ n ih =>
    rw [fields]
    refine .sees_bind hf fun _ => .ite (.pure rfl) ?_
    exact (dataType_commutes hf).bind fun _ => (Commutes.take hf).bind fun _ =>
      (Commutes.eat hf).bind fun _ => ih.bind fun _ => .pure rfl

theorem structDef_commutes (n : Nat) :
    Commutes f (StructDef.relabel f) (structDef n) (structDef n) :=
  (Commutes.eat hf).bind fun _ => (Commutes.take hf).bind fun _ => (Commutes.eat hf).bind fun _ =>
    (fields_commutes hf n).bind fun _ => (Commutes.eat hf).bind fun _ => .pure rfl

theorem moreParameters_commutes (n : Nat) :
    Commutes f (List.map (VarDef.relabel f)) (moreParameters n) (moreParameters n) := by
  induction n with
  | zero => exact .throw _ _
  | succ n ih =>
    rw [moreParameters]
    refine .sees_bind hf fun _ => .ite ?_ (.pure rfl)
    exact (Commutes.advance hf).bind fun _ => (parameter_commutes hf).bind fun _ =>
      ih.bind fun _ => .pure rfl

theorem parameters_commutes (n : Nat) :
    Commutes f (List.map (VarDef.relabel f)) (parameters n) (parameters n) :=
  .sees_bind hf fun _ => .ite (.pure rfl) ((parameter_commutes hf).bind fun _ =>
    (moreParameters_commutes hf n).bind fun _ => .pure rfl)

theorem returnType_commutes : Commutes f (DataType.relabel f) returnType returnType := by
  have htype := dataType_commutes hf
  have hvoid : Commutes f (DataType.relabel f) (do let t ← dataType; advance; return t)
      (do let t ← dataType; advance; return t) :=
    htype.bind fun _ => (Commutes.advance hf).bind fun _ => .pure rfl
  refine .kind_bind hf fun k => ?_
  cases k <;> first
    | exact .reject
    | exact htype
    | exact hvoid

theorem funDef_commutes (n : Nat) : Commutes f (FunDef.relabel f) (funDef n) (funDef n) := by
  refine (returnType_commutes hf).bind fun _ => (Commutes.take hf).bind fun _ => ?_
  refine (Commutes.eat hf).bind fun _ => (parameters_commutes hf n).bind fun _ => ?_
  refine (Commutes.expect hf).bind fun _ => (Commutes.eat hf).bind fun _ => ?_
  exact (body_commutes hf n).bind fun _ => (Commutes.expect hf).bind fun _ => .pure rfl

theorem definitions_commutes (n : Nat) :
    Commutes f (Program.relabel f) (definitions n) (definitions n) := by
  induction n with
  | zero => exact .throw _ _
  | succ n ih =>
    have hfunction : Commutes f (Program.relabel f)
        (do let d ← funDef n; let p ← definitions n; return { p with functions := d :: p.functions })
        (do let d ← funDef n; let p ← definitions n; return { p with functions := d :: p.functions }) :=
      (funDef_commutes hf n).bind fun _ => ih.bind fun _ => .pure rfl
    have hstruct : Commutes f (Program.relabel f)
        (do let d ← structDef n; let p ← definitions n; return { p with structs := d :: p.structs })
        (do let d ← structDef n; let p ← definitions n; return { p with structs := d :: p.structs }) :=
      (structDef_commutes hf n).bind fun _ => ih.bind fun _ => .pure rfl
    rw [definitions]
    refine .kind_bind hf fun k => ?_
    cases k <;> first
      | exact .pure rfl
      | exact hstruct
      | exact hfunction

/-- A relabeled feed is parsed to the relabeled tree. -/
theorem program_commutes : Commutes f (Program.relabel f) program program := by
  have hget : Commutes f (Feed.relabel f) get get := by
    constructor
    · intro s s' t h
      cases h
      rfl
    · intro s s' e h
      cases h
  refine hget.bind fun s => ?_
  rw [depth, depth, Feed.relabel, List.length_map]
  exact (Commutes.advance hf).bind fun _ => (definitions_commutes hf _).bind fun _ =>
    (Commutes.eat hf).bind fun _ => .pure rfl

/-- The tree holds no tokens but those of the feed: what keeps these keeps the tree. -/
theorem relabel_eq_of_program {s s' : Feed} {p : Program} (hs : s.relabel f = s)
    (h : program s = .ok p s') : p.relabel f = p := by
  have hrelabeled := (program_commutes hf).ok s s' p h
  rw [hs, h] at hrelabeled
  injection hrelabeled with hp
  exact hp.symm

/-- Feeds that differ in what is relabeled only are parsed to trees that differ in this only. -/
theorem program_of_relabel_eq {s s' t : Feed} {p : Program} (hst : s.relabel f = t.relabel f)
    (h : program s = .ok p s') :
    ∃ p' t', program t = .ok p' t' ∧ p'.relabel f = p.relabel f := by
  have hs := (program_commutes hf).ok s s' p h
  cases ht : program t with
  | error e t' =>
    obtain ⟨e', t'', herror⟩ := (program_commutes hf).error t t' e ht
    rw [← hst, hs] at herror
    cases herror
  | ok p' t' =>
    have ht' := (program_commutes hf).ok t t' p' ht
    rw [← hst, hs] at ht'
    injection ht' with hp
    exact ⟨p', t', rfl, hp.symm⟩

end Definitions
end Parser
end StackLang
