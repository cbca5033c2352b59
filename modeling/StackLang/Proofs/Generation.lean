import StackLang.Generator
import StackLang.Proofs.Rendering

namespace StackLang

/-- Operations that do not push what is absent. -/
def Op.supplied : Op → Bool
  | push v => v != .absent
  | _ => true

namespace Generator

theorem literal_cases (t : Token) :
    (∃ v, v ≠ .absent ∧ literal t = emit (.push v)) ∨ literal t = pure () ∨
      ∃ e, literal t = throw e := by
  obtain ⟨kind, lexeme, line, column⟩ := t
  have hpush {v : Value} (hv : v ≠ .absent) {x : Gen Unit} (hx : x = emit (.push v)) :
      (∃ v, v ≠ .absent ∧ x = emit (.push v)) ∨ x = pure () ∨ ∃ e, x = throw e :=
    .inl ⟨v, hv, hx⟩
  cases kind with
  | intVal =>
    simp only [literal, literalValue]
    cases Numeral.int? lexeme with
    | none => exact .inr (.inr ⟨_, rfl⟩)
    | some i => exact hpush (v := .int i) (by simp) rfl
  | doubleVal =>
    simp only [literal, literalValue]
    cases Numeral.double? lexeme with
    | none => exact .inr (.inr ⟨_, rfl⟩)
    | some d => exact hpush (v := .double d) (by simp) rfl
  | stringVal => exact hpush (v := .text (literalText lexeme)) (by simp) rfl
  | _ =>
    simp only [literal, literalValue]
    split
    · exact hpush (v := .bool true) (by simp) rfl
    · exact hpush (v := .bool false) (by simp) rfl
    · exact hpush (v := .null) (by simp [Value.null]) rfl
    · exact .inr (.inl rfl)

theorem conversion?_supplied {name : String} {op : Op} (h : conversion? name = some op) :
    op.supplied := by
  unfold conversion? at h
  split at h <;> cases h <;> rfl

theorem operator?_supplied {sign : String} {op : Op} (h : operator? sign = some op) :
    op.supplied := by
  unfold operator? at h
  split at h <;> cases h <;> rfl

/-- A property of the single steps of generation that steps in a row have if each of them has it.
Jumps are completed from place `n` on, and literals are among the given ones. -/
structure Compositional (P : {α : Type} → Gen α → Prop) (n : Nat) (ok : Token → Prop) : Prop where
  pure {α : Type} (a : α) : P (pure a)
  throw {α : Type} {e : Failure} : e ≠ .crash .badNumeral → P (throw e : Gen α)
  bind {α β : Type} {x : Gen α} {f : α → Gen β} : P x → (∀ a, P (f a)) → P (x >>= f)
  get : P (get : Gen Generator)
  onOffsets (f : Offsets → Offsets) : P (onOffsets f)
  emit {op : Op} : op.supplied → P (emit op)
  emitConversion {op : Op} : op.supplied → P (emitConversion op)
  /-- What is appended next goes to no place before `n`. -/
  here {f : Nat → Gen Unit} : (∀ k, n ≤ k → P (f k)) → P (here >>= f)
  patch {k : Nat} {op : Op} : n ≤ k → op.supplied → P (patch k op)
  literal {t : Token} : ok t → P (literal t)

/-- What a main function with statements ends with. -/
def mainEnd : Gen Unit := do
  match (← template).code.back? with
  | none => throw (.crash .outOfRange)
  | some i => unless i = .plain .ret do emitReturn

theorem mainBody_eq {body : List Stmt} (h : body ≠ []) :
    mainBody body = (do stmts body; mainEnd) := by
  rw [mainBody, if_neg (by simpa using h)]
  rfl

namespace Compositional

variable {α : Type} {P : {α : Type} → Gen α → Prop} {n : Nat} {ok : Token → Prop}

theorem either {c : Prop} [Decidable c] {x y : Gen α} (hx : P x) (hy : P y) :
    P (if c then x else y) := by
  split
  · exact hx
  · exact hy

theorem fault (hP : Compositional P n ok) {k : Crash} (hk : k ≠ .badNumeral) :
    P (MonadExcept.throw (.crash k) : Gen α) :=
  hP.throw fun h => hk (by injection h)

theorem template (hP : Compositional P n ok) : P template :=
  hP.bind hP.get fun g => by
    cases g.current with
    | some t => exact hP.pure t
    | none => exact hP.fault (by decide)

theorem offset (hP : Compositional P n ok) (name : String) : P (offset name) :=
  hP.bind hP.get fun g => by
    split
    · exact hP.pure _
    · exact hP.pure _

theorem need (hP : Compositional P n ok) (o : Option α) : P (need o) := by
  cases o with
  | some a => exact hP.pure a
  | none => exact hP.fault (by decide)

theorem field (hP : Compositional P n ok) (struct : String) (i : Nat) : P (field struct i) :=
  hP.bind hP.get fun g => by
    split
    · exact hP.fault (by decide)
    · split
      · exact hP.fault (by decide)
      · exact hP.bind (hP.need _) fun _ => hP.pure _

theorem forM (hP : Compositional P n ok) {f : α → Gen Unit} {l : List α}
    (h : ∀ a ∈ l, P (f a)) : P (l.forM f) := by
  induction l with
  | nil => exact hP.pure ()
  | cons a l ih =>
    exact hP.bind (h a List.mem_cons_self) fun _ => ih fun b hb => h b (List.mem_cons_of_mem a hb)

theorem inScope (hP : Compositional P n ok) {x : Gen Unit} (h : P x) : P (inScope x) :=
  hP.bind (hP.onOffsets _) fun _ => hP.bind h fun _ => hP.onOffsets _

theorem operator (hP : Compositional P n ok) (op : Option Token) :
    P (match op.bind fun t => operator? t.lexeme with
      | some o => Generator.emit o
      | none => Pure.pure ()) := by
  cases ho : op.bind fun t => operator? t.lexeme with
  | none => exact hP.pure ()
  | some o =>
    obtain ⟨t, -, ht⟩ := Option.bind_eq_some_iff.1 ho
    exact hP.emit (operator?_supplied ht)

theorem call (hP : Compositional P n ok) {name : String} {convert : Op → Gen Unit}
    {select user : Gen Unit} (hconvert : ∀ op, op.supplied → P (convert op)) (hselect : P select)
    (huser : P user) :
    P (match conversion? name with
      | some op => convert op
      | none =>
        if name = "get" then select
        else if name = "input" then Generator.emit .read
        else do
          user
          Generator.emit (.call (.text name))) := by
  cases hop : conversion? name with
  | some op => exact hconvert op (conversion?_supplied hop)
  | none => exact either hselect (either (hP.emit rfl) (hP.bind huser fun _ => hP.emit rfl))

mutual

theorem expr (hP : Compositional P n ok) : (e : Expr) → (∀ t ∈ e.tokens, ok t) → P (expr e)
  | .mk negated first op none, h => by
    simp only [Expr.tokens, List.forall_mem_append] at h
    simp only [Generator.expr]
    have hfirst := hP.term first h.1
    have hop := hP.operator op
    exact either (hP.bind (hP.fault (by decide)) fun _ => hP.bind hfirst fun _ => hop)
      (hP.bind hfirst fun _ => either (hP.bind (hP.emit rfl) fun _ => hop) hop)
  | .mk negated first op (some e), h => by
    simp only [Expr.tokens, tokensIfAny, List.forall_mem_append] at h
    simp only [Generator.expr]
    have hfirst := hP.term first h.1
    have hop := hP.operator op
    have he := hP.expr e h.2.2
    have hrest := hP.bind he fun _ => hop
    exact either (hP.bind he fun _ => hP.bind hfirst fun _ => hop)
      (hP.bind hfirst fun _ => either (hP.bind (hP.emit rfl) fun _ => hrest) hrest)

theorem term (hP : Compositional P n ok) : (t : Term) → (∀ u ∈ t.tokens, ok u) → P (term t)
  | .literal t, h => hP.literal (h t List.mem_cons_self)
  | .create type (some e) args, h => by
    simp only [Term.tokens, tokensIfAny, List.forall_mem_append] at h
    simp only [Generator.term]
    exact hP.bind (hP.expr e h.2.1) fun _ => hP.emit rfl
  | .create type none (some l), h => by
    simp only [Term.tokens, listTokens, List.forall_mem_append] at h
    simp only [Generator.term]
    exact hP.bind (hP.emit rfl) fun _ => hP.initializers type.lexeme 0 l h.2.2
  | .create type none none, _ => by
    simp only [Generator.term]
    exact hP.bind (hP.emit rfl) fun _ => hP.fault (by decide)
  | .path refs, h => hP.path refs h
  | .call name none, _ => by
    simp only [Generator.term]
    exact hP.call (fun _ _ => hP.fault (by decide)) (hP.fault (by decide)) (hP.fault (by decide))
  | .call name (some []), _ => by
    simp only [Generator.term]
    exact hP.call (fun _ _ => hP.fault (by decide)) (hP.fault (by decide)) (hP.pure ())
  | .call name (some [e]), h => by
    simp only [Term.tokens, listTokens, List.forall_mem_cons] at h
    have hl := hP.arguments [e] h.2
    simp only [exprTokens, List.forall_mem_append] at h
    have he := hP.expr e h.2.1
    simp only [Generator.term]
    exact hP.call (fun _ hop => hP.bind he fun _ => hP.emitConversion hop)
      (hP.bind he fun _ => hP.fault (by decide)) hl
  | .call name (some (e :: e' :: l)), h => by
    simp only [Term.tokens, listTokens, List.forall_mem_cons] at h
    have hl := hP.arguments (e :: e' :: l) h.2
    simp only [exprTokens, List.forall_mem_append] at h
    have he := hP.expr e h.2.1
    have he' := hP.expr e' h.2.2.1
    simp only [Generator.term]
    exact hP.call (fun _ hop => hP.bind he fun _ => hP.emitConversion hop)
      (hP.bind he fun _ => hP.bind he' fun _ => hP.emit rfl) hl
  | .group e, h => hP.expr e h

theorem arguments (hP : Compositional P n ok) :
    (l : List Expr) → (∀ t ∈ exprTokens l, ok t) → P (arguments l)
  | [], _ => hP.pure ()
  | e :: l, h => by
    simp only [exprTokens, List.forall_mem_append] at h
    exact hP.bind (hP.expr e h.1) fun _ => hP.arguments l h.2

theorem initializers (hP : Compositional P n ok) (struct : String) (i : Nat) :
    (l : List Expr) → (∀ t ∈ exprTokens l, ok t) → P (initializers struct i l)
  | [], _ => hP.pure ()
  | e :: l, h => by
    simp only [exprTokens, List.forall_mem_append] at h
    exact hP.bind (hP.field struct i) fun _ => hP.bind (hP.emit rfl) fun _ =>
      hP.bind (hP.expr e h.1) fun _ => hP.bind (hP.emit rfl) fun _ =>
      hP.initializers struct (i + 1) l h.2

theorem path (hP : Compositional P n ok) :
    (refs : List Ref) → (∀ t ∈ refTokens refs, ok t) → P (path refs)
  | [], _ => hP.pure ()
  | .mk name none :: refs, h => by
    simp only [refTokens, List.forall_mem_cons, List.forall_mem_append] at h
    simp only [Generator.path]
    exact hP.bind (hP.offset _) fun _ => hP.bind (hP.emit rfl) fun _ => hP.selectors refs h.2.2
  | .mk name (some e) :: refs, h => by
    simp only [refTokens, tokensIfAny, List.forall_mem_cons, List.forall_mem_append] at h
    simp only [Generator.path]
    exact hP.bind (hP.offset _) fun _ => hP.bind (hP.emit rfl) fun _ =>
      hP.bind (hP.expr e h.2.1) fun _ => hP.bind (hP.emit rfl) fun _ => hP.selectors refs h.2.2

theorem selectors (hP : Compositional P n ok) :
    (refs : List Ref) → (∀ t ∈ refTokens refs, ok t) → P (selectors refs)
  | [], _ => hP.pure ()
  | .mk name none :: refs, h => by
    simp only [refTokens, List.forall_mem_cons, List.forall_mem_append] at h
    simp only [Generator.selectors]
    exact hP.bind (hP.emit rfl) fun _ => hP.selectors refs h.2.2
  | .mk name (some e) :: refs, h => by
    simp only [refTokens, tokensIfAny, List.forall_mem_cons, List.forall_mem_append] at h
    simp only [Generator.selectors]
    have hitem : P (do
        Generator.expr e
        Generator.emit .getItem
        Generator.selectors refs) :=
      hP.bind (hP.expr e h.2.1) fun _ => hP.bind (hP.emit rfl) fun _ => hP.selectors refs h.2.2
    exact hP.bind (hP.offset _) fun _ => hP.bind hP.get fun _ =>
      either (hP.bind (hP.emit rfl) fun _ => hitem) (hP.bind (hP.emit rfl) fun _ => hitem)

end

theorem varDecl (hP : Compositional P n ok) (d : VarDecl) (h : ∀ t ∈ d.tokens, ok t) :
    P (varDecl d) := by
  obtain ⟨var, init⟩ := d
  simp only [VarDecl.tokens, List.forall_mem_append] at h
  have hstore (name : String) : P (do Generator.emit (.store (← Generator.offset name))) :=
    hP.bind (hP.offset name) fun _ => hP.emit rfl
  refine hP.bind (hP.need _) fun name => hP.bind (hP.onOffsets _) fun _ => ?_
  cases init with
  | some e => exact hP.bind (hP.expr e h.2) fun _ => hstore _
  | none => exact hP.bind (hP.emit rfl) fun _ => hstore _

theorem assign (hP : Compositional P n ok) (a : Assign) (h : ∀ t ∈ a.tokens, ok t) :
    P (assign a) := by
  obtain ⟨target, value⟩ := a
  simp only [Assign.tokens, List.forall_mem_append] at h
  obtain ⟨htarget, hvalue⟩ := h
  have hvalue := hP.expr value hvalue
  have hinner {step : String → Gen Unit} (h : ∀ name, P (step name)) (refs : List Ref) :
      P (inner step refs) := hP.forM fun _ _ => h _
  simp only [Generator.assign]
  split
  · exact hP.pure ()
  · exact hP.bind (hP.offset _) fun _ => hP.bind hvalue fun _ => hP.emit rfl
  · simp only [refTokens, tokensIfAny, List.forall_mem_cons, List.forall_mem_append] at htarget
    exact hP.bind (hP.offset _) fun _ => hP.bind (hP.emit rfl) fun _ =>
      hP.bind (hP.expr _ htarget.2.1) fun _ => hP.bind hvalue fun _ => hP.emit rfl
  · rename_i name i refs _ _
    have hload (name : String) : P (do
        Generator.emit (.load (← Generator.offset name))
        Generator.emit (.getField (.text name))) :=
      hP.bind (hP.offset name) fun _ => hP.bind (hP.emit rfl) fun _ => hP.emit rfl
    refine hP.bind (hP.offset _) fun _ => hP.bind (hP.emit rfl) fun _ => ?_
    cases i with
    | none =>
      refine hP.bind (hinner (fun _ => hP.emit rfl) _) fun _ => hP.bind hvalue fun _ => ?_
      cases refs.getLast? with
      | some last => exact hP.emit rfl
      | none => exact hP.pure ()
    | some e =>
      simp only [refTokens, tokensIfAny, List.forall_mem_cons, List.forall_mem_append] at htarget
      refine hP.bind (hP.expr e htarget.2.1) fun _ => hP.bind (hP.emit rfl) fun _ =>
        hP.bind (hinner hload _) fun _ => hP.bind hvalue fun _ => ?_
      cases refs.getLast? with
      | some last => exact hP.emit rfl
      | none => exact hP.pure ()

mutual

theorem stmt (hP : Compositional P n ok) : (s : Stmt) → (∀ t ∈ s.tokens, ok t) → P (stmt s)
  | .ret e, h => by
    simp only [Generator.stmt]
    exact hP.bind (hP.expr e h) fun _ => hP.emit rfl
  | .decl d, h => hP.varDecl d h
  | .assign a, h => hP.assign a h
  | .loop condition body, h => by
    simp only [Stmt.tokens, List.forall_mem_append] at h
    simp only [Generator.stmt]
    exact hP.here fun _ _ => hP.bind (hP.expr condition h.1) fun _ => hP.here fun _ hexit =>
      hP.bind (hP.emit rfl) fun _ => hP.bind (hP.inScope (hP.stmts body h.2)) fun _ =>
      hP.bind (hP.emit rfl) fun _ => hP.bind (hP.emit rfl) fun _ => hP.here fun _ _ =>
      hP.patch hexit rfl
  | .count init condition step body, h => by
    simp only [Stmt.tokens, List.forall_mem_append] at h
    obtain ⟨hinit, hcondition, hstep, hbody⟩ := h
    simp only [Generator.stmt]
    exact hP.bind (hP.onOffsets _) fun _ => hP.bind (hP.varDecl init hinit) fun _ =>
      hP.here fun _ _ => hP.bind (hP.expr condition hcondition) fun _ => hP.here fun _ hexit =>
      hP.bind (hP.emit rfl) fun _ => hP.bind (hP.inScope (hP.stmts body hbody)) fun _ =>
      hP.bind (hP.assign step hstep) fun _ => hP.bind (hP.emit rfl) fun _ =>
      hP.bind (hP.emit rfl) fun _ => hP.here fun _ _ => hP.bind (hP.patch hexit rfl) fun _ =>
      hP.onOffsets _
  | .choice (.mk condition body) others otherwise, h => by
    simp only [Stmt.tokens, List.forall_mem_append] at h
    obtain ⟨hcondition, hbody, hothers, hotherwise⟩ := h
    have hothers := hP.branches others hothers
    have hotherwise := hP.inScope (hP.stmts otherwise hotherwise)
    simp only [Generator.stmt]
    refine hP.bind (hP.expr condition hcondition) fun _ => hP.here fun _ hskip =>
      hP.bind (hP.emit rfl) fun _ => hP.bind (hP.inScope (hP.stmts body hbody)) fun _ =>
      hP.here fun _ hfinish => hP.bind (hP.emit rfl) fun _ => ?_
    cases others with
    | nil =>
      cases otherwise with
      | nil =>
        exact hP.bind (hP.emit rfl) fun _ => hP.here fun _ _ =>
          hP.bind (hP.patch hskip rfl) fun _ => hP.patch hfinish rfl
      | cons s l =>
        exact hP.here fun _ _ => hP.bind (hP.patch hskip rfl) fun _ =>
          hP.bind (hP.patch hfinish rfl) fun _ => hP.fault (by decide)
    | cons b bs =>
      refine hP.here fun _ _ => hP.bind (hP.patch hskip rfl) fun _ => hP.bind hothers fun _ => ?_
      cases otherwise with
      | nil => exact hP.pure ()
      | cons s l =>
        exact hP.bind hotherwise fun _ => hP.here fun _ _ => hP.patch hfinish rfl
  | .call name args, h => by
    simp only [Generator.stmt]
    exact hP.term (.call name args) h
  | .expr e, h => hP.expr e h

theorem stmts (hP : Compositional P n ok) :
    (l : List Stmt) → (∀ t ∈ stmtTokens l, ok t) → P (stmts l)
  | [], _ => hP.pure ()
  | s :: l, h => by
    simp only [stmtTokens, List.forall_mem_append] at h
    exact hP.bind (hP.stmt s h.1) fun _ => hP.stmts l h.2

theorem branches (hP : Compositional P n ok) :
    (l : List Branch) → (∀ t ∈ branchTokens l, ok t) → P (branches l)
  | [], _ => hP.pure ()
  | .mk condition body :: l, h => by
    simp only [branchTokens, List.forall_mem_append] at h
    exact hP.bind (hP.expr condition h.1) fun _ => hP.here fun _ hskip =>
      hP.bind (hP.emit rfl) fun _ => hP.bind (hP.inScope (hP.stmts body h.2.1)) fun _ =>
      hP.bind (hP.emit rfl) fun _ => hP.here fun _ _ => hP.bind (hP.patch hskip rfl) fun _ =>
      hP.branches l h.2.2

end

theorem emitReturn (hP : Compositional P n ok) : P emitReturn :=
  hP.bind (hP.emit rfl) fun _ => hP.emit rfl

theorem mainEnd (hP : Compositional P n ok) : P mainEnd := by
  refine hP.bind hP.template fun t => ?_
  cases t.code.back? with
  | none => exact hP.fault (by decide)
  | some i => exact either (hP.pure ()) hP.emitReturn

theorem mainBody (hP : Compositional P n ok) (body : List Stmt) (h : ∀ t ∈ stmtTokens body, ok t) :
    P (mainBody body) := by
  by_cases hbody : body = []
  · rw [hbody]
    exact hP.emitReturn
  · rw [mainBody_eq hbody]
    exact hP.bind (hP.stmts body h) fun _ => hP.mainEnd

theorem parameter (hP : Compositional P n ok) (d : VarDef) : P (parameter d) :=
  hP.bind (hP.need _) fun _ => hP.bind (hP.onOffsets _) fun _ => hP.bind (hP.offset _) fun _ =>
    hP.emit rfl

theorem funDef (hP : Compositional P n ok) (d : FunDef) (h : ∀ t ∈ d.tokens, ok t)
    (hstart : ∀ name arity, P (modify fun g => { g with current := some ⟨name, arity, #[]⟩ }))
    (hinstall : P (do
      let t ← Generator.template
      modify fun g => { g with image := g.image.install t })) : P (funDef d) := by
  simp only [FunDef.tokens, List.forall_mem_append, List.forall_mem_cons] at h
  have hend := hP.bind (hP.onOffsets Offsets.enter) fun _ => hinstall
  refine hP.bind (hstart _ _) fun _ => hP.bind (hP.onOffsets _) fun _ => either ?_ ?_
  · exact hP.bind (hP.mainBody d.body h.2.2.2) fun _ => hend
  · exact hP.bind (hP.forM fun p _ => hP.parameter p) fun _ =>
      either (hP.bind hP.emitReturn fun _ => hend) (hP.bind (hP.stmts d.body h.2.2.2) fun _ => hend)

theorem program (hP : Compositional P n ok) (p : Program) (h : ∀ t ∈ p.tokens, ok t)
    (hstruct : ∀ d, P (structDef d))
    (hstart : ∀ name arity, P (modify fun g => { g with current := some ⟨name, arity, #[]⟩ }))
    (hinstall : P (do
      let t ← Generator.template
      modify fun g => { g with image := g.image.install t })) : P (program p) := by
  simp only [Program.tokens, List.forall_mem_append, List.forall_mem_flatMap] at h
  exact hP.bind (hP.forM fun d _ => hstruct d) fun _ => hP.forM fun d hd =>
    hP.funDef d (h.2 d hd) hstart hinstall

end Compositional

/-- What generation does to code, with jumps completed from place `n` on. -/
inductive Alters (n : Nat) (code : Array Instr) : Array Instr → Prop
  | push {op : Op} : op.supplied → Alters n code (code.push (.plain op))
  | patch {k : Nat} {op : Op} : n ≤ k → op.supplied →
      Alters n code (code.setIfInBounds k (.plain op))
  | shorten : code.back? = some (.plain (.push (.text " "))) →
      Alters n code (code.pop.push (.plain (.push (.text ""))))

/-- A property that holds behind whatever is generated from place `n` on. -/
structure Upheld (I : Generator → Prop) (n : Nat) : Prop where
  place {g : Generator} {t : Template} : I g → g.current = some t → n ≤ t.code.size
  offsets {g : Generator} (o : Offsets) : I g → I { g with offsets := o }
  alter {g : Generator} {t : Template} {code : Array Instr} : I g → g.current = some t →
    Alters n t.code code → I { g with current := some { t with code } }

/-- Generation behind which a property holds if it did before, unless it fails. -/
def Retains {α : Type} (I : Generator → Prop) (x : Gen α) : Prop :=
  ∀ g a g', I g → x g = .ok a g' → I g'

namespace Retains

variable {α β : Type} {I : Generator → Prop}

protected theorem pure (a : α) : Retains I (pure a) := by
  intro g b g' hg h
  cases h
  exact hg

protected theorem throw (e : Failure) : Retains I (throw e : Gen α) := by
  intro g a g' hg h
  cases h

theorem bind {x : Gen α} {f : α → Gen β} (hx : Retains I x) (hf : ∀ a, Retains I (f a)) :
    Retains I (x >>= f) := by
  intro g b g' hg h
  simp only [Bind.bind, EStateM.bind] at h
  cases hx' : x g with
  | ok a g₁ =>
    rw [hx'] at h
    exact hf a g₁ b g' (hx g a g₁ hg hx') h
  | error e g₁ =>
    rw [hx'] at h
    cases h

protected theorem get : Retains I (get : Gen Generator) := by
  intro g a g' hg h
  cases h
  exact hg

theorem template : Retains I Generator.template :=
  .bind .get fun g => by
    cases g.current with
    | some t => exact .pure t
    | none => exact .throw _

end Retains

namespace Upheld

variable {α : Type} {I : Generator → Prop} {n : Nat} (hI : Upheld I n)

include hI

theorem onOffsets (f : Offsets → Offsets) : Retains I (Generator.onOffsets f) := by
  intro g a g' hg h
  cases h
  exact hI.offsets _ hg

theorem onCode {f : Array Instr → Array Instr}
    (hf : ∀ code, Alters n code (f code) ∨ f code = code) : Retains I (Generator.onCode f) := by
  rintro ⟨image, _ | t, offsets, structs⟩ a g' hg h
  · cases h
    exact hg
  · cases h
    obtain hf | hf := hf t.code
    · exact hI.alter hg rfl hf
    · simpa only [Option.map_some, hf] using hg

theorem emit {op : Op} (hop : op.supplied) : Retains I (Generator.emit op) :=
  .bind .template fun _ => hI.onCode fun _ => .inl (.push hop)

theorem patch {k : Nat} (hk : n ≤ k) {op : Op} (hop : op.supplied) :
    Retains I (Generator.patch k op) := hI.onCode fun _ => .inl (.patch hk hop)

theorem emitConversion {op : Op} (hop : op.supplied) : Retains I (Generator.emitConversion op) := by
  have hempty : Retains I (Generator.onCode fun code =>
      if code.back? = some (.plain (.push (.text " "))) then
        code.pop.push (.plain (.push (.text "")))
      else code) := by
    refine hI.onCode fun code => ?_
    by_cases hback : code.back? = some (.plain (.push (.text " ")))
    · rw [if_pos hback]
      exact .inl (.shorten hback)
    · exact .inr (if_neg hback)
  unfold Generator.emitConversion
  split
  · exact hempty.bind fun _ => hI.emit hop
  · exact hI.emit hop

theorem here {f : Nat → Gen α} (hf : ∀ k, n ≤ k → Retains I (f k)) :
    Retains I (Generator.here >>= f) := by
  rintro ⟨image, _ | t, offsets, structs⟩ a g' hg h
  · cases h
  · exact hf t.code.size (hI.place hg rfl) _ a g' hg h

theorem literal (t : Token) : Retains I (literal t) := by
  obtain ⟨v, hv, h⟩ | h | ⟨e, h⟩ := literal_cases t
  · rw [h]
    exact hI.emit (by simpa [Op.supplied] using hv)
  · rw [h]
    exact .pure ()
  · rw [h]
    exact .throw e

theorem compositional : Compositional (Retains I) n fun _ => True where
  pure := .pure
  throw _ := .throw _
  bind := .bind
  get := .get
  onOffsets := hI.onOffsets
  emit := hI.emit
  emitConversion := hI.emitConversion
  here := hI.here
  patch hk := hI.patch hk
  literal _ := hI.literal _

theorem stmts (l : List Stmt) : Retains I (stmts l) := hI.compositional.stmts l fun _ _ => trivial

end Upheld

/-- The code of the function begins with what was generated so far. -/
def Begins (c : Array Instr) (g : Generator) : Prop :=
  ∀ t, g.current = some t → ∃ rest, t.code = c ++ rest

theorem begins_upheld {c : Array Instr} (hc : c.back? ≠ some (.plain (.push (.text " ")))) :
    Upheld (Begins c) c.size where
  place {g t} hg ht := by
    obtain ⟨rest, hrest⟩ := hg t ht
    simp [hrest]
  offsets _ hg := hg
  alter {g t code} hg ht halters := by
    obtain ⟨rest, hrest⟩ := hg t ht
    intro t' ht'
    cases ht'
    dsimp only
    cases halters with
    | @push op hop => exact ⟨rest.push (.plain op), by rw [hrest, Array.append_push]⟩
    | @patch k op hk hop =>
      refine ⟨rest.setIfInBounds (k - c.size) (.plain op), ?_⟩
      rw [hrest, Array.setIfInBounds_append_right hk]
    | shorten hback =>
      have hne : rest ≠ #[] := by
        rintro rfl
        rw [hrest, Array.append_empty] at hback
        exact hc hback
      refine ⟨rest.pop.push (.plain (.push (.text ""))), ?_⟩
      rw [hrest, Array.append_push, Array.pop_append_of_ne_empty hne]

theorem stmts_append (a b : List Stmt) : stmts (a ++ b) = (do stmts a; stmts b) := by
  induction a with
  | nil =>
    simp only [stmts]
    rfl
  | cons s a ih => simp only [List.cons_append, stmts, ih, bind_assoc]

end Generator
end StackLang
