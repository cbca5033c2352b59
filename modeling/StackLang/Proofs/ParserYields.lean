import StackLang.Proofs.ParserPasses
import StackLang.Proofs.Yielding

namespace StackLang.Parser

open Parse Token Grammar

variable {a b : List Kind} {n : Nat}

/-- An expression and the tokens that it was read from. -/
inductive Formed : Expr → List Kind → List Kind → Prop
  | alone {t : Term} {a b : List Kind} : Derives .parsed .value a b → Heads t (front a) →
      Formed (.operand t) a b
  | applied {t : Term} {o : Token} {r : Expr} {op : Kind} {a b c : List Kind} :
      Derives .parsed .value a (op :: b) → Heads t (front a) → op.isOperator → Formed r b c →
      Formed (.mk (some false) t (some o) (some r)) a c
  | negated {e : Expr} {a b : List Kind} : Formed e a b → Formed e.negate (.notOp :: a) b

namespace Formed

theorem derives {e : Expr} (h : Formed e a b) : Derives .parsed .expr a b := by
  induction h with
  | alone h => exact .operand h
  | applied h _ hop _ ih => exact .operation h hop ih
  | negated _ ih => exact .negation ih

theorem heads {e : Expr} (h : Formed e a b) : Heads e.first (front (bare a)) := by
  induction h with
  | alone h ht => exact (bare_of_front (opens_of_value h).2).symm ▸ ht
  | applied h ht => exact (bare_of_front (opens_of_value h).2).symm ▸ ht
  | @negated e _ _ _ ih => cases e; exact ih

theorem value {e : Expr} (h : Formed e a b) (hop : e.op = none) :
    Derives .parsed .value (bare a) b := by
  induction h with
  | alone h => exact (bare_of_front (opens_of_value h).2).symm ▸ h
  | applied => cases hop
  | @negated e _ _ _ ih => cases e; exact ih hop

theorem operation {e : Expr} (h : Formed e a b) (hop : e.op ≠ none) :
    ∃ op c r, Derives .parsed .value (bare a) (op :: c) ∧ op.isOperator ∧ e.rest = some r ∧
      Formed r c b := by
  induction h with
  | alone => exact (hop rfl).elim
  | applied h _ ho hr =>
    exact ⟨_, _, _, (bare_of_front (opens_of_value h).2).symm ▸ h, ho, rfl, hr⟩
  | @negated e _ _ _ ih => cases e; exact ih hop

end Formed

/-- What an operation adds to its first operand. -/
def Completes (t : Term) (e : Expr) (a b : List Kind) : Prop :=
  (a = b ∧ e = .operand t) ∨ ∃ op c o r, a = op :: c ∧ op.isOperator ∧ Formed r c b ∧
    e = .mk (some false) t (some o) (some r)

theorem formed_of_completes {t : Term} {e : Expr} {c : List Kind} (h : Derives .parsed .value a b)
    (ht : Heads t (front a)) (he : Completes t e b c) : Formed e a c := by
  obtain ⟨rfl, rfl⟩ | ⟨op, d, o, r, rfl, hop, hr, rfl⟩ := he
  · exact .alone h ht
  · exact .applied h ht hop hr

/-- With `n` steps of descent the parser takes phrases of its dialect only. -/
structure Sound (n : Nat) : Prop where
  expr (a : List Kind) : Yields (expr n) a fun e b => Formed e a b
  operation (t : Term) (a : List Kind) : Yields (operation n t) a fun e b => Completes t e a b
  operand (a : List Kind) : opensOperand (front a) →
    Yields (operand n) a fun t b => Derives .parsed .value a b ∧ Heads t (front a)
  creation (a : List Kind) :
    Yields (creation n) a fun t b => Derives .parsed .value a b ∧ ∀ l, t ≠ .path l
  moreArguments (a : List Kind) : Yields (moreArguments n) a fun _ b => Derives .parsed .others a b
  index (a : List Kind) : Yields (index n) a fun _ b => Indexes .parsed a b
  selectors (a : List Kind) : Yields (selectors n) a fun _ b => Derives .parsed .selectors a b
  path (name : Token) (a : List Kind) : Yields (path n name) a fun l b =>
    Trail .parsed a b ∧ ∃ r l', l = r :: l'

namespace Sound

theorem expr_succ (h : Sound n) : Yields (Parser.expr (n + 1)) a fun e b => Formed e a b := by
  have hoperand (hk : opensOperand (front a)) :
      Yields (Parser.operand n >>= Parser.operation n) a fun e b => Formed e a b :=
    (h.operand a hk).bind fun t b hb => (h.operation t b).weaken fun _ c hc =>
      formed_of_completes hb.1 hb.2 hc
  have hnegation (hk : front a = .notOp) :
      Yields (do advance; return (← Parser.expr n).negate) a fun e b => Formed e a b := by
    obtain ⟨a, rfl⟩ := eq_cons_of_front hk (by decide)
    exact .advance_bind ((h.expr a).bind fun e b hb => .pure (.negated hb))
  have hgroup (hk : front a = .lparen) : Yields (do
      advance
      let inner ← Parser.expr n
      expect .rparen .groupEnd
      Parser.operation n (.group inner)) a fun e b => Formed e a b := by
    obtain ⟨a, rfl⟩ := eq_cons_of_front hk (by decide)
    refine .advance_bind ((h.expr a).bind fun e b hb => .expect_bind (by decide) fun c hc => ?_)
    subst hc
    refine (h.operation _ c).weaken fun _ d hd => formed_of_completes (.group hb.derives) ?_ hd
    exact heads_other (by rw [front_cons]; decide) fun _ => Term.noConfusion
  rw [Parser.expr]
  refine .kind ?_
  cases hk : front a <;> first
    | exact .reject
    | exact hnegation hk
    | exact hgroup hk
    | exact hoperand (by rw [hk]; rfl)

theorem operation_succ (h : Sound n) (t : Term) :
    Yields (Parser.operation (n + 1) t) a fun e b => Completes t e a b := by
  rw [Parser.operation]
  refine .look fun o ho => ?_
  split
  · rename_i hop
    rw [ho] at hop
    cases a with
    | nil => cases hop
    | cons op a =>
      refine .advance_bind ((h.expr a).bind fun r b hb => .pure ?_)
      exact Or.inr ⟨op, a, o, r, rfl, hop, hb, rfl⟩
  · exact .pure (Or.inl ⟨rfl, rfl⟩)

theorem operand_succ (h : Sound n) (ha : opensOperand (front a)) : Yields (Parser.operand (n + 1)) a
    fun t b => Derives .parsed .value a b ∧ Heads t (front a) := by
  have hnew : Yields (Parser.creation n) a
      fun t b => Derives .parsed .value a b ∧ Heads t .newKw :=
    (h.creation a).weaken fun _ b hb => ⟨hb.1, heads_other (by decide) hb.2⟩
  have hname : Yields (do return .path (← Parser.path n (← take .id))) a
      fun t b => Derives .parsed .value a b ∧ Heads t .id := by
    refine .take_bind (by decide) fun name b hb => (h.path name b).bind fun l c hc => ?_
    obtain ⟨⟨d, hi, hs⟩, r, l', rfl⟩ := hc
    subst hb
    exact .pure ⟨.path hi hs, heads_path rfl r l'⟩
  have hliteral (k : Kind) (hk : front a = k) (hl : k.isLiteral) : Yields (do
      let t ← look
      advance
      return .literal t) a fun t b => Derives .parsed .value a b ∧ Heads t k := by
    obtain ⟨a, rfl⟩ := eq_cons_of_front hk (by rintro rfl; cases hl)
    refine .look fun t _ => .advance_bind (.pure ⟨.literal hl, heads_other ?_ fun _ =>
      Term.noConfusion⟩)
    rintro rfl
    cases hl
  rw [Parser.operand]
  refine .kind ?_
  revert ha
  cases hk : front a <;> intro ha <;> first
    | exact hnew
    | exact hname
    | exact hliteral _ hk rfl
    | cases ha

theorem content_yields (h : Sound n) (type : Token) :
    Yields (content n type) a fun t b => Derives .parsed .content a b ∧ ∀ l, t ≠ .path l := by
  apply Yields.kind
  by_cases hparen : front a = .lparen
  · obtain ⟨a, rfl⟩ := eq_cons_of_front hparen (by decide)
    refine .advance_bind (.sees (fun hk => ?_) fun _ => ?_)
    · obtain ⟨b, hb⟩ := eq_cons_of_front hk (by decide)
      rw [List.tail_cons] at hb ⊢
      subst hb
      exact .advance_bind (.pure ⟨.record .noArguments, fun _ => Term.noConfusion⟩)
    · rw [List.tail_cons]
      refine (h.expr a).bind fun e b hb => (h.moreArguments b).bind fun l c hc => ?_
      refine .eat_bind (by decide) fun d hd => .pure ⟨?_, fun _ => Term.noConfusion⟩
      exact .record (.arguments hb.derives (hd ▸ hc))
  · by_cases hbracket : front a = .lbracket
    · rw [hbracket]
      refine (h.index a).bind fun i b hb => .pure ⟨?_, fun _ => Term.noConfusion⟩
      obtain ⟨-, hne⟩ | ⟨c, rfl, hc⟩ := hb
      · exact (hne hbracket).elim
      · exact .array hc
    · have hr : Yields (pure (Term.create type none (some []))) a
          fun t b => Derives .parsed .content a b ∧ ∀ l, t ≠ .path l :=
        .pure ⟨.noContent rfl hparen hbracket, fun _ => Term.noConfusion⟩
      cases hk : front a <;> first | exact hr | exact (hparen hk).elim | exact (hbracket hk).elim

theorem creation_succ (h : Sound n) : Yields (Parser.creation (n + 1)) a
    fun t b => Derives .parsed .value a b ∧ ∀ l, t ≠ .path l := by
  rw [Parser.creation]
  refine .eat_bind (by decide) fun b hb => .look fun type htype => ?_
  subst hb
  have hcontent (c : List Kind) (hc : Naming .parsed b c) : Yields (content n type) c
      fun t d => Derives .parsed .value (.newKw :: b) d ∧ ∀ l, t ≠ .path l :=
    (h.content_yields type).weaken fun _ d hd => ⟨.creation hc hd.1, hd.2⟩
  rw [htype]
  by_cases hk : (front b).namesType
  · rw [if_pos (namesType_iff.mp hk)]
    cases b with
    | nil => cases hk
    | cons k b => exact .advance_bind (hcontent b (.type hk))
  · rw [if_neg (fun hj => hk (namesType_iff.mpr hj))]
    exact hcontent b (.none rfl (Bool.eq_false_iff.mpr hk))

theorem moreArguments_succ (h : Sound n) :
    Yields (Parser.moreArguments (n + 1)) a fun _ b => Derives .parsed .others a b := by
  rw [Parser.moreArguments]
  refine .sees (fun hk => ?_) fun _ => .pure .noOthers
  obtain ⟨b, rfl⟩ := eq_cons_of_front hk (by decide)
  refine .advance_bind ((h.expr b).bind fun _ c hc => (h.moreArguments c).bind fun _ d hd => ?_)
  exact .pure (.others hc.derives hd)

theorem index_succ (h : Sound n) : Yields (Parser.index (n + 1)) a fun _ b => Indexes .parsed a b := by
  rw [Parser.index]
  refine .sees (fun hk => ?_) fun hk => .pure (Or.inl ⟨rfl, hk⟩)
  obtain ⟨b, rfl⟩ := eq_cons_of_front hk (by decide)
  refine .advance_bind ((h.expr b).bind fun _ c hc => .eat_bind (by decide) fun d hd => ?_)
  exact .pure (Or.inr ⟨b, rfl, hd ▸ hc.derives⟩)

theorem selectors_succ (h : Sound n) :
    Yields (Parser.selectors (n + 1)) a fun _ b => Derives .parsed .selectors a b := by
  rw [Parser.selectors]
  refine .sees (fun hk => ?_) fun _ => .pure .noSelectors
  obtain ⟨b, rfl⟩ := eq_cons_of_front hk (by decide)
  refine .advance_bind (.take_bind (by decide) fun _ c hc => (h.index c).bind fun _ d hd => ?_)
  rw [List.tail_cons] at hc
  subst hc
  exact (h.selectors d).bind fun _ e he => .pure (.selectors hd.derives he)

theorem path_succ (h : Sound n) (name : Token) : Yields (Parser.path (n + 1) name) a fun l b =>
    Trail .parsed a b ∧ ∃ r l', l = r :: l' := by
  rw [Parser.path]
  refine (h.index a).bind fun _ b hb => (h.selectors b).bind fun _ c hc => ?_
  exact .pure ⟨⟨b, hb.derives, hc⟩, _, _, rfl⟩

end Sound

theorem sound (n : Nat) : Sound n := by
  induction n with
  | zero =>
    constructor
    case operand => exact fun _ _ => .throw
    case operation => exact fun _ _ => .throw
    case path => exact fun _ _ => .throw
    all_goals exact fun _ => .throw
  | succ n ih =>
    exact ⟨fun _ => ih.expr_succ, fun t _ => ih.operation_succ t, fun _ => ih.operand_succ,
      fun _ => ih.creation_succ, fun _ => ih.moreArguments_succ, fun _ => ih.index_succ,
      fun _ => ih.selectors_succ, fun name _ => ih.path_succ name⟩

/-- The name of a call is the one that the expression in front of its arguments starts with. -/
theorem callee_yields {e : Expr} {k : Kind} (h : Heads e.first k) :
    Yields (callee e) a fun _ b => a = b ∧ k = .id := by
  by_cases hk : k = .id
  · obtain ⟨r, l, hfirst⟩ := h.1 hk
    rw [callee, hfirst]
    exact .pure ⟨rfl, hk⟩
  · have hfirst := h.2 hk
    rw [callee]
    split
    · rename_i heq
      exact (hfirst _ heq).elim
    · exact .throw
    · exact .throw

/-- Arguments are read where a parenthesis stands, and only there. -/
def MayPass (a b : List Kind) : Prop := (a = b ∧ front a ≠ .lparen) ∨ Passed .parsed a b

theorem MayPass.passed (h : MayPass a b) (ha : front a = .lparen) : Passed .parsed a b :=
  h.resolve_left fun hne => hne.2 ha

theorem arguments_yields : Yields (arguments n) a fun _ b => MayPass a b := by
  induction n generalizing a with
  | zero => exact .throw
  | succ n ih =>
    rw [arguments]
    refine .sees (fun hk => ?_) fun hk => .pure (Or.inl ⟨rfl, hk⟩)
    obtain ⟨b, rfl⟩ := eq_cons_of_front hk (by decide)
    have hend (c : List Kind) (l : List Expr)
        (hc : ∀ d, c = .rparen :: d → Passed .parsed (.lparen :: b) d) :
        Yields (do expect .rparen .callEnd; return some l) c fun _ d => MayPass (.lparen :: b) d :=
      .expect_bind (by decide) fun d hd => .pure (Or.inr (hc d hd))
    refine .advance_bind (.kind ?_)
    rw [List.tail_cons]
    split
    · refine ((sound n).expr b).bind fun e c hc => .sees (fun hparen => ?_) fun _ => ?_
      · refine (callee_yields hc.heads).bind fun name d hd => ih.bind fun inner f hf => ?_
        obtain ⟨rfl, hid⟩ := hd
        apply hend f
        rintro g rfl
        exact .call rfl hid hc.derives (hf.passed hparen)
      · refine ((sound n).moreArguments c).bind fun l d hd => hend d _ fun f hf => ?_
        exact .list (.arguments hc.derives (hf ▸ hd))
    · exact hend b [] fun d hd => hd ▸ .list .noArguments

theorem dataType_yields : Yields dataType a fun _ b => front b = .id → Typed .parsed a b := by
  rw [dataType]
  refine .look fun t ht => ?_
  have hname (hk : (front a).namesType) : Yields (do advance; return ⟨false, some t⟩) a
      fun (_ : DataType) b => front b = .id → Typed .parsed a b := by
    cases a with
    | nil => cases hk
    | cons k a => exact .advance_bind (.pure fun _ => .plain hk)
  by_cases harray : front a = .arrayKw
  · obtain ⟨b, rfl⟩ := eq_cons_of_front harray (by decide)
    rw [ht]
    refine .advance_bind (.look fun e he => ?_)
    rw [List.tail_cons] at he ⊢
    rw [he]
    by_cases hk : (front b).namesType
    · rw [if_pos (namesType_iff.mp hk)]
      cases b with
      | nil => cases hk
      | cons k b => exact .advance_bind (.pure fun _ => .array hk)
    · rw [if_neg (fun hj => hk (namesType_iff.mpr hj))]
      refine .pure fun hid => ?_
      rw [hid] at hk
      exact (hk rfl).elim
  · rw [ht]
    by_cases hvoid : front a = .voidType
    · rw [hvoid]
      refine .pure fun hid => ?_
      rw [hvoid] at hid
      cases hid
    · cases hk : front a <;> first
        | exact .throw
        | exact hname (by rw [hk]; rfl)
        | exact (harray hk).elim
        | exact (hvoid hk).elim

/-- What a declaration names: a variable with its type, one without or nothing. -/
inductive Names : List Kind → List Kind → Prop
  | typed {a b : List Kind} : begins (front a) → Typed .parsed a (.id :: b) → Names a b
  | name {a : List Kind} : Names (.id :: a) a
  | nothing {a : List Kind} : Names a a

theorem declared_yields {named : Option Token} : Yields (declared named) a fun _ b => Names a b := by
  rw [declared]
  refine .look fun t ht => ?_
  rw [ht]
  by_cases hk : begins (front a)
  · rw [if_pos (by simpa [begins] using hk)]
    refine dataType_yields.bind fun _ b hb => .take_bind (by decide) fun _ c hc => ?_
    subst hc
    exact .pure (.typed hk (hb rfl))
  · rw [if_neg (by simpa [begins] using hk)]
    split
    · rename_i hid
      obtain ⟨b, rfl⟩ := eq_cons_of_front hid (by decide)
      exact .advance_bind (.pure .name)
    · exact .pure .nothing

theorem declaration_yields {named : Option Token} : Yields (declaration n named) a fun _ c =>
    ∃ b, Names a b ∧ Initialized .parsed b c := by
  rw [declaration]
  refine declared_yields.bind fun var b hb => .sees (fun hk => ?_) fun _ => .pure ⟨b, hb, .none⟩
  obtain ⟨c, rfl⟩ := eq_cons_of_front hk (by decide)
  refine .advance_bind (((sound n).expr c).bind fun e d hd => .sees (fun hparen => ?_) fun _ => ?_)
  · refine (callee_yields hd.heads).bind fun name f hf => arguments_yields.bind fun args g hg => ?_
    obtain ⟨rfl, hid⟩ := hf
    exact .pure ⟨_, hb, .some (.call rfl hid hd.derives (hg.passed hparen))⟩
  · exact .pure ⟨_, hb, .some (.plain hd.derives)⟩

theorem assignment_yields (name : Token) : Yields (assignment n name) a fun _ c =>
    ∃ b, Trail .parsed a (.assign :: b) ∧ Derives .parsed .expr b c := by
  rw [assignment]
  refine ((sound n).path name a).bind fun _ b hb => .eat_bind (by decide) fun c hc => ?_
  subst hc
  exact ((sound n).expr c).bind fun _ d hd => .pure ⟨c, hb.1, hd.derives⟩

theorem callInRest_yields {e : Expr} (h : Formed e a b) (hop : e.op ≠ none) (hb : front b = .lparen) :
    Yields (callInRest n e) b fun _ c => ∃ op d f, Derives .parsed .value (bare a) (op :: d) ∧
      op.isOperator ∧ front (bare d) = .id ∧ Derives .parsed .expr d f ∧ Passed .parsed f c := by
  obtain ⟨op, d, r, hvalue, ho, hrest, hr⟩ := h.operation hop
  rw [callInRest, hrest]
  refine (callee_yields hr.heads).bind fun name f hf => arguments_yields.bind fun args g hg => ?_
  obtain ⟨rfl, hid⟩ := hf
  exact .pure ⟨op, d, b, hvalue, ho, hid, hr.derives, hg.passed hb⟩

theorem condition_yields : Yields (condition n) a fun _ b => Counted .parsed a b := by
  rw [condition]
  refine ((sound n).expr a).bind fun e b hb => .sees (fun hparen => ?_) fun _ => ?_
  · rw [if_pos rfl]
    split
    · rename_i hop
      refine (callee_yields hb.heads).bind fun name c hc => arguments_yields.bind fun args d hd => ?_
      obtain ⟨rfl, hid⟩ := hc
      exact .pure (.call rfl hid (hb.value (Option.isNone_iff_eq_none.mp hop)) (hd.passed hparen))
    · rename_i hop
      have hop' : e.op ≠ none := fun h => hop (Option.isNone_iff_eq_none.mpr h)
      refine (callInRest_yields hb hop' hparen).weaken fun _ c hc => ?_
      obtain ⟨op, d, f, hvalue, ho, hid, hr, hp⟩ := hc
      exact .last rfl hvalue ho hid hr hp
  · exact .pure (.plain hb.derives)

/-- Calls behind a returned one. Where the tokens end after an operator nothing can follow. -/
theorem returnedCalls_yields (e : Expr) :
    Yields (returnedCalls n e) a fun _ b => b = [] ∨ Trailing .parsed a b := by
  induction n generalizing a e with
  | zero => exact .throw
  | succ n ih =>
    rw [returnedCalls]
    refine .look fun t ht => ?_
    rw [ht]
    split
    · rename_i hop
      refine .advance_bind (.look fun name _ => .advance_bind (arguments_yields.bind fun _ b hb => ?_))
      refine (ih _).weaken fun _ c hc => hc.elim Or.inl fun htrail => ?_
      cases a with
      | nil => cases hop
      | cons op a =>
        cases a with
        | nil =>
          obtain ⟨rfl, -⟩ | hp := hb
          · cases htrail
            exact Or.inl rfl
          · obtain ⟨d, hd⟩ := hp.cons
            cases hd
        | cons k a => exact Or.inr (.next hop (hb.imp_left fun h => h.1) htrail)
    · exact .pure (Or.inr .done)

theorem returned_yields : Yields (returned n) a fun _ b => b = [] ∨ Returned .parsed a b := by
  rw [returned]
  refine ((sound n).expr a).bind fun e b hb => ?_
  split
  · rename_i refs hfirst
    have hid : front (bare a) = .id := by
      by_contra hne
      exact hb.heads.2 hne refs hfirst
    refine .sees (fun hparen => ?_) fun _ => .pure (Or.inr (.plain hb.derives))
    rw [if_pos rfl]
    split
    · rename_i hop
      refine (callee_yields hb.heads).bind fun name c hc => arguments_yields.bind fun args d hd => ?_
      obtain ⟨rfl, -⟩ := hc
      refine (returnedCalls_yields _).weaken fun _ f hf => hf.imp_right fun htrail => ?_
      exact .call rfl hid (hb.value (Option.isNone_iff_eq_none.mp hop)) (hd.passed hparen) htrail
    · rename_i hop
      have hop' : e.op ≠ none := fun h => hop (Option.isNone_iff_eq_none.mpr h)
      refine (callInRest_yields hb hop' hparen).weaken fun _ c hc => Or.inr ?_
      obtain ⟨op, d, f, hvalue, ho, hidr, hr, hp⟩ := hc
      exact .last rfl hid hvalue ho hidr hr hp
  · exact .pure (Or.inr (.plain hb.derives))

/-- With `n` steps of descent the parser takes clauses of its dialect only. -/
structure SoundStmts (n : Nat) : Prop where
  stmt (a : List Kind) : Yields (stmt n) a fun _ b => Composes .parsed .stmt a b
  alternatives (a : List Kind) :
    Yields (alternatives n) a fun _ b => Composes .parsed .alternatives a b
  block (a : List Kind) : Yields (block n) a fun _ b =>
    ∃ c, a = .lbrace :: c ∧ Composes .parsed .stmts c (.rbrace :: b)
  stmts (a : List Kind) : Yields (stmts n) a fun _ b => Composes .parsed .stmts a b

theorem typed_yields (ha : begins (front a)) :
    Yields (do let d ← declaration n none; eat .semicolon; return Stmt.decl d) a
      fun _ b => Composes .parsed .stmt a b := by
  refine declaration_yields.bind fun _ b hb => .eat_bind (by decide) fun c hc => .pure ?_
  obtain ⟨d, hnames, hi⟩ := hb
  subst hc
  cases hnames with
  | typed hk ht => exact .decl (opensType_of_begins hk) ht hi
  | name => cases ha
  | nothing => cases hi <;> cases ha

theorem named_yields (name : Token) (ha : front a ≠ .assign) :
    Yields (do
      let d ← declaration n (some name)
      let s ← pure (Stmt.decl d)
      eat .semicolon
      return s) a fun _ b => Composes .parsed .stmt (.id :: a) b := by
  refine declaration_yields.bind fun _ b hb => .eat_bind (by decide) fun c hc => .pure ?_
  obtain ⟨d, hnames, hi⟩ := hb
  subst hc
  cases hnames with
  | typed hk ht => exact .redeclare rfl hk ht hi
  | name => exact .decl rfl (.plain rfl) hi
  | nothing =>
    cases hi with
    | none => exact .idle rfl
    | some => exact (ha rfl).elim

theorem assigned_yields (name : Token) :
    Yields (do
      let d ← assignment n name
      let s ← pure (Stmt.assign d)
      eat .semicolon
      return s) a fun _ b => Composes .parsed .stmt (.id :: a) b := by
  refine (assignment_yields name).bind fun _ b hb => .eat_bind (by decide) fun c hc => .pure ?_
  obtain ⟨d, hs, he⟩ := hb
  exact .assign hs (hc ▸ he)

theorem called_yields (name : Token) (ha : front a = .lparen) :
    Yields (do
      let args ← arguments n
      let s ← pure (Stmt.call name args)
      eat .semicolon
      return s) a fun _ b => Composes .parsed .stmt (.id :: a) b :=
  arguments_yields.bind fun _ b hb => .eat_bind (by decide) fun c hc =>
    .pure (.call (hc ▸ hb.passed ha))

theorem head_yields {α : Type} {rest : Expr → Parse α} {wanted : Expectation}
    {R : α → List Kind → Prop}
    (h : ∀ e b, front a ≠ .rparen → Derives .parsed .expr a (.rparen :: b) → Yields (rest e) b R) :
    Yields (do
      if ← sees .rparen then reject wanted
      let e ← expr n
      eat .rparen
      rest e) a R := by
  refine .sees (fun _ => ?_) fun hk => ?_
  · exact (Yields.reject (R := fun _ _ => False)).bind fun _ _ h => h.elim
  · refine ((sound n).expr a).bind fun e b hb => .eat_bind (by decide) fun c hc => ?_
    exact h e c hk (hc ▸ hb.derives)

theorem counts_yields {α : Type} {rest : VarDecl → Expr → Assign → Parse α}
    {R : α → List Kind → Prop}
    (h : ∀ init e step b, Counts .parsed a (.rparen :: b) → Yields (rest init e step) b R) :
    Yields (do
      let init ← declaration n none
      eat .semicolon
      let e ← condition n
      eat .semicolon
      let name ← look
      advance
      let step ← assignment n name
      eat .rparen
      rest init e step) a R := by
  refine declaration_yields.bind fun init b hb => .eat_bind (by decide) fun c hc => ?_
  refine condition_yields.bind fun e d hd => .eat_bind (by decide) fun f hf => ?_
  refine .look fun name _ => .advance_bind ((assignment_yields name).bind fun step g hg => ?_)
  refine .eat_bind (by decide) fun i hi => h init e step i ?_
  subst hc hf hi
  obtain ⟨j, hnames, hinit⟩ := hb
  obtain ⟨k, hs, he⟩ := hg
  refine .intro (b := j) ?_ hinit hd ?_ hs he
  · cases hnames with
    | typed hk ht => exact .typed hk ht
    | name => exact .name rfl
    | nothing => exact .none rfl
  · cases f with
    | nil => obtain h | h | h := hs.cases <;> cases h
    | cons k f => exact .other rfl

namespace SoundStmts

theorem stmt_succ (h : SoundStmts n) :
    Yields (Parser.stmt (n + 1)) a fun _ b => Composes .parsed .stmt a b := by
  have hloop (hk : front a = .whileKw) : Yields (do
      advance; eat .lparen; if ← sees .rparen then reject .whileCondition
      let e ← expr n; eat .rparen; return Stmt.loop e (← Parser.block n)) a
      fun _ b => Composes .parsed .stmt a b := by
    obtain ⟨a, rfl⟩ := eq_cons_of_front hk (by decide)
    refine .advance_bind (.eat_bind (by decide) fun b hb => head_yields fun e c hf hc => ?_)
    rw [List.tail_cons] at hb
    subst hb
    refine (h.block c).bind fun _ d hd => .pure ?_
    obtain ⟨f, rfl, hbody⟩ := hd
    exact .loop hf hc hbody
  have hchoice (hk : front a = .ifKw) : Yields (do
      advance; eat .lparen; if ← sees .rparen then reject .ifCondition
      let e ← expr n; eat .rparen; let body ← Parser.block n
      let r ← Parser.alternatives n
      return Stmt.choice (.mk e body) r.1 r.2) a fun _ b => Composes .parsed .stmt a b := by
    obtain ⟨a, rfl⟩ := eq_cons_of_front hk (by decide)
    refine .advance_bind (.eat_bind (by decide) fun b hb => head_yields fun e c hf hc => ?_)
    rw [List.tail_cons] at hb
    subst hb
    refine (h.block c).bind fun _ d hd => (h.alternatives d).bind fun _ g halt => .pure ?_
    obtain ⟨f, rfl, hbody⟩ := hd
    exact .choice hf hc hbody halt
  have hcount (hk : front a = .forKw) : Yields (do
      advance; eat .lparen; let init ← declaration n none; eat .semicolon; let e ← condition n
      eat .semicolon; let name ← look; advance; let step ← assignment n name; eat .rparen
      return Stmt.count init e step (← Parser.block n)) a fun _ b => Composes .parsed .stmt a b := by
    obtain ⟨a, rfl⟩ := eq_cons_of_front hk (by decide)
    refine .advance_bind (.eat_bind (by decide) fun b hb => counts_yields fun _ _ _ c hc => ?_)
    rw [List.tail_cons] at hb
    subst hb
    refine (h.block c).bind fun _ d hd => .pure ?_
    obtain ⟨f, rfl, hbody⟩ := hd
    exact .count hc hbody
  have hret (hk : front a = .returnKw) : Yields (do
      advance; let e ← returned n; eat .semicolon; return Stmt.ret e) a
      fun _ b => Composes .parsed .stmt a b := by
    obtain ⟨a, rfl⟩ := eq_cons_of_front hk (by decide)
    refine .advance_bind (returned_yields.bind fun _ b hb => .eat_bind (by decide) fun c hc => ?_)
    subst hc
    exact .pure (.ret (hb.resolve_left (List.cons_ne_nil _ _)))
  rw [Parser.stmt]
  refine .kind ?_
  by_cases hid : front a = .id
  · obtain ⟨a, rfl⟩ := eq_cons_of_front hid (by decide)
    refine .take_bind (by decide) fun name b hb => .kind ?_
    obtain rfl : a = b := (List.cons.inj hb).2
    cases hk : front a <;> first
      | exact called_yields name hk
      | exact named_yields name (by rw [hk]; decide)
      | exact assigned_yields name
  · cases hk : front a <;> first
      | exact .reject
      | exact hloop hk
      | exact hchoice hk
      | exact hcount hk
      | exact hret hk
      | exact typed_yields (by rw [hk]; rfl)
      | exact (hid hk).elim

theorem alternatives_succ (h : SoundStmts n) :
    Yields (Parser.alternatives (n + 1)) a fun _ b => Composes .parsed .alternatives a b := by
  have helseif (hk : front a = .elseifKw) : Yields (do
      advance; eat .lparen; let e ← expr n; eat .rparen; let body ← Parser.block n
      let r ← Parser.alternatives n
      return (Branch.mk e (body.flatMap echo) :: r.1, r.2)) a
      fun _ b => Composes .parsed .alternatives a b := by
    obtain ⟨a, rfl⟩ := eq_cons_of_front hk (by decide)
    refine .advance_bind (.eat_bind (by decide) fun b hb => ((sound n).expr b).bind fun _ c hc => ?_)
    rw [List.tail_cons] at hb
    refine .eat_bind (by decide) fun d hd => (h.block d).bind fun _ e he => ?_
    subst hb hd
    obtain ⟨f, rfl, hf⟩ := he
    exact (h.alternatives e).bind fun _ g hg => .pure (.elseif hc.derives hf hg)
  have helse (hk : front a = .elseKw) : Yields (do
      advance; let body ← Parser.block n; return (([] : List Branch), body.flatMap echo)) a
      fun _ b => Composes .parsed .alternatives a b := by
    obtain ⟨a, rfl⟩ := eq_cons_of_front hk (by decide)
    refine .advance_bind ((h.block a).bind fun _ b hb => .pure ?_)
    obtain ⟨c, rfl, hc⟩ := hb
    exact .otherwise hc
  rw [Parser.alternatives]
  refine .kind ?_
  cases hk : front a <;> first | exact .pure .neither | exact helseif hk | exact helse hk

theorem block_succ (h : SoundStmts n) : Yields (Parser.block (n + 1)) a fun _ b =>
    ∃ c, a = .lbrace :: c ∧ Composes .parsed .stmts c (.rbrace :: b) := by
  rw [Parser.block]
  refine .eat_bind (by decide) fun b hb => (h.stmts b).bind fun _ c hc => ?_
  exact .eat_bind (by decide) fun d hd => .pure ⟨b, hb, hd ▸ hc⟩

theorem stmts_succ (h : SoundStmts n) :
    Yields (Parser.stmts (n + 1)) a fun _ b => Composes .parsed .stmts a b := by
  rw [Parser.stmts]
  refine .sees (fun _ => .pure .done) fun _ => (h.stmt a).bind fun _ b hb => ?_
  exact (h.stmts b).bind fun _ c hc => .pure (.next hb hc)

end SoundStmts

theorem soundStmts (n : Nat) : SoundStmts n := by
  induction n with
  | zero =>
    constructor
    all_goals exact fun _ => .throw
  | succ n ih =>
    exact ⟨fun _ => ih.stmt_succ, fun _ => ih.alternatives_succ, fun _ => ih.block_succ,
      fun _ => ih.stmts_succ⟩

theorem body_yields : Yields (body n) a fun _ b => Composes .parsed .stmts a b := by
  induction n generalizing a with
  | zero => exact .throw
  | succ n ih =>
    rw [body]
    refine .kind ?_
    split
    · exact .pure .done
    · refine ((soundStmts n).stmt a).bind fun _ b hb => ?_
      exact ih.bind fun _ c hc => .pure (.next hb hc)

theorem fields_yields : Yields (fields n) a fun _ b => Fields .parsed a b := by
  induction n generalizing a with
  | zero => exact .throw
  | succ n ih =>
    rw [fields]
    refine .sees (fun _ => .pure .done) fun _ => dataType_yields.bind fun _ b hb => ?_
    refine .take_bind (by decide) fun _ c hc => .eat_bind (by decide) fun d hd => ?_
    subst hc hd
    exact ih.bind fun _ e he => .pure (.next (hb rfl) he)

theorem parameter_yields : Yields parameter a fun _ b => Typed .parsed a (.id :: b) :=
  dataType_yields.bind fun _ b hb => .take_bind (by decide) fun _ c hc => by
    subst hc
    exact .pure (hb rfl)

theorem moreParameters_yields :
    Yields (moreParameters n) a fun _ b => MoreParameters .parsed a b := by
  induction n generalizing a with
  | zero => exact .throw
  | succ n ih =>
    rw [moreParameters]
    refine .sees (fun hk => ?_) fun _ => .pure .done
    obtain ⟨b, rfl⟩ := eq_cons_of_front hk (by decide)
    refine .advance_bind (parameter_yields.bind fun _ c hc => ?_)
    exact ih.bind fun _ d hd => .pure (.next hc hd)

theorem parameters_yields : Yields (parameters n) a fun _ b => Parameters .parsed a b := by
  rw [parameters]
  refine .sees (fun _ => .pure .none) fun _ => parameter_yields.bind fun _ b hb => ?_
  exact moreParameters_yields.bind fun _ c hc => .pure (.some hb hc)

theorem structDef_yields : Yields (structDef n) a fun _ b => Defines .parsed a b := by
  refine .eat_bind (by decide) fun b hb => .take_bind (by decide) fun _ c hc =>
    .eat_bind (by decide) fun d hd => fields_yields.bind fun _ e he => ?_
  refine .eat_bind (by decide) fun f hf => .pure ?_
  subst hb hc hd hf
  exact .struct he

theorem returnType_yields : Yields returnType a fun _ b => front b = .id → Results .parsed a b := by
  have htype (hk : opensType (front a)) :
      Yields dataType a fun _ b => front b = .id → Results .parsed a b :=
    dataType_yields.weaken fun _ b hb hid => .value hk (hb hid)
  have hvoid (hk : front a = .voidType) : Yields (do let type ← dataType; advance; return type) a
      fun _ b => front b = .id → Results .parsed a b := by
    obtain ⟨b, rfl⟩ := eq_cons_of_front hk (by decide)
    rw [dataType, bind_assoc]
    refine .look fun t ht => ?_
    rw [ht]
    exact .advance_bind (.pure fun _ => .nothing)
  rw [returnType]
  refine .kind ?_
  cases hk : front a <;> first
    | exact .reject
    | exact hvoid hk
    | exact htype (by rw [hk]; rfl)

theorem funDef_yields : Yields (funDef n) a fun _ b => Defines .parsed a b := by
  rw [funDef]
  refine returnType_yields.bind fun _ b hb => .take_bind (by decide) fun _ c hc => ?_
  refine .eat_bind (by decide) fun d hd => parameters_yields.bind fun _ e he => ?_
  refine .expect_bind (by decide) fun f hf => .eat_bind (by decide) fun g hg => ?_
  refine body_yields.bind fun _ i hi => .expect_bind (by decide) fun j hj => .pure ?_
  subst hc hd hf hg hj
  exact .function (hb rfl) he hi

theorem definitions_yields : Yields (definitions n) a fun _ b =>
    Definitions .parsed a b ∧ front b = .eos := by
  induction n generalizing a with
  | zero => exact .throw
  | succ n ih =>
    have hstruct : Yields (do
        let d ← structDef n
        let p ← definitions n
        return { p with structs := d :: p.structs }) a
        fun _ b => Definitions .parsed a b ∧ front b = .eos :=
      structDef_yields.bind fun _ b hb => ih.bind fun _ c hc => .pure ⟨.next hb hc.1, hc.2⟩
    have hfunction : Yields (do
        let d ← funDef n
        let p ← definitions n
        return { p with functions := d :: p.functions }) a
        fun _ b => Definitions .parsed a b ∧ front b = .eos :=
      funDef_yields.bind fun _ b hb => ih.bind fun _ c hc => .pure ⟨.next hb hc.1, hc.2⟩
    rw [definitions]
    refine .kind ?_
    cases hk : front a <;> first
      | exact .pure ⟨.done, hk⟩
      | exact hstruct
      | exact hfunction

end StackLang.Parser
