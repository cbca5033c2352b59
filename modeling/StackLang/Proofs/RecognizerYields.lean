import StackLang.Proofs.Recognition
import StackLang.Proofs.Yielding

namespace StackLang.Recognizer

open Parse Token Grammar
open StackLang.Parser (opensOperand)

variable {a : List Kind} {n : Nat}

/-- What an operation consists of behind the first operand. -/
def Continues (a b : List Kind) : Prop :=
  a = b ∨ ∃ op c, a = op :: c ∧ op.isOperator ∧ Derives .recognized .expr c b

/-- With `n` steps of descent the recognizer takes phrases of its dialect only. -/
structure Sound (n : Nat) : Prop where
  expr (a : List Kind) : Yields (expr n) a fun _ b => Derives .recognized .expr a b
  operation (a : List Kind) : Yields (operation n) a fun _ b => Continues a b
  operand (a : List Kind) : opensOperand (front a) →
    Yields (operand n) a fun _ b => Derives .recognized .value a b
  creation (a : List Kind) : Yields (creation n) a fun _ b => Derives .recognized .value a b
  arguments (a : List Kind) : Yields (arguments n) a fun _ b =>
    ∃ c, a = .lparen :: c ∧ Derives .recognized .arguments c (.rparen :: b)
  moreArguments (a : List Kind) :
    Yields (moreArguments n) a fun _ b => Derives .recognized .others a b
  index (a : List Kind) : Yields (index n) a fun _ b => Indexes .recognized a b
  selectors (a : List Kind) : Yields (selectors n) a fun _ b => Derives .recognized .selectors a b
  path (a : List Kind) : Yields (path n) a fun _ b => Trail .recognized a b

theorem derives_of_continues {b c : List Kind} (h : Derives .recognized .value a b)
    (hc : Continues b c) : Derives .recognized .expr a c := by
  obtain rfl | ⟨op, d, rfl, hop, hd⟩ := hc
  · exact .operand h
  · exact .operation h hop hd

namespace Sound

theorem expr_succ (h : Sound n) :
    Yields (Recognizer.expr (n + 1)) a fun _ b => Derives .recognized .expr a b := by
  have hoperand (hk : opensOperand (front a)) : Yields
      (Recognizer.operand n >>= fun _ => Recognizer.operation n) a
      fun _ b => Derives .recognized .expr a b :=
    (h.operand a hk).bind fun _ b hb => (h.operation b).weaken fun _ c hc =>
      derives_of_continues hb hc
  have hnegation (hk : front a = .notOp) :
      Yields (advance >>= fun _ => Recognizer.expr n) a
        fun _ b => Derives .recognized .expr a b := by
    obtain ⟨a, rfl⟩ := eq_cons_of_front hk (by decide)
    exact .advance_bind ((h.expr a).weaken fun _ b hb => .negation hb)
  have hgroup (hk : front a = .lparen) : Yields (do
      advance; Recognizer.expr n; eat .rparen; Recognizer.operation n) a
      fun _ b => Derives .recognized .expr a b := by
    obtain ⟨a, rfl⟩ := eq_cons_of_front hk (by decide)
    refine .advance_bind ((h.expr a).bind fun _ b hb => .eat_bind (by decide) fun c hc => ?_)
    subst hc
    exact (h.operation c).weaken fun _ d hd => derives_of_continues (.group hb) hd
  have hnothing (hk : front a = .rparen) :
      Yields (pure ()) a fun _ b => Derives .recognized .expr a b := by
    obtain ⟨a, rfl⟩ := eq_cons_of_front hk (by decide)
    exact .pure (.omitted rfl)
  rw [Recognizer.expr]
  refine .kind ?_
  cases hk : front a <;> first
    | exact .reject
    | exact hnegation hk
    | exact hgroup hk
    | exact hnothing hk
    | exact hoperand (by rw [hk]; rfl)

theorem operation_succ (h : Sound n) :
    Yields (Recognizer.operation (n + 1)) a fun _ b => Continues a b := by
  rw [Recognizer.operation]
  refine .kind ?_
  split
  · rename_i hop
    cases a with
    | nil => cases hop
    | cons op a => exact .advance_bind ((h.expr a).weaken fun _ b hb => Or.inr ⟨op, a, rfl, hop, hb⟩)
  · exact .pure (Or.inl rfl)

theorem operand_succ (h : Sound n) (ha : opensOperand (front a)) :
    Yields (Recognizer.operand (n + 1)) a fun _ b => Derives .recognized .value a b := by
  rw [Recognizer.operand]
  refine .kind ?_
  by_cases hid : front a = .id
  · obtain ⟨a, rfl⟩ := eq_cons_of_front hid (by decide)
    have hpath : Yields (Recognizer.path n) a
        fun _ b => Derives .recognized .value (.id :: a) b := by
      refine (h.path a).weaken fun _ b hb => ?_
      obtain ⟨c, hi, hs⟩ := hb
      exact .path hi hs
    have hcall : Yields (Recognizer.arguments n) a
        fun _ b => Derives .recognized .value (.id :: a) b := by
      refine (h.arguments a).weaken fun _ b hb => ?_
      obtain ⟨c, rfl, hargs⟩ := hb
      exact .call rfl hargs
    have hnone : Yields (pure ()) a fun _ b => Derives .recognized .value (.id :: a) b :=
      .pure (.path .noIndex .noSelectors)
    refine .advance_bind (.kind ?_)
    rw [List.tail_cons]
    cases front a <;> first | exact hnone | exact hpath | exact hcall
  · have hliteral (hk : (front a).isLiteral) :
        Yields advance a fun _ b => Derives .recognized .value a b := by
      cases a with
      | nil => cases hk
      | cons k a => exact Yields.advance.weaken fun _ b hb => hb ▸ .literal hk
    revert ha
    cases hk : front a <;> intro ha <;> first
      | exact h.creation a
      | exact hliteral (by rw [hk]; rfl)
      | exact (hid hk).elim
      | cases ha

theorem content_yields (h : Sound n) :
    Yields (content n) a fun _ b => Derives .recognized .content a b := by
  have harguments (hk : front a = .lparen) : Yields (do
      advance; Recognizer.expr n; Recognizer.moreArguments n; eat .rparen) a
      fun _ b => Derives .recognized .content a b := by
    obtain ⟨a, rfl⟩ := eq_cons_of_front hk (by decide)
    refine .advance_bind ((h.expr a).bind fun _ b hb => (h.moreArguments b).bind fun _ c hc => ?_)
    exact (Yields.eat (by decide)).weaken fun _ d hd => .record (.arguments hb (hd ▸ hc))
  have hindex (hk : front a = .lbracket) :
      Yields (Recognizer.index n) a fun _ b => Derives .recognized .content a b := by
    refine (h.index a).weaken fun _ b hb => ?_
    obtain ⟨-, hne⟩ | ⟨c, rfl, hc⟩ := hb
    · exact (hne hk).elim
    · exact .array hc
  refine .kind ?_
  cases hk : front a <;> first
    | exact harguments hk
    | exact hindex hk
    | exact .pure (.noContent rfl (by rw [hk]; decide) (by rw [hk]; decide))

theorem creation_succ (h : Sound n) :
    Yields (Recognizer.creation (n + 1)) a fun _ b => Derives .recognized .value a b := by
  rw [Recognizer.creation]
  refine .eat_bind (by decide) fun b hb => .kind ?_
  subst hb
  have hcontent (c : List Kind) (hc : Naming .recognized b c) :
      Yields (content n) c fun _ d => Derives .recognized .value (.newKw :: b) d :=
    h.content_yields.weaken fun _ d hd => .creation hc hd
  by_cases hk : (front b).namesType
  · rw [if_pos (Parser.namesType_iff.mp hk)]
    cases b with
    | nil => cases hk
    | cons k b => exact .advance_bind (hcontent b (.type hk))
  · rw [if_neg (fun hj => hk (Parser.namesType_iff.mpr hj))]
    exact hcontent b (.none rfl (Bool.eq_false_iff.mpr hk))

theorem arguments_succ (h : Sound n) : Yields (Recognizer.arguments (n + 1)) a fun _ b =>
    ∃ c, a = .lparen :: c ∧ Derives .recognized .arguments c (.rparen :: b) := by
  rw [Recognizer.arguments]
  refine .eat_bind (by decide) fun b hb => .sees (fun hk => ?_) fun _ => ?_
  · obtain ⟨c, rfl⟩ := eq_cons_of_front hk (by decide)
    exact Yields.advance.weaken fun _ d hd => ⟨_, hb, hd ▸ .noArguments⟩
  · refine (h.expr b).bind fun _ c hc => (h.moreArguments c).bind fun _ d hd => ?_
    exact (Yields.eat (by decide)).weaken fun _ e he => ⟨b, hb, .arguments hc (he ▸ hd)⟩

theorem moreArguments_succ (h : Sound n) :
    Yields (Recognizer.moreArguments (n + 1)) a fun _ b => Derives .recognized .others a b := by
  rw [Recognizer.moreArguments]
  refine .sees (fun hk => ?_) fun _ => .pure .noOthers
  obtain ⟨b, rfl⟩ := eq_cons_of_front hk (by decide)
  refine .advance_bind ((h.expr b).bind fun _ c hc => ?_)
  exact (h.moreArguments c).weaken fun _ d hd => .others hc hd

theorem index_succ (h : Sound n) :
    Yields (Recognizer.index (n + 1)) a fun _ b => Indexes .recognized a b := by
  rw [Recognizer.index]
  refine .sees (fun hk => ?_) fun hk => .pure (Or.inl ⟨rfl, hk⟩)
  obtain ⟨b, rfl⟩ := eq_cons_of_front hk (by decide)
  refine .advance_bind ((h.expr b).bind fun _ c hc => ?_)
  exact (Yields.eat (by decide)).weaken fun _ d hd => Or.inr ⟨b, rfl, hd ▸ hc⟩

theorem selectors_succ (h : Sound n) :
    Yields (Recognizer.selectors (n + 1)) a fun _ b => Derives .recognized .selectors a b := by
  rw [Recognizer.selectors]
  refine .sees (fun hk => ?_) fun _ => .pure .noSelectors
  obtain ⟨b, rfl⟩ := eq_cons_of_front hk (by decide)
  refine .advance_bind (.eat_bind (by decide) fun c hc => (h.index c).bind fun _ d hd => ?_)
  rw [List.tail_cons] at hc
  subst hc
  exact (h.selectors d).weaken fun _ e he => .selectors hd.derives he

theorem path_succ (h : Sound n) :
    Yields (Recognizer.path (n + 1)) a fun _ b => Trail .recognized a b := by
  rw [Recognizer.path]
  refine (h.index a).bind fun _ b hb => ?_
  exact (h.selectors b).weaken fun _ c hc => ⟨b, hb.derives, hc⟩

end Sound

theorem sound (n : Nat) : Sound n := by
  induction n with
  | zero =>
    constructor <;> intro a
    case operand => exact fun _ => .throw
    all_goals exact .throw
  | succ n ih =>
    exact ⟨fun _ => ih.expr_succ, fun _ => ih.operation_succ, fun _ => ih.operand_succ,
      fun _ => ih.creation_succ, fun _ => ih.arguments_succ, fun _ => ih.moreArguments_succ,
      fun _ => ih.index_succ, fun _ => ih.selectors_succ, fun _ => ih.path_succ⟩

/-- A type stands in front of a name; elsewhere a name or a path is taken for one. -/
def TypeLike (a b : List Kind) : Prop :=
  (front b = .id → Typed .recognized a b) ∧
    (begins (front a) = false → a = .id :: b ∨ Trail .recognized a b)

theorem dataType_yields : Yields (dataType n) a fun _ b => TypeLike a b := by
  induction n generalizing a with
  | zero => exact .throw
  | succ n ih =>
    have hname (hk : (front a).namesType) : Yields advance a fun _ b => TypeLike a b := by
      cases a with
      | nil => cases hk
      | cons k a =>
        refine Yields.advance.weaken fun _ b hb => ⟨fun _ => hb ▸ .plain hk, fun hbegin => ?_⟩
        rw [front_cons] at hk hbegin
        rw [hb, eq_id_of_namesType hk hbegin]
        exact Or.inl rfl
    have harray (hk : front a = .arrayKw) :
        Yields (advance >>= fun _ => dataType n) a fun _ b => TypeLike a b := by
      obtain ⟨a, rfl⟩ := eq_cons_of_front hk (by decide)
      refine .advance_bind (ih.weaken fun _ b hb => ⟨fun h => .nested rfl (hb.1 h), fun h => ?_⟩)
      cases h
    have hpath (hk : front a ≠ .id) : Yields (path n) a fun _ b => TypeLike a b := by
      refine ((sound n).path a).weaken fun _ b hb => ⟨fun h => .item rfl hb ?_, fun _ => Or.inr hb⟩
      rintro rfl
      exact hk h
    rw [dataType]
    refine .kind ?_
    cases hk : front a <;> first
      | exact hname (by rw [hk]; rfl)
      | exact harray hk
      | exact hpath (by rw [hk]; decide)

theorem initialized_yields : Yields (do if ← sees .assign then advance; expr n) a
    fun _ b => Initialized .recognized a b := by
  refine .sees (fun hk => ?_) fun _ => .pure .none
  obtain ⟨b, rfl⟩ := eq_cons_of_front hk (by decide)
  exact .advance_bind (((sound n).expr b).weaken fun _ c hc => .some (.plain hc))

/-- What a declaration reads depends on whether its first token shows a type. -/
def Declares (a c : List Kind) : Prop :=
  (begins (front a) → ∃ b, Typed .recognized a (.id :: b) ∧ Initialized .recognized b c) ∧
    (begins (front a) = false →
      ∃ b, (a = .id :: b ∨ Trail .recognized a b) ∧ Initialized .recognized b c)

theorem declaration_yields : Yields (declaration n) a fun _ c => Declares a c := by
  rw [declaration]
  refine .kind (dataType_yields.bind fun _ b hb => ?_)
  by_cases hk : begins (front a)
  · rw [if_pos (by simpa [begins] using hk)]
    refine .eat_bind (by decide) fun c hc => initialized_yields.weaken fun _ d hd => ?_
    subst hc
    exact ⟨fun _ => ⟨c, hb.1 rfl, hd⟩, fun h => by rw [hk] at h; cases h⟩
  · rw [if_neg (by simpa [begins] using hk)]
    have hk' : begins (front a) = false := Bool.eq_false_iff.mpr hk
    exact initialized_yields.weaken fun _ d hd => ⟨fun h => (hk h).elim, fun h => ⟨b, hb.2 h, hd⟩⟩

theorem assignment_yields : Yields (assignment n) a fun _ d =>
    ∃ b c, (a = .id :: b ∨ a = b) ∧ Trail .recognized b (.assign :: c) ∧
      Derives .recognized .expr c d := by
  have hrest (b : List Kind) (hb : a = .id :: b ∨ a = b) :
      Yields (do path n; eat .assign; expr n) b fun _ d =>
        ∃ b c, (a = .id :: b ∨ a = b) ∧ Trail .recognized b (.assign :: c) ∧
          Derives .recognized .expr c d := by
    refine ((sound n).path b).bind fun _ c hc => .eat_bind (by decide) fun d hd => ?_
    exact ((sound n).expr d).weaken fun _ e he => ⟨b, d, hb, hd ▸ hc, he⟩
  rw [assignment]
  refine .sees (fun hk => ?_) fun _ => hrest a (Or.inr rfl)
  obtain ⟨b, rfl⟩ := eq_cons_of_front hk (by decide)
  exact .advance_bind (hrest b (Or.inl rfl))

/-- With `n` steps of descent the recognizer takes clauses of its dialect only. -/
structure SoundStmts (n : Nat) : Prop where
  stmt (a : List Kind) : Yields (stmt n) a fun _ b => Composes .recognized .stmt a b
  alternatives (a : List Kind) :
    Yields (alternatives n) a fun _ b => Composes .recognized .alternatives a b
  block (a : List Kind) : Yields (block n) a fun _ b =>
    ∃ c, a = .lbrace :: c ∧ Composes .recognized .stmts c (.rbrace :: b)
  stmts (a : List Kind) : Yields (stmts n) a fun _ b => Composes .recognized .stmts a b

theorem typed_yields (ha : begins (front a)) :
    Yields (declaration n >>= fun _ => eat .semicolon) a
      fun _ b => Composes .recognized .stmt a b := by
  refine declaration_yields.bind fun _ b hb => (Yields.eat (by decide)).weaken fun _ c hc => ?_
  obtain ⟨d, ht, hi⟩ := hb.1 ha
  exact .decl (opensType_of_begins ha) ht (hc ▸ hi)

/-- A declaration behind a name that neither an assignment nor a call goes on with. -/
theorem named_yields (ha : front a ≠ .assign) (hdot : front a ≠ .dot) :
    Yields (declaration n >>= fun _ => eat .semicolon) a
      fun _ b => Composes .recognized .stmt (.id :: a) b := by
  refine declaration_yields.bind fun _ b hb => (Yields.eat (by decide)).weaken fun _ c hc => ?_
  subst hc
  by_cases hk : begins (front a)
  · obtain ⟨d, ht, hi⟩ := hb.1 hk
    exact .redeclare rfl hk ht hi
  · obtain ⟨d, rfl | hs, hi⟩ := hb.2 (Bool.eq_false_iff.mpr hk)
    · exact .decl rfl (.plain rfl) hi
    · obtain rfl | hf | hf := hs.cases
      · cases hi with
        | none => exact .idle rfl
        | some => exact (ha rfl).elim
      · exact .item rfl hf hs hi
      · exact (hdot hf).elim

theorem assigned_yields (ha : front a ≠ .id) :
    Yields (assignment n >>= fun _ => eat .semicolon) a
      fun _ b => Composes .recognized .stmt (.id :: a) b := by
  refine assignment_yields.bind fun _ b hb => (Yields.eat (by decide)).weaken fun _ c hc => ?_
  subst hc
  obtain ⟨d, e, rfl | rfl, hs, he⟩ := hb
  · exact (ha rfl).elim
  · exact .assign hs he

theorem called_yields : Yields (arguments n >>= fun _ => eat .semicolon) a
    fun _ b => Composes .recognized .stmt (.id :: a) b := by
  refine ((sound n).arguments a).bind fun _ b hb => (Yields.eat (by decide)).weaken fun _ c hc => ?_
  obtain ⟨d, rfl, hargs⟩ := hb
  exact .call (.list (hc ▸ hargs))

theorem counter_yields : Yields (declaration n) a fun _ c =>
    ∃ b, Counter .recognized a b ∧ Initialized .recognized b c := by
  refine declaration_yields.weaken fun _ c hc => ?_
  by_cases hk : begins (front a)
  · obtain ⟨b, ht, hi⟩ := hc.1 hk
    exact ⟨b, .typed hk ht, hi⟩
  · obtain ⟨b, rfl | hs, hi⟩ := hc.2 (Bool.eq_false_iff.mpr hk)
    · exact ⟨b, .name rfl, hi⟩
    · exact ⟨b, .item rfl hs, hi⟩

theorem condition_yields {rest : Parse Unit} {wanted : Expectation}
    {R : Unit → List Kind → Prop}
    (h : ∀ b, front a ≠ .rparen → Derives .recognized .expr a (.rparen :: b) → Yields rest b R) :
    Yields (do
      if ← sees .rparen then reject wanted
      expr n
      eat .rparen
      rest) a R := by
  refine .sees (fun _ => ?_) fun hk => ?_
  · exact (Yields.reject (R := fun _ _ => False)).bind fun _ _ h => h.elim
  · refine ((sound n).expr a).bind fun _ b hb => .eat_bind (by decide) fun c hc => ?_
    exact h c hk (hc ▸ hb)

theorem counts_yields {rest : Parse Unit} {R : Unit → List Kind → Prop}
    (h : ∀ b, Counts .recognized a (.rparen :: b) → Yields rest b R) :
    Yields (do
      declaration n
      eat .semicolon
      expr n
      eat .semicolon
      assignment n
      eat .rparen
      rest) a R := by
  refine counter_yields.bind fun _ b hb => .eat_bind (by decide) fun c hc => ?_
  refine ((sound n).expr c).bind fun _ d hd => .eat_bind (by decide) fun e he => ?_
  refine assignment_yields.bind fun _ f hf => .eat_bind (by decide) fun g hg => ?_
  subst hc he hg
  obtain ⟨i, hv, hi⟩ := hb
  obtain ⟨j, k, hname, hs, hk⟩ := hf
  refine h g (.intro hv hi (.plain hd) ?_ hs hk)
  obtain rfl | rfl := hname
  · exact .name
  · exact .none rfl

namespace SoundStmts

theorem stmt_succ (h : SoundStmts n) :
    Yields (Recognizer.stmt (n + 1)) a fun _ b => Composes .recognized .stmt a b := by
  have hloop (hk : front a = .whileKw) : Yields (do
      advance; eat .lparen; if ← sees .rparen then reject .whileCondition
      expr n; eat .rparen; Recognizer.block n) a fun _ b => Composes .recognized .stmt a b := by
    obtain ⟨a, rfl⟩ := eq_cons_of_front hk (by decide)
    refine .advance_bind (.eat_bind (by decide) fun b hb => condition_yields fun c hf hc => ?_)
    rw [List.tail_cons] at hb
    subst hb
    refine (h.block c).weaken fun _ d hd => ?_
    obtain ⟨e, rfl, he⟩ := hd
    exact .loop hf hc he
  have hchoice (hk : front a = .ifKw) : Yields (do
      advance; eat .lparen; if ← sees .rparen then reject .ifCondition
      expr n; eat .rparen; Recognizer.block n; Recognizer.alternatives n) a
      fun _ b => Composes .recognized .stmt a b := by
    obtain ⟨a, rfl⟩ := eq_cons_of_front hk (by decide)
    refine .advance_bind (.eat_bind (by decide) fun b hb => condition_yields fun c hf hc => ?_)
    rw [List.tail_cons] at hb
    subst hb
    refine (h.block c).bind fun _ d hd => (h.alternatives d).weaken fun _ f halt => ?_
    obtain ⟨e, rfl, he⟩ := hd
    exact .choice hf hc he halt
  have hcount (hk : front a = .forKw) : Yields (do
      advance; eat .lparen; declaration n; eat .semicolon; expr n; eat .semicolon; assignment n
      eat .rparen; Recognizer.block n) a fun _ b => Composes .recognized .stmt a b := by
    obtain ⟨a, rfl⟩ := eq_cons_of_front hk (by decide)
    refine .advance_bind (.eat_bind (by decide) fun b hb => counts_yields fun c hc => ?_)
    rw [List.tail_cons] at hb
    subst hb
    refine (h.block c).weaken fun _ d hd => ?_
    obtain ⟨e, rfl, he⟩ := hd
    exact .count hc he
  have hret (hk : front a = .returnKw) : Yields (do advance; expr n; eat .semicolon) a
      fun _ b => Composes .recognized .stmt a b := by
    obtain ⟨a, rfl⟩ := eq_cons_of_front hk (by decide)
    refine .advance_bind (((sound n).expr a).bind fun _ b hb => ?_)
    exact (Yields.eat (by decide)).weaken fun _ c hc => .ret (.plain (hc ▸ hb))
  rw [Recognizer.stmt]
  refine .kind ?_
  by_cases hid : front a = .id
  · obtain ⟨a, rfl⟩ := eq_cons_of_front hid (by decide)
    refine .advance_bind (.kind ?_)
    rw [List.tail_cons]
    cases hk : front a <;> first
      | exact called_yields
      | exact named_yields (by rw [hk]; decide) (by rw [hk]; decide)
      | exact assigned_yields (by rw [hk]; decide)
  · cases hk : front a <;> first
      | exact .reject
      | exact hloop hk
      | exact hchoice hk
      | exact hcount hk
      | exact hret hk
      | exact typed_yields (by rw [hk]; rfl)
      | exact (hid hk).elim

theorem alternatives_succ (h : SoundStmts n) : Yields (Recognizer.alternatives (n + 1)) a
    fun _ b => Composes .recognized .alternatives a b := by
  have helseif (hk : front a = .elseifKw) : Yields (do
      advance; eat .lparen; expr n; eat .rparen; Recognizer.block n; Recognizer.alternatives n) a
      fun _ b => Composes .recognized .alternatives a b := by
    obtain ⟨a, rfl⟩ := eq_cons_of_front hk (by decide)
    refine .advance_bind (.eat_bind (by decide) fun b hb => ((sound n).expr b).bind fun _ c hc => ?_)
    rw [List.tail_cons] at hb
    refine .eat_bind (by decide) fun d hd => (h.block d).bind fun _ e he => ?_
    subst hb hd
    obtain ⟨f, rfl, hf⟩ := he
    exact (h.alternatives e).weaken fun _ g hg => .elseif hc hf hg
  have helse (hk : front a = .elseKw) : Yields (advance >>= fun _ => Recognizer.block n) a
      fun _ b => Composes .recognized .alternatives a b := by
    obtain ⟨a, rfl⟩ := eq_cons_of_front hk (by decide)
    refine .advance_bind ((h.block a).weaken fun _ b hb => ?_)
    obtain ⟨c, rfl, hc⟩ := hb
    exact .otherwise hc
  rw [Recognizer.alternatives]
  refine .kind ?_
  cases hk : front a <;> first | exact .pure .neither | exact helseif hk | exact helse hk

theorem block_succ (h : SoundStmts n) : Yields (Recognizer.block (n + 1)) a fun _ b =>
    ∃ c, a = .lbrace :: c ∧ Composes .recognized .stmts c (.rbrace :: b) := by
  rw [Recognizer.block]
  refine .eat_bind (by decide) fun b hb => (h.stmts b).bind fun _ c hc => ?_
  exact (Yields.eat (by decide)).weaken fun _ d hd => ⟨b, hb, hd ▸ hc⟩

theorem stmts_succ (h : SoundStmts n) : Yields (Recognizer.stmts (n + 1)) a fun _ b =>
    Composes .recognized .stmts a b := by
  rw [Recognizer.stmts]
  refine .sees (fun _ => .pure .done) fun _ => (h.stmt a).bind fun _ b hb => ?_
  exact (h.stmts b).weaken fun _ c hc => .next hb hc

end SoundStmts

theorem soundStmts (n : Nat) : SoundStmts n := by
  induction n with
  | zero =>
    constructor <;> intro a
    all_goals exact .throw
  | succ n ih =>
    exact ⟨fun _ => ih.stmt_succ, fun _ => ih.alternatives_succ, fun _ => ih.block_succ,
      fun _ => ih.stmts_succ⟩

theorem body_yields : Yields (body n) a fun _ b => Composes .recognized .stmts a b := by
  induction n generalizing a with
  | zero => exact .throw
  | succ n ih =>
    rw [body]
    refine .kind ?_
    split
    · exact .pure .done
    · refine ((soundStmts n).stmt a).bind fun _ b hb => ?_
      exact ih.weaken fun _ c hc => .next hb hc

theorem fields_yields : Yields (fields n) a fun _ b => Fields .recognized a b := by
  induction n generalizing a with
  | zero => exact .throw
  | succ n ih =>
    rw [fields]
    refine .sees (fun _ => .pure .done) fun _ => dataType_yields.bind fun _ b hb => ?_
    refine .eat_bind (by decide) fun c hc => .eat_bind (by decide) fun d hd => ?_
    subst hc hd
    exact ih.weaken fun _ e he => .next (hb.1 rfl) he

theorem moreParameters_yields :
    Yields (moreParameters n) a fun _ b => MoreParameters .recognized a b := by
  induction n generalizing a with
  | zero => exact .throw
  | succ n ih =>
    rw [moreParameters]
    refine .sees (fun hk => ?_) fun _ => .pure .done
    obtain ⟨b, rfl⟩ := eq_cons_of_front hk (by decide)
    refine .advance_bind (dataType_yields.bind fun _ c hc => .eat_bind (by decide) fun d hd => ?_)
    subst hd
    exact ih.weaken fun _ e he => .next (hc.1 rfl) he

theorem parameters_yields : Yields (parameters n) a fun _ b => Parameters .recognized a b := by
  rw [parameters]
  refine .sees (fun _ => .pure .none) fun _ => dataType_yields.bind fun _ b hb => ?_
  refine .eat_bind (by decide) fun c hc => ?_
  subst hc
  exact moreParameters_yields.weaken fun _ d hd => .some (hb.1 rfl) hd

theorem structDef_yields : Yields (structDef n) a fun _ b => Defines .recognized a b := by
  refine .eat_bind (by decide) fun b hb => .eat_bind (by decide) fun c hc =>
    .eat_bind (by decide) fun d hd => fields_yields.bind fun _ e he => ?_
  refine (Yields.eat (by decide)).weaken fun _ f hf => ?_
  subst hb hc hd hf
  exact .struct he

theorem funDef_yields : Yields (funDef n) a fun _ b => Defines .recognized a b := by
  have hrest (b : List Kind) (hb : front b = .id → Results .recognized a b) : Yields (do
      eat .id; eat .lparen; parameters n; expect .rparen .parametersEnd; eat .lbrace; body n
      expect .rbrace .bodyEnd) b fun _ c => Defines .recognized a c := by
    refine .eat_bind (by decide) fun c hc => .eat_bind (by decide) fun d hd => ?_
    refine parameters_yields.bind fun _ e he => .expect_bind (by decide) fun f hf => ?_
    refine .eat_bind (by decide) fun g hg => body_yields.bind fun _ i hi => ?_
    refine (Yields.expect (by decide)).weaken fun _ j hj => ?_
    subst hc hd hf hg hj
    exact .function (hb rfl) he hi
  rw [funDef]
  refine .kind ?_
  have htype (hk : opensType (front a)) : Yields (dataType n >>= fun _ => do
      eat .id; eat .lparen; parameters n; expect .rparen .parametersEnd; eat .lbrace; body n
      expect .rbrace .bodyEnd) a fun _ c => Defines .recognized a c :=
    dataType_yields.bind fun _ b hb => hrest b fun h => .value hk (hb.1 h)
  have hvoid (hk : front a = .voidType) : Yields (advance >>= fun _ => do
      eat .id; eat .lparen; parameters n; expect .rparen .parametersEnd; eat .lbrace; body n
      expect .rbrace .bodyEnd) a fun _ c => Defines .recognized a c := by
    obtain ⟨b, rfl⟩ := eq_cons_of_front hk (by decide)
    exact .advance_bind (hrest b fun _ => .nothing)
  cases hk : front a <;> first
    | exact htype (by rw [hk]; rfl)
    | exact hvoid hk
    | exact (Yields.reject (R := fun _ _ => False)).bind fun _ _ h => h.elim

theorem definitions_yields : Yields (definitions n) a fun _ b =>
    Definitions .recognized a b ∧ front b = .eos := by
  induction n generalizing a with
  | zero => exact .throw
  | succ n ih =>
    have hstruct : Yields (structDef n >>= fun _ => definitions n) a fun _ b =>
        Definitions .recognized a b ∧ front b = .eos :=
      structDef_yields.bind fun _ b hb => ih.weaken fun _ c hc => ⟨.next hb hc.1, hc.2⟩
    have hfunction : Yields (funDef n >>= fun _ => definitions n) a fun _ b =>
        Definitions .recognized a b ∧ front b = .eos :=
      funDef_yields.bind fun _ b hb => ih.weaken fun _ c hc => ⟨.next hb hc.1, hc.2⟩
    rw [definitions]
    refine .kind ?_
    cases hk : front a <;> first
      | exact .pure ⟨.done, hk⟩
      | exact hstruct
      | exact hfunction

end StackLang.Recognizer
