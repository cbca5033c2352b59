import StackLang.Proofs.Concrete
import StackLang.Proofs.Languages
import StackLang.Proofs.Reprinting
import StackLang.Proofs.Spelling
import StackLang.Proofs.Termination

namespace StackLang

open Descent
open Grammar (Clause)

namespace Concrete

/-- Where the statement stands, the parser makes its tree of it. -/
def Sentence.Built (c : Sentence .stmt) : Prop :=
  ∃ b, Made Parser.Call.stmt (c.tokens ++ b) c.tree b

def Block.Built (d : Block) : Prop := ∀ s ∈ d.stmts, s.Built

/-- All statements of a list and of the blocks in it are built by themselves. -/
structure Sentence.AllBuilt {clause : Clause} (c : Sentence clause) : Prop where
  items : ∀ s ∈ c.items, s.Built
  blocks : ∀ d ∈ c.blocks, d.Built

theorem Sentence.AllBuilt.block {c : Sentence .stmts} (h : c.AllBuilt) (position : Position) :
    ∀ d ∈ ⟨position, c.items⟩ :: c.blocks, d.Built :=
  List.forall_mem_cons.2 ⟨h.items, h.blocks⟩

/-- The tokens `a` begin with a phrase that is made into `x`, and `b` stands behind it. -/
def Words (part : Grammar.Part) (a : List Token) (x : Tree part) (b : List Token) : Prop :=
  ∃ c : Phrase part, a = c.tokens ++ b ∧ c.tree = x

def Clauses (clause : Clause) (a : List Token) (x : StmtTree clause) (b : List Token) : Prop :=
  ∃ c : Sentence clause, a = c.tokens ++ b ∧ c.tree = x ∧ c.AllBuilt

/-- A type, with three ways to read it: an array may lack the type of its elements, as long as no
name follows, and the sign for no result is left in its place. -/
inductive Types : List Token → DataType → List Token → Prop
  | typed (c : Typed) (b : List Token) : Types (c.tokens ++ b) c.tree b
  | nothing (sign : Sign .voidType) (b : List Token) :
      Types (sign :: b) ⟨false, some sign⟩ (sign :: b)
  | untyped (sign : Sign .arrayKw) (x : DataType) (b : List Token)
      (h : ∀ t c, b = t :: c → t.kind ≠ .id) : Types (sign :: b) x b

/-- The source can be read to its end, and its tokens are those of the concrete syntax, comments and
end mark aside. -/
structure Text.Transcribes (c : Text) (source : Source) : Prop where
  readable : (Lexer.ofSource source).tokens.failure = none
  tokens : ∃ t, t.kind = .eos ∧
    Feed.significant (Lexer.ofSource source).tokens.tokens = c.tokens ++ [t]

end Concrete

namespace Parser

open Concrete

@[simp] def Call.spelled : Contract Call
  | _, .expr, a, e, b => Words .expr a e b
  | _, .operation first, a, e, b => (a = b ∧ e = .operand first) ∨
    ∃ (op : Operator) (c : Phrase .expr), a = op.val :: (c.tokens ++ b) ∧
      e = .mk (some false) first (some op) (some c.tree)
  | _, .operand, a, t, b =>
    (∀ u, Fronts a u → u.kind.isLiteral ∨ u.kind = .newKw ∨ u.kind = .id) →
      Words .value a t b
  | _, .creation, a, t, b => Words .value a t b
  | _, .moreArguments, a, l, b => Words .others a l b
  | _, .index, a, i, b => (a = b ∧ i = none ∧ ∀ t, Fronts a t → t.kind ≠ .lbracket) ∨
    ∃ (p : Brackets) (e : Phrase .expr), a = p.around e.tokens ++ b ∧ i = some e.tree
  | _, .selectors, a, l, b => Words .selectors a l b
  | _, .path name, a, l, b => ∃ (i : Phrase .index) (c : Phrase .selectors),
    a = i.tokens ++ (c.tokens ++ b) ∧ l = .mk name i.tree :: c.tree
  | _, .callee e, a, t, b => a = b ∧ ∃ i l, e.first = .path (.mk t i :: l)
  | _, .arguments, a, l, b => (a = b ∧ l = none ∧ ∀ t, Fronts a t → t.kind ≠ .lparen) ∨
    ∃ g : Given, a = g.tokens ++ b ∧ l = some g.tree
  | _, .returnedCalls e, a, x, b => b = [] ∨
    ∃ l : List Further, a = l.flatMap Further.tokens ++ b ∧ x = Further.trees e l
  | _, .dataType _, a, x, b => Types a x b
  | _, .stmt, a, x, b => Clauses .stmt a x b
  | _, .alternatives, a, x, b => Clauses .alternatives a x b
  | _, .block, a, x, b => ∃ (p : Braces) (c : Sentence .stmts), a = p.around c.tokens ++ b ∧
    c.tree = x ∧ c.AllBuilt
  | _, .stmts, a, x, b => Clauses .stmts a x b
  | _, .body, a, x, b => Clauses .stmts a x b
  | _, .fields, a, x, b => ∃ l : List (Parameter × Sign .semicolon),
    a = (l.flatMap fun f => f.1.tokens ++ [f.2.val]) ++ b ∧ x = l.map (·.1.tree)
  | _, .moreParameters, a, x, b => ∃ l : List (Sign .comma × Parameter),
    a = (l.flatMap fun m => m.1.val :: m.2.tokens) ++ b ∧ x = l.map (·.2.tree)
  | _, .definitions, a, x, b =>
    (∃ c : Text, a = c.tokens ++ b ∧ x = c.tree ∧ ∀ d ∈ c.blocks, d.Built) ∧
      ∀ t, Fronts b t → t.kind = .eos

section

variable {a : List Token}

theorem first_negate (e : Expr) : e.negate.first = e.first := by
  cases e
  rfl

theorem op_negate (e : Expr) : e.negate.op = e.op := by
  cases e
  rfl

theorem rest_negate (e : Expr) : e.negate.rest = e.rest := by
  cases e
  rfl

abbrev Call.Spelled {β : Type} (c : Call β) : Prop :=
  ∀ a, (plan c).Spells Call.spelled.Met a (c.spelled a)

theorem fronts_unique {t u : Token} (ht : Fronts a t) (hu : Fronts a u) (h : t.kind ≠ .eos) :
    t = u := by
  obtain ⟨b, rfl⟩ := ht.eq_cons h
  exact hu.symm

attribute [local simp] Phrase.tokens Sentence.tokens

theorem words_of_operation {v : Phrase .value} {a b : List Token} {e : Expr}
    (h : Call.spelled (.operation v.tree) a e b) : Words .expr (v.tokens ++ a) e b := by
  obtain ⟨rfl, rfl⟩ | ⟨op, c, rfl, rfl⟩ := h
  · exact ⟨.operand v, rfl, rfl⟩
  · exact ⟨.operation v op c, by simp, rfl⟩

theorem expr_spelled : Call.Spelled .expr := by
  intro a
  simp only [Call.plan, spells_bind, spells_kind]
  intro t ht
  split
  case h_8 hk =>
    obtain ⟨b, rfl⟩ := ht.eq_cons (by rw [hk]; decide)
    rintro _ b ⟨⟨c, rfl, rfl⟩, -⟩
    exact ⟨.negation ⟨t, hk⟩ c, rfl, rfl⟩
  case h_9 hk =>
    obtain ⟨b, rfl⟩ := ht.eq_cons (by rw [hk]; decide)
    simp only [spells_bind, spells_advance, spells_call, spells_expect, ne_eq, reduceCtorEq,
      not_false_eq_true, List.tail_cons]
    rintro _ _ ⟨⟨c, rfl, rfl⟩, -⟩ t' b rfl hk' e b' ⟨he, -⟩
    have h := words_of_operation (v := .group ⟨⟨t, hk⟩, ⟨t', hk'⟩⟩ c) he
    simpa [Pair.around] using h
  case h_10 => exact spells_reject
  all_goals
    rename_i hk
    rintro x _ ⟨hx, -⟩ e b ⟨he, -⟩
    obtain ⟨v, rfl, rfl⟩ := hx fun u hu => by
      rw [← fronts_unique ht hu (by rw [hk]; decide), hk]
      decide
    exact words_of_operation he

theorem operation_spelled (first : Term) : Call.Spelled (.operation first) := by
  intro a
  simp only [Call.plan, spells_bind, spells_look, spells_ite, spells_advance, spells_call,
    spells_pure]
  refine fun t ht => ⟨fun hop => ?_, fun _ => .inl ⟨rfl, rfl⟩⟩
  obtain ⟨b, rfl⟩ := ht.eq_cons (Token.Kind.ne_eos_of_isOperator hop)
  rintro _ b ⟨⟨c, rfl, rfl⟩, -⟩
  exact .inr ⟨⟨t, hop⟩, c, rfl, rfl⟩

theorem operand_spelled : Call.Spelled .operand := by
  intro a
  simp only [Call.plan, spells_bind, spells_kind]
  intro t ht
  split
  case h_1 => exact fun x b h _ => h.1
  case h_2 =>
    simp only [spells_bind, spells_take, spells_call, spells_pure, ne_eq, reduceCtorEq,
      not_false_eq_true]
    rintro t _ rfl hk l b ⟨⟨i, c, rfl, rfl⟩, -⟩ -
    exact ⟨.path ⟨t, hk⟩ i c, by simp, rfl⟩
  case h_3 hnew hid =>
    simp only [spells_bind, spells_look, spells_advance, spells_pure]
    intro u hu hopens
    have hliteral : t.kind.isLiteral := (hopens t ht).resolve_right fun h => h.elim hnew hid
    obtain ⟨b, rfl⟩ := ht.eq_cons (by rintro h; rw [h] at hliteral; cases hliteral)
    obtain rfl : u = t := hu
    exact ⟨.literal ⟨u, hliteral⟩, rfl, rfl⟩

/-- What the parser does behind the type of a creation. -/
def Plan.content (type : Token) : Descent Call Term := do
  match ← kind with
  | .lparen =>
    advance
    if ← sees .rparen then
      advance
      return .create type none (some [])
    let first ← call .expr
    let others ← call .moreArguments
    eat .rparen
    return .create type none (some (first :: others))
  | .lbracket => return .create type (← call .index) none
  | _ => return .create type none (some [])

theorem content_spelled (type : Token) {Q : Term → List Token → Prop}
    (hQ : ∀ (c : Phrase .content) b, a = c.tokens ++ b → Q (.create type c.tree.1 c.tree.2) b) :
    (Plan.content type).Spells Call.spelled.Met a Q := by
  simp only [Plan.content, spells_bind, spells_kind]
  intro t ht
  split
  case h_1 hk =>
    obtain ⟨a, rfl⟩ := ht.eq_cons (by rw [hk]; decide)
    simp only [spells_bind, spells_advance, spells_sees, spells_ite, spells_call, spells_eat,
      spells_pure, ne_eq, reduceCtorEq, not_false_eq_true, List.tail_cons, beq_iff_eq]
    refine fun t' ht' => ⟨fun hk' => ?_, fun _ => ?_⟩
    · obtain ⟨b, rfl⟩ := ht'.eq_cons (by rw [hk']; decide)
      exact hQ (.record ⟨⟨t, hk⟩, ⟨t', hk'⟩⟩ .noArguments) b rfl
    · rintro _ _ ⟨⟨e, rfl, rfl⟩, -⟩ _ _ ⟨⟨l, rfl, rfl⟩, -⟩ t' b rfl hk'
      apply hQ (.record ⟨⟨t, hk⟩, ⟨t', hk'⟩⟩ (.arguments e l)) b
      simp [Pair.around]
  case h_2 hk =>
    rintro _ b ⟨⟨-, -, hne⟩ | ⟨p, e, rfl, rfl⟩, -⟩
    · exact (hne t ht hk).elim
    · exact hQ (.array p e) b rfl
  case h_3 => exact hQ .noContent a rfl

theorem ne_eos_of_namesType {k : Token.Kind} (h : k = .id ∨ k.isBaseType) : k ≠ .eos := by
  rintro rfl
  simp [Token.Kind.isBaseType] at h

theorem creation_spelled : Call.Spelled .creation := by
  intro a
  simp only [Call.plan, spells_bind, spells_eat, spells_look, spells_ite, spells_advance, ne_eq,
    reduceCtorEq, not_false_eq_true]
  rintro t a rfl hk u hu
  have hnames : (u.kind = .id ∨ u.kind.isBaseType) ↔ u.kind.namesType := by
    simp [Token.Kind.namesType]
  refine ⟨fun htype => ?_, fun htype => ?_⟩
  · obtain ⟨a, rfl⟩ := hu.eq_cons (ne_eos_of_namesType htype)
    refine content_spelled u fun c b hb => ⟨.creation ⟨t, hk⟩ ⟨u, hnames.1 htype⟩ c, ?_, rfl⟩
    rw [List.tail_cons] at hb
    rw [hb]
    rfl
  · refine content_spelled u fun c b hb => ?_
    refine ⟨.untyped ⟨t, hk⟩ u (Bool.eq_false_iff.2 fun h => htype (hnames.2 h)) c, ?_, rfl⟩
    rw [hb]
    rfl

theorem moreArguments_spelled : Call.Spelled .moreArguments := by
  intro a
  simp only [Call.plan, spells_bind, spells_sees, spells_ite, spells_advance, spells_call,
    spells_pure, beq_iff_eq]
  refine fun t ht => ⟨fun hk => ?_, fun _ => ⟨.noOthers, rfl, rfl⟩⟩
  obtain ⟨a, rfl⟩ := ht.eq_cons (by rw [hk]; decide)
  rintro _ _ ⟨⟨e, he, rfl⟩, -⟩ _ b ⟨⟨l, rfl, rfl⟩, -⟩
  obtain rfl : a = _ := he
  exact ⟨.others ⟨t, hk⟩ e l, by simp, rfl⟩

theorem index_spelled : Call.Spelled .index := by
  intro a
  simp only [Call.plan, spells_bind, spells_sees, spells_ite, spells_advance, spells_call,
    spells_eat, spells_pure, beq_iff_eq, ne_eq, reduceCtorEq, not_false_eq_true]
  refine fun t ht => ⟨fun hk => ?_, fun hk => .inl ⟨rfl, rfl, fun u hu hu' => hk ?_⟩⟩
  · obtain ⟨a, rfl⟩ := ht.eq_cons (by rw [hk]; decide)
    rintro _ _ ⟨⟨e, he, rfl⟩, -⟩ t' b rfl hk'
    obtain rfl : a = _ := he
    exact .inr ⟨⟨⟨t, hk⟩, ⟨t', hk'⟩⟩, e, by simp [Pair.around], rfl⟩
  · rw [← fronts_unique hu ht (by rw [hu']; decide), hu']

theorem words_of_index {a b : List Token} {i : Option Expr} (h : Call.spelled .index a i b) :
    Words .index a i b := by
  obtain ⟨rfl, rfl, -⟩ | ⟨p, e, rfl, rfl⟩ := h
  · exact ⟨.noIndex, rfl, rfl⟩
  · exact ⟨.index p e, rfl, rfl⟩

theorem selectors_spelled : Call.Spelled .selectors := by
  intro a
  simp only [Call.plan, spells_bind, spells_sees, spells_ite, spells_advance, spells_call,
    spells_take, spells_pure, beq_iff_eq, ne_eq, reduceCtorEq, not_false_eq_true]
  refine fun t ht => ⟨fun hk => ?_, fun _ => ⟨.noSelectors, rfl, rfl⟩⟩
  obtain ⟨a, rfl⟩ := ht.eq_cons (by rw [hk]; decide)
  rintro name a' ha hname _ _ ⟨hi, -⟩ _ b ⟨⟨l, rfl, rfl⟩, -⟩
  obtain ⟨i, rfl, rfl⟩ := words_of_index hi
  obtain rfl : a = _ := ha
  exact ⟨.selectors ⟨t, hk⟩ ⟨name, hname⟩ i l, by simp, rfl⟩

theorem path_spelled (name : Token) : Call.Spelled (.path name) := by
  intro a
  simp only [Call.plan, spells_bind, spells_call, spells_pure]
  rintro _ _ ⟨hi, -⟩ _ b ⟨⟨l, rfl, rfl⟩, -⟩
  obtain ⟨i, rfl, rfl⟩ := words_of_index hi
  exact ⟨i, l, rfl, rfl⟩

theorem callee_spelled (e : Expr) : Call.Spelled (.callee e) := by
  intro a
  simp only [Call.plan]
  split
  case h_1 r l hfirst => exact ⟨rfl, r.index, l, by cases r; exact hfirst⟩
  all_goals exact spells_fail

theorem head?_of_tree {v : Phrase .value} {r : Ref} {l : List Ref} (h : v.tree = .path (r :: l)) :
    ∃ j, v.head? = some j ∧ j.1.val = r.name := by
  cases v with
  | path name i l =>
    cases h
    exact ⟨(name, i, l), rfl, rfl⟩
  | literal | group | creation | untyped => cases h

theorem head?_of_first {r : Ref} {l : List Ref} :
    (c : Phrase .expr) → Expr.first c.tree = .path (r :: l) →
      ∃ j, c.head? = some j ∧ j.1.val = r.name
  | .operand _, h => head?_of_tree h
  | .operation _ _ _, h => head?_of_tree h
  | .negation _ e, h => head?_of_first e (by rwa [Phrase.tree, first_negate] at h)

/-- Where a path is called, the phrase that was read starts with it. -/
theorem exists_callable {c : Phrase .expr} {t : Token}
    (h : ∃ i l, Expr.first c.tree = .path (.mk t i :: l)) :
    ∃ e : Callable, e.whole = c ∧ e.name.val = t := by
  obtain ⟨i, l, h⟩ := h
  obtain ⟨⟨name, index, selectors⟩, hj, ht⟩ := head?_of_first c h
  exact ⟨⟨c, name, index, selectors, hj⟩, rfl, ht⟩

/-- Where a parenthesis follows an expression, it is taken for a call. -/
theorem called {c : Phrase .expr} {t : Token} {P : Token → Option (List Expr) → List Token → Prop}
    (ht : Fronts a t) (hparen : t.kind = .lparen)
    (h : ∀ (e : Callable) (g : Given) b, e.whole = c → a = g.tokens ++ b →
      P e.name (some g.tree) b) :
    ∀ name b, Call.spelled.Met (.callee c.tree) a name b →
      ∀ args b', Call.spelled.Met .arguments b args b' → P name args b' := by
  rintro name _ ⟨⟨rfl, hcallee⟩, -⟩ args b ⟨hargs, -⟩
  obtain ⟨e, he, rfl⟩ := exists_callable hcallee
  obtain ⟨-, -, hne⟩ | ⟨g, hb, rfl⟩ := hargs
  · exact (hne t ht hparen).elim
  · exact h e g b he hb

theorem arguments_spelled : Call.Spelled .arguments := by
  intro a
  simp only [Call.plan, spells_bind, spells_sees, spells_ite, spells_advance, spells_call,
    spells_kind, spells_expect, spells_pure, beq_iff_eq, ne_eq, reduceCtorEq, not_false_eq_true]
  refine fun t ht => ⟨fun hk => ?_, fun hk => .inl ⟨rfl, rfl, fun u hu hu' => hk ?_⟩⟩
  · obtain ⟨a, rfl⟩ := ht.eq_cons (by rw [hk]; decide)
    intro u hu
    rw [List.tail_cons]
    refine ⟨fun _ => ?_, fun _ => ?_⟩
    · rintro _ b ⟨⟨c, rfl, rfl⟩, -⟩ v hv
      refine ⟨fun hparen => ?_, fun _ => ?_⟩
      · refine called hv hparen ?_
        rintro e g _ rfl rfl t' b rfl hk'
        exact .inr ⟨.call ⟨⟨t, hk⟩, ⟨t', hk'⟩⟩ e g, by simp [Given.tokens, Pair.around], rfl⟩
      · rintro _ _ ⟨⟨l, rfl, rfl⟩, -⟩ t' b rfl hk'
        refine .inr ⟨.list ⟨⟨t, hk⟩, ⟨t', hk'⟩⟩ (.arguments c l), ?_, rfl⟩
        simp [Given.tokens, Pair.around]
    · rintro t' b rfl hk'
      exact .inr ⟨.list ⟨⟨t, hk⟩, ⟨t', hk'⟩⟩ .noArguments, rfl, rfl⟩
  · rw [← fronts_unique hu ht (by rw [hu']; decide), hu']

theorem exists_of_arguments {b : List Token} {l : Option (List Expr)}
    (h : Call.spelled .arguments a l b) :
    ∃ g : Option Given, a = g.elim [] Given.tokens ++ b ∧ l = g.map Given.tree := by
  obtain ⟨rfl, rfl, -⟩ | ⟨g, rfl, rfl⟩ := h
  · exact ⟨none, rfl, rfl⟩
  · exact ⟨some g, rfl, rfl⟩

theorem returnedCalls_spelled (e : Expr) : Call.Spelled (.returnedCalls e) := by
  intro a
  simp only [Call.plan, spells_bind, spells_look, spells_ite, spells_advance, spells_call,
    spells_pure]
  refine fun op hop => ⟨fun hk name hname => ?_, fun _ => .inr ⟨[], rfl, rfl⟩⟩
  obtain ⟨a, rfl⟩ := hop.eq_cons (Token.Kind.ne_eos_of_isOperator hk)
  rw [List.tail_cons] at hname ⊢
  rintro _ c ⟨hargs, -⟩ x b ⟨hb, -⟩
  obtain ⟨g, ha, rfl⟩ := exists_of_arguments hargs
  obtain rfl | ⟨l, rfl, rfl⟩ := hb
  · exact .inl rfl
  · cases a with
    | nil =>
      -- No token is left for the name, so nothing is left behind the call.
      simp only [List.tail_nil, List.nil_eq, List.append_eq_nil_iff] at ha
      exact .inl ha.2.2
    | cons t a =>
      obtain rfl : name = t := hname
      rw [List.tail_cons] at ha
      exact .inr ⟨⟨⟨op, hk⟩, name, g⟩ :: l, by simp [Further.tokens, ha], rfl⟩

theorem dataType_spelled (place : TypeSite) : Call.Spelled (.dataType place) := by
  intro a
  simp only [Call.plan, spells_bind, spells_look]
  intro t ht
  split
  case h_6 hk =>
    obtain ⟨b, rfl⟩ := ht.eq_cons (by rw [hk]; decide)
    exact .nothing ⟨t, hk⟩ b
  case h_7 hk =>
    obtain ⟨b, rfl⟩ := ht.eq_cons (by rw [hk]; decide)
    simp only [spells_bind, spells_advance, spells_look, spells_ite, spells_pure, List.tail_cons]
    refine fun e he => ⟨fun hname => ?_, fun hname => .untyped ⟨t, hk⟩ _ b ?_⟩
    · obtain ⟨c, rfl⟩ := he.eq_cons (ne_eos_of_namesType hname)
      exact .typed (.array ⟨t, hk⟩ ⟨e, by simpa [Token.Kind.namesType] using hname⟩) c
    · rintro u c rfl hu
      obtain rfl : e = u := he
      exact hname (.inl hu)
  case h_8 => exact spells_fail
  all_goals
    rename_i hk
    obtain ⟨b, rfl⟩ := ht.eq_cons (by rw [hk]; decide)
    exact .typed (.plain ⟨t, by rw [hk]; rfl⟩) b

theorem typed_of_types {b : List Token} {x : DataType} {t : Token} (h : Types a x (t :: b))
    (ht : t.kind = .id) : ∃ c : Typed, a = c.tokens ++ t :: b ∧ c.tree = x := by
  cases h with
  | typed c => exact ⟨c, rfl, rfl⟩
  | nothing sign => cases ht.symm.trans sign.2
  | untyped _ _ _ h => exact (h t b rfl ht).elim

theorem nothing_of_types {b : List Token} {x : DataType} {t : Token} (h : Types (t :: a) x b)
    (ht : t.kind = .voidType) : b = t :: a ∧ x = ⟨false, some t⟩ := by
  generalize hfront : t :: a = a' at h
  cases h with
  | typed c =>
    cases c with
    | plain u =>
      cases hfront
      have hu := u.2
      rw [ht] at hu
      cases hu
    | array sign =>
      cases hfront
      cases ht.symm.trans sign.2
  | nothing sign =>
    cases hfront
    exact ⟨rfl, rfl⟩
  | untyped sign =>
    cases hfront
    cases ht.symm.trans sign.2

theorem declared_spelled (named : Option Token) {Q : VarDef → List Token → Prop}
    (hQ : ∀ (c : Var) b, a = c.tokens ++ b → Q (c.tree named) b) :
    (Plan.declared named).Spells Call.spelled.Met a Q := by
  simp only [Plan.declared, spells_bind, spells_look, spells_ite, spells_call, spells_take,
    spells_advance, spells_pure, ne_eq, reduceCtorEq, not_false_eq_true]
  refine fun t ht => ⟨fun _ => ?_, fun _ => ⟨fun hk => ?_, fun _ => hQ .nothing a rfl⟩⟩
  · rintro x _ ⟨hx, -⟩ name b rfl hname
    obtain ⟨c, rfl, rfl⟩ := typed_of_types hx hname
    exact hQ (.typed c ⟨name, hname⟩) b (by simp [Var.tokens])
  · obtain ⟨b, rfl⟩ := ht.eq_cons (by rw [hk]; decide)
    exact hQ (.untyped ⟨t, hk⟩) b rfl

theorem declaration_spelled (named : Option Token) {Q : VarDecl → List Token → Prop}
    (hQ : ∀ (c : Declaration) b, a = c.tokens ++ b → Q (c.tree named) b) :
    (Plan.declaration named).Spells Call.spelled.Met a Q := by
  simp only [Plan.declaration, spells_bind]
  refine declared_spelled named ?_
  rintro c b rfl
  simp only [spells_sees, spells_ite, spells_bind, spells_advance, spells_call, spells_pure,
    beq_iff_eq]
  refine fun t ht => ⟨fun hk => ?_, fun _ => hQ ⟨c, none⟩ b (by simp [Declaration.tokens])⟩
  obtain ⟨b, rfl⟩ := ht.eq_cons (by rw [hk]; decide)
  rw [List.tail_cons]
  rintro _ d ⟨⟨e, rfl, rfl⟩, -⟩ u hu
  refine ⟨fun hparen => ?_, fun _ => ?_⟩
  · refine called hu hparen ?_
    rintro e g b rfl rfl
    exact hQ ⟨c, some (⟨t, hk⟩, .call e g)⟩ b (by simp [Declaration.tokens, Late.tokens])
  · exact hQ ⟨c, some (⟨t, hk⟩, .plain e)⟩ d (by simp [Declaration.tokens, Late.tokens])

theorem assignment_spelled (name : Token) {Q : Assign → List Token → Prop}
    (hQ : ∀ (c : Setting) b, a = c.tokens ++ b → Q (c.tree name) b) :
    (Plan.assignment name).Spells Call.spelled.Met a Q := by
  simp only [Plan.assignment, spells_bind, spells_call, spells_eat, spells_pure, ne_eq,
    reduceCtorEq, not_false_eq_true]
  rintro _ _ ⟨⟨i, l, rfl, rfl⟩, -⟩ t _ rfl hk _ b ⟨⟨e, rfl, rfl⟩, -⟩
  exact hQ ⟨i, l, ⟨t, hk⟩, e⟩ b (by simp [Setting.tokens])

theorem rest?_of_rest {r : Expr} :
    (c : Phrase .expr) → Expr.rest c.tree = some r → ∃ d, c.rest? = some d ∧ d.tree = r
  | .operand _, h => by cases h
  | .operation _ _ d, h => ⟨d, rfl, Option.some.inj h⟩
  | .negation _ e, h => rest?_of_rest e (by rwa [Phrase.tree, rest_negate] at h)

theorem rest?_of_op : (c : Phrase .expr) → (Expr.op c.tree).isNone → c.rest? = none
  | .operand _, _ => rfl
  | .operation _ _ _, h => by cases h
  | .negation _ e, h => rest?_of_op e (by rwa [Phrase.tree, op_negate] at h)

theorem callInRest_spelled {c : Phrase .expr} {t : Token} {Q : Expr → List Token → Prop}
    (ht : Fronts a t) (hparen : t.kind = .lparen)
    (hQ : ∀ (r : Callable) (h : c.rest? = some r.whole) (g : Given) b, a = g.tokens ++ b →
      Q (Late.last c r h g).tree b) :
    (Plan.callInRest c.tree).Spells Call.spelled.Met a Q := by
  unfold Plan.callInRest
  split
  · exact spells_fail
  · rename_i r hr
    obtain ⟨d, hd, rfl⟩ := rest?_of_rest c hr
    refine called ht hparen ?_
    rintro r g b rfl rfl
    exact hQ r hd g b rfl

theorem condition_spelled {Q : Expr → List Token → Prop}
    (hQ : ∀ (c : Late) b, a = c.tokens ++ b → Q c.tree b) :
    Plan.condition.Spells Call.spelled.Met a Q := by
  simp only [Plan.condition, spells_bind, spells_call, spells_sees, spells_ite, spells_pure,
    beq_iff_eq]
  rintro _ d ⟨⟨e, rfl, rfl⟩, -⟩ u hu
  refine ⟨fun hparen => ⟨fun _ => ?_, fun _ => ?_⟩, fun _ => hQ (.plain e) d rfl⟩
  · refine called hu hparen ?_
    rintro e g b rfl rfl
    exact hQ (.call e g) b (by simp [Late.tokens])
  · refine callInRest_spelled hu hparen fun r h g b hb => hQ (.last e r h g) b ?_
    simp [Late.tokens, hb]

theorem returned_spelled {Q : Expr → List Token → Prop}
    (hQ : ∀ (c : Late) b, a = c.tokens ++ b → Q c.tree b) (hnil : ∀ e, Q e []) :
    Plan.returned.Spells Call.spelled.Met a Q := by
  simp only [Plan.returned, spells_bind, spells_call]
  rintro _ d ⟨⟨e, rfl, rfl⟩, -⟩
  split
  · simp only [spells_bind, spells_sees, spells_ite, spells_call, spells_pure, beq_iff_eq]
    refine fun u hu => ⟨fun hparen => ⟨fun hop => ?_, fun _ => ?_⟩, fun _ => hQ (.plain e) d rfl⟩
    · refine called hu hparen ?_
      rintro e g _ rfl rfl x b ⟨rfl | ⟨l, rfl, rfl⟩, -⟩
      · exact hnil x
      · exact hQ (.calls e (rest?_of_op e.whole hop) g l) b (by simp [Late.tokens])
    · refine callInRest_spelled hu hparen fun r h g b hb => hQ (.last e r h g) b ?_
      simp [Late.tokens, hb]
  · exact hQ (.plain e) d rfl

theorem clauses_of_blocks {b : List Token} (c : Sentence .stmt) (ha : a = c.tokens ++ b)
    (hitems : c.items = []) (hblocks : ∀ d ∈ c.blocks, d.Built) : Clauses .stmt a c.tree b :=
  ⟨c, ha, rfl, hitems ▸ List.forall_mem_nil _, hblocks⟩

theorem clauses_of_plain {b : List Token} (c : Sentence .stmt) (ha : a = c.tokens ++ b)
    (hitems : c.items = []) (hblocks : c.blocks = []) : Clauses .stmt a c.tree b :=
  clauses_of_blocks c ha hitems (hblocks ▸ List.forall_mem_nil _)

/-- What the parser does behind the parenthesis of a counting loop. -/
def Plan.counting : Descent Call Stmt := do
  let init ← Plan.declaration none
  eat .semicolon
  let e ← Plan.condition
  eat .semicolon
  let name ← look
  advance
  let step ← Plan.assignment name
  eat .rparen
  return .count init e step (← call .block)

theorem counting_spelled (sign : Sign .forKw) (left : Sign .lparen) :
    Plan.counting.Spells Call.spelled.Met a (Clauses .stmt (sign :: left :: a)) := by
  simp only [Plan.counting, spells_bind, spells_eat, spells_look, spells_advance, spells_call,
    spells_pure, ne_eq, reduceCtorEq, not_false_eq_true]
  refine declaration_spelled none ?_
  rintro init _ rfl stop a rfl hstop
  refine condition_spelled ?_
  rintro e _ rfl stop' a rfl hstop' name hname
  refine assignment_spelled name ?_
  rintro step _ ha r _ rfl hr _ b ⟨⟨p, c, rfl, rfl, hc⟩, -⟩
  cases a with
  | nil => simp [Setting.tokens] at ha
  | cons u a =>
    obtain rfl : name = u := hname
    obtain rfl : a = _ := ha
    refine clauses_of_blocks (.count sign ⟨left, ⟨r, hr⟩⟩ init ⟨stop, hstop⟩ e ⟨stop', hstop'⟩ name
      step p c) ?_ rfl (hc.block .count)
    simp [Pair.around]

/-- What the parser does behind a name that begins a statement. -/
def Plan.named (name : Token) : Descent Call Stmt := do
  let s ←
    match ← kind with
    | .lparen => pure (.call name (← call .arguments))
    | .lbrace | .dot | .assign | .lbracket => pure (.assign (← Plan.assignment name))
    | _ => pure (.decl (← Plan.declaration (some name)))
  eat .semicolon
  return s

theorem named_spelled (name : Sign .id) :
    (Plan.named name).Spells Call.spelled.Met a (Clauses .stmt (name :: a)) := by
  simp only [Plan.named, spells_bind, spells_kind]
  intro t ht
  split
  case h_1 hk =>
    simp only [spells_bind, spells_call, spells_eat, spells_pure, ne_eq, reduceCtorEq,
      not_false_eq_true]
    rintro _ _ ⟨⟨-, -, hne⟩ | ⟨g, rfl, rfl⟩, -⟩ stop b rfl hstop
    · exact (hne t ht hk).elim
    · exact clauses_of_plain (.call name g ⟨stop, hstop⟩) (by simp) rfl rfl
  case h_6 =>
    simp only [spells_bind, spells_eat, spells_pure, ne_eq, reduceCtorEq, not_false_eq_true]
    refine declaration_spelled (some name.val) ?_
    rintro d _ rfl stop b rfl hstop
    exact clauses_of_plain (.named name d ⟨stop, hstop⟩) (by simp) rfl rfl
  all_goals
    simp only [spells_bind, spells_eat, spells_pure, ne_eq, reduceCtorEq, not_false_eq_true]
    refine assignment_spelled name ?_
    rintro s _ rfl stop b rfl hstop
    exact clauses_of_plain (.assign name s ⟨stop, hstop⟩) (by simp) rfl rfl

theorem stmt_spelled : Call.Spelled .stmt := by
  intro a
  simp only [Call.plan, spells_bind, spells_kind]
  intro t ht
  split
  case h_1 hk =>
    obtain ⟨a, rfl⟩ := ht.eq_cons (by rw [hk]; decide)
    simp only [spells_bind, spells_advance, spells_eat, spells_sees, spells_ite, spells_reject,
      spells_call, spells_pure, ne_eq, reduceCtorEq, not_false_eq_true, List.tail_cons,
      implies_true, true_and]
    rintro l a rfl hl u - - _ _ ⟨⟨e, rfl, rfl⟩, -⟩ r a rfl hr _ b ⟨⟨p, c, rfl, rfl, hc⟩, -⟩
    refine clauses_of_blocks (.loop ⟨t, hk⟩ ⟨⟨l, hl⟩, ⟨r, hr⟩⟩ e p c) ?_ rfl (hc.block .loop)
    simp [Pair.around]
  case h_4 hk =>
    obtain ⟨a, rfl⟩ := ht.eq_cons (by rw [hk]; decide)
    simp only [spells_bind, spells_advance, spells_eat, spells_sees, spells_ite, spells_reject,
      spells_call, spells_pure, ne_eq, reduceCtorEq, not_false_eq_true, List.tail_cons,
      implies_true, true_and]
    rintro l a rfl hl u - - _ _ ⟨⟨e, rfl, rfl⟩, -⟩ r a rfl hr _ _ ⟨⟨p, c, rfl, rfl, hc⟩, -⟩ _ b
      ⟨⟨d, rfl, rfl, -, hd⟩, -⟩
    refine clauses_of_blocks (.choice ⟨t, hk⟩ ⟨⟨l, hl⟩, ⟨r, hr⟩⟩ e p c d) ?_ rfl
      (List.forall_mem_append.2 ⟨hc.block .first, hd⟩)
    simp [Pair.around]
  case h_5 hk =>
    obtain ⟨a, rfl⟩ := ht.eq_cons (by rw [hk]; decide)
    rw [spells_bind, spells_advance, spells_bind, spells_eat (by decide)]
    rintro l a rfl hl
    exact counting_spelled ⟨t, hk⟩ ⟨l, hl⟩
  case h_6 hk =>
    obtain ⟨a, rfl⟩ := ht.eq_cons (by rw [hk]; decide)
    simp only [spells_bind, spells_advance, spells_eat, spells_pure, ne_eq, reduceCtorEq,
      not_false_eq_true, List.tail_cons]
    refine returned_spelled ?_ (fun _ _ _ h => by cases h)
    rintro e _ rfl stop b rfl hstop
    exact clauses_of_plain (.ret ⟨t, hk⟩ e ⟨stop, hstop⟩) (by simp) rfl rfl
  case h_7 | h_8 | h_9 | h_10 | h_11 =>
    simp only [spells_bind, spells_eat, spells_pure, ne_eq, reduceCtorEq, not_false_eq_true]
    refine declaration_spelled none ?_
    rintro d _ rfl stop b rfl hstop
    exact clauses_of_plain (.decl d ⟨stop, hstop⟩) (by simp) rfl rfl
  case h_12 hk =>
    rw [spells_bind, spells_take (by decide)]
    rintro name a rfl hname
    exact named_spelled ⟨name, hname⟩
  case h_2 | h_3 | h_13 => exact spells_reject

theorem alternatives_spelled : Call.Spelled .alternatives := by
  intro a
  simp only [Call.plan, spells_bind, spells_kind]
  intro t ht
  split
  case h_1 hk =>
    obtain ⟨a, rfl⟩ := ht.eq_cons (by rw [hk]; decide)
    simp only [spells_bind, spells_advance, spells_eat, spells_call, spells_pure, ne_eq,
      reduceCtorEq, not_false_eq_true, List.tail_cons]
    rintro l a rfl hl _ _ ⟨⟨e, rfl, rfl⟩, -⟩ r a rfl hr _ _ ⟨⟨p, c, rfl, rfl, hc⟩, -⟩ _ b
      ⟨⟨d, rfl, rfl, -, hd⟩, -⟩
    refine ⟨.elseif ⟨t, hk⟩ ⟨⟨l, hl⟩, ⟨r, hr⟩⟩ e p c d, ?_, rfl, List.forall_mem_nil _,
      List.forall_mem_append.2 ⟨hc.block .elseif, hd⟩⟩
    simp [Pair.around]
  case h_2 hk =>
    obtain ⟨a, rfl⟩ := ht.eq_cons (by rw [hk]; decide)
    rintro _ b ⟨⟨p, c, ha, rfl, hc⟩, -⟩
    obtain rfl : a = _ := ha
    exact ⟨.otherwise ⟨t, hk⟩ p c, rfl, rfl, List.forall_mem_nil _, hc.block .otherwise⟩
  case h_3 =>
    refine ⟨.neither, rfl, rfl, List.forall_mem_nil _, ?_⟩
    exact List.forall_mem_singleton.2 (List.forall_mem_nil _)

theorem block_spelled : Call.Spelled .block := by
  intro a
  simp only [Call.plan, spells_bind, spells_eat, spells_call, spells_pure, ne_eq, reduceCtorEq,
    not_false_eq_true]
  rintro l a rfl hl _ _ ⟨⟨c, rfl, rfl, hc⟩, -⟩ r b rfl hr
  exact ⟨⟨⟨l, hl⟩, ⟨r, hr⟩⟩, c, by simp [Pair.around], rfl, hc⟩

theorem clauses_next {a b c : List Token} {x : Stmt} {l : List Stmt}
    (hx : Call.spelled.Met .stmt a x b) (hl : Clauses .stmts b l c) :
    Clauses .stmts a (x :: l) c := by
  obtain ⟨⟨s, rfl, rfl, -, hs⟩, hmade⟩ := hx
  obtain ⟨m, rfl, rfl, hm, hm'⟩ := hl
  refine ⟨.next s m, by simp, rfl, ?_, List.forall_mem_append.2 ⟨hs, hm'⟩⟩
  exact List.forall_mem_cons.2 ⟨⟨_, hmade⟩, hm⟩

theorem clauses_done : Clauses .stmts a [] a :=
  ⟨.done, rfl, rfl, List.forall_mem_nil _, List.forall_mem_nil _⟩

theorem stmts_spelled : Call.Spelled .stmts := by
  intro a
  simp only [Call.plan, spells_bind, spells_sees, spells_ite, spells_call, spells_pure]
  refine fun t _ => ⟨fun _ => clauses_done, fun _ x b hx l c hl => ?_⟩
  exact clauses_next hx hl.1

theorem body_spelled : Call.Spelled .body := by
  intro a
  simp only [Call.plan, spells_bind, spells_kind, spells_ite, spells_call, spells_pure]
  refine fun t _ => ⟨fun _ => clauses_done, fun _ x b hx l c hl => ?_⟩
  exact clauses_next hx hl.1

theorem exists_parameter {x : DataType} {t : Token} {b : List Token} {place : TypeSite}
    (h : Call.spelled.Met (.dataType place) a x (t :: b)) (ht : t.kind = .id) :
    ∃ p : Parameter, a = p.tokens ++ b ∧ p.tree = ⟨some x, some t⟩ := by
  obtain ⟨c, rfl, rfl⟩ := typed_of_types h.1 ht
  exact ⟨⟨c, ⟨t, ht⟩⟩, by simp [Parameter.tokens], rfl⟩

theorem fields_spelled : Call.Spelled .fields := by
  intro a
  simp only [Call.plan, spells_bind, spells_sees, spells_ite, spells_call, spells_take, spells_eat,
    spells_pure, ne_eq, reduceCtorEq, not_false_eq_true]
  refine fun t _ => ⟨fun _ => ⟨[], rfl, rfl⟩, ?_⟩
  rintro - type _ htype name _ rfl hname stop _ rfl hstop _ b ⟨⟨l, rfl, rfl⟩, -⟩
  obtain ⟨p, rfl, hp⟩ := exists_parameter htype hname
  exact ⟨(p, ⟨stop, hstop⟩) :: l, by simp, by simp [hp]⟩

theorem moreParameters_spelled : Call.Spelled .moreParameters := by
  intro a
  simp only [Call.plan, Plan.parameter, spells_bind, spells_sees, spells_ite, spells_advance,
    spells_call, spells_take, spells_pure, ne_eq, reduceCtorEq, not_false_eq_true, beq_iff_eq]
  refine fun t ht => ⟨fun hk => ?_, fun _ => ⟨[], rfl, rfl⟩⟩
  obtain ⟨a, rfl⟩ := ht.eq_cons (by rw [hk]; decide)
  rintro type _ htype name _ rfl hname _ b ⟨⟨l, rfl, rfl⟩, -⟩
  obtain ⟨p, ha, hp⟩ := exists_parameter htype hname
  obtain rfl : a = _ := ha
  exact ⟨(⟨t, hk⟩, p) :: l, by simp, by simp [hp]⟩

theorem structDef_spelled {Q : StructDef → List Token → Prop}
    (hQ : ∀ (d : Struct) b, a = d.tokens ++ b → Q d.tree b) :
    Plan.structDef.Spells Call.spelled.Met a Q := by
  simp only [Plan.structDef, spells_bind, spells_eat, spells_take, spells_call, spells_pure, ne_eq,
    reduceCtorEq, not_false_eq_true]
  rintro t _ rfl ht name _ rfl hname l _ rfl hl _ _ ⟨⟨fs, rfl, rfl⟩, -⟩ r b rfl hr
  refine hQ ⟨⟨t, ht⟩, ⟨name, hname⟩, ⟨⟨l, hl⟩, ⟨r, hr⟩⟩, fs⟩ b ?_
  simp [Struct.tokens, Pair.around]

theorem returnType_spelled {Q : DataType → List Token → Prop}
    (hQ : ∀ x b, (∀ t c, b = t :: c → t.kind = .id → ∃ r : Result, a = r.tokens ++ b ∧ r.tree = x) →
      Q x b) : Plan.returnType.Spells Call.spelled.Met a Q := by
  simp only [Plan.returnType, spells_bind, spells_kind]
  intro t ht
  split
  case h_7 hk =>
    obtain ⟨a, rfl⟩ := ht.eq_cons (by rw [hk]; decide)
    simp only [spells_bind, spells_call, spells_advance, spells_pure]
    rintro x b ⟨hx, -⟩
    obtain ⟨rfl, rfl⟩ := nothing_of_types hx hk
    exact hQ _ _ fun u c _ _ => ⟨.nothing ⟨t, hk⟩, rfl, rfl⟩
  case h_8 => exact spells_reject
  all_goals
    rintro x b ⟨hx, -⟩
    refine hQ x b ?_
    rintro u c rfl hu
    obtain ⟨type, rfl, rfl⟩ := typed_of_types hx hu
    exact ⟨.value type, rfl, rfl⟩

theorem parameters_spelled {Q : List VarDef → List Token → Prop}
    (hQ : ∀ (l : Option (Parameter × List (Sign .comma × Parameter))) b,
      a = (l.elim [] fun l => l.1.tokens ++ l.2.flatMap fun m => m.1.val :: m.2.tokens) ++ b →
        Q ((l.elim [] fun l => l.1 :: l.2.map Prod.snd).map Parameter.tree) b) :
    Plan.parameters.Spells Call.spelled.Met a Q := by
  simp only [Plan.parameters, Plan.parameter, spells_bind, spells_sees, spells_ite, spells_call,
    spells_take, spells_pure, ne_eq, reduceCtorEq, not_false_eq_true]
  refine fun t _ => ⟨fun _ => hQ none a rfl, fun _ => ?_⟩
  rintro type _ htype name _ rfl hname _ b ⟨⟨l, rfl, rfl⟩, -⟩
  obtain ⟨p, rfl, hp⟩ := exists_parameter htype hname
  have h := hQ (some (p, l)) b (by simp)
  rwa [Option.elim_some, List.map_cons, List.map_map, hp] at h

theorem funDef_spelled {Q : FunDef → List Token → Prop}
    (hQ : ∀ (d : Function) b, a = d.tokens ++ b → (∀ s ∈ d.blocks, s.Built) → Q d.tree b) :
    Plan.funDef.Spells Call.spelled.Met a Q := by
  simp only [Plan.funDef, spells_bind]
  refine returnType_spelled fun x b hx => ?_
  simp only [spells_take, spells_eat, ne_eq, reduceCtorEq, not_false_eq_true]
  rintro name _ rfl hname l _ rfl hl
  obtain ⟨r, rfl, rfl⟩ := hx name _ rfl hname
  refine parameters_spelled ?_
  simp only [spells_expect, spells_call, spells_pure, ne_eq, reduceCtorEq, not_false_eq_true]
  rintro params _ rfl l' _ rfl hl' r' _ rfl hr' _ _ ⟨⟨c, rfl, rfl, hc⟩, -⟩ r'' b rfl hr''
  refine hQ ⟨r, ⟨name, hname⟩, ⟨⟨l, hl⟩, ⟨l', hl'⟩⟩, params, ⟨⟨r', hr'⟩, ⟨r'', hr''⟩⟩, c⟩ b ?_
    (hc.block .function)
  simp [Function.tokens, Pair.around]

theorem definitions_spelled : Call.Spelled .definitions := by
  intro a
  simp only [Call.plan, spells_bind, spells_kind]
  intro t ht
  split
  case h_1 hk =>
    refine ⟨⟨[], rfl, rfl, List.forall_mem_nil _⟩, fun u hu => ?_⟩
    cases a with
    | nil => exact hu
    | cons v a =>
      obtain rfl : t = v := ht
      obtain rfl : u = t := hu
      exact hk
  case h_2 =>
    rw [spells_bind]
    refine structDef_spelled ?_
    rintro d _ rfl x b ⟨⟨⟨c, rfl, rfl, hc⟩, hb⟩, -⟩
    refine ⟨⟨.inl d :: c, by simp [Text.tokens, Definition.tokens], rfl, hc⟩, hb⟩
  case h_3 =>
    rw [spells_bind]
    refine funDef_spelled ?_
    rintro d _ rfl hd x b ⟨⟨⟨c, rfl, rfl, hc⟩, hb⟩, -⟩
    refine ⟨⟨.inr d :: c, by simp [Text.tokens, Definition.tokens], rfl, ?_⟩, hb⟩
    exact List.forall_mem_append.2 ⟨hd, hc⟩

theorem spelled_honoured : Call.spelled.Honoured := by
  intro β c
  cases c with
  | expr => exact expr_spelled
  | operation first => exact operation_spelled first
  | operand => exact operand_spelled
  | creation => exact creation_spelled
  | moreArguments => exact moreArguments_spelled
  | index => exact index_spelled
  | selectors => exact selectors_spelled
  | path name => exact path_spelled name
  | callee e => exact callee_spelled e
  | arguments => exact arguments_spelled
  | returnedCalls e => exact returnedCalls_spelled e
  | dataType place => exact dataType_spelled place
  | stmt => exact stmt_spelled
  | alternatives => exact alternatives_spelled
  | block => exact block_spelled
  | stmts => exact stmts_spelled
  | body => exact body_spelled
  | fields => exact fields_spelled
  | moreParameters => exact moreParameters_spelled
  | definitions => exact definitions_spelled

end

theorem eq_nil_of_fronts {source : Source} {b : List Token}
    (hsuffix : b <:+ (Feed.ofSource source).ahead.map Reading.token)
    (hb : ∀ t, Fronts b t → t.kind = .eos) : b = [] := by
  cases b with
  | nil => rfl
  | cons t b =>
    have hkind : t.kind = .eos := hb t rfl
    have hmem := List.mem_map_of_mem (f := Token.kind) (hsuffix.subset List.mem_cons_self)
    rw [hkind, List.map_map] at hmem
    exact (Feed.eos_notMem_gather ((Lexer.ofSource source).rest.length + 1) none
      (Lexer.ofSource source) hmem).elim

/-- The tokens in front of the parser are concrete syntax of the tree that it makes. -/
theorem exists_ahead {source : Source} {p : Program} (h : parse source = .ok p) :
    ∃ c : Text, (Feed.ofSource source).ahead.map Reading.token = c.tokens ∧ c.tree = p ∧
      ∀ d ∈ c.blocks, d.Built := by
  obtain ⟨s, hs⟩ := program_of_parse h
  obtain ⟨r, l, hrun, hr, -⟩ := Parser.exists_runs source
  have hspells (a : List Token) : (do
      let p ← call Call.definitions
      eat .eos
      return p : Descent Call Program).Spells Call.spelled.Met a
        fun p _ => ∃ b, Call.definitions.spelled a p b := by
    simp only [spells_bind, spells_call]
    rintro p b ⟨hp, -⟩
    simp only [eat, expect, spells_bind, spells_sees, spells_ite, spells_advance, spells_pure,
      spells_reject, implies_true, and_true]
    exact fun _ _ _ => ⟨b, hp⟩
  cases hrun with
  | halt => cases hr.symm.trans hs
  | advance hadvance hrest =>
    obtain ⟨-, -, b, ⟨c, ha, rfl, hc⟩, hb⟩ := hrest.spells spelled_honoured (hr.symm.trans hs)
      (Feed.shows_of_advance hadvance) (hspells _)
    obtain rfl := eq_nil_of_fronts ⟨_, ha.symm⟩ hb
    exact ⟨c, by rw [ha, List.append_nil], rfl, hc⟩

theorem exists_text {source : Source} {p : Program} (h : parse source = .ok p) :
    ∃ c : Text, c.Transcribes source ∧ c.tree = p ∧ ∀ d ∈ c.blocks, d.Built := by
  obtain ⟨c, hc, htree, hbuilt⟩ := exists_ahead h
  have hfail := ((Parser.accepts_iff source).1 ⟨p, h⟩).1
  obtain ⟨t, -, -, ht, -, htokens⟩ := Feed.gather_listing
    ((Lexer.ofSource source).rest.length + 1) none (Lexer.ofSource source) hfail
  refine ⟨c, ⟨hfail, t, ht, ?_⟩, htree, hbuilt⟩
  rw [← hc]
  exact htokens

end Parser
end StackLang
