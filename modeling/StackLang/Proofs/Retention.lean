import StackLang.Proofs.Wording

namespace StackLang

open Grammar (Clause)

/-- Names and literals. All other kinds are fixed words and signs. -/
@[simp] def Token.Kind.carries : Token.Kind → Bool
  | .id | .intVal | .doubleVal | .boolVal | .stringVal | .nullVal => true
  | _ => false

def carried (l : List Token) : List Token := l.filter (·.kind.carries)

/-- The tokens behind the first operand. -/
def Expr.tailTokens (e : Expr) : List Token := e.op.toList ++ tokensIfAny e.rest

section Carried

variable {a b : List Token}

@[simp] theorem carried_nil : carried [] = [] := rfl

@[simp] theorem carried_append : carried (a ++ b) = carried a ++ carried b := List.filter_append ..

theorem carried_cons {t : Token} :
    carried (t :: a) = if t.kind.carries then t :: carried a else carried a := List.filter_cons

theorem carried_cons_congr {t : Token} (h : carried a = carried b) :
    carried (t :: a) = carried (t :: b) := by
  rw [carried_cons, carried_cons, h]

theorem mem_carried {t : Token} : t ∈ carried a ↔ t ∈ a ∧ t.kind.carries := List.mem_filter

end Carried

namespace Concrete

open Token

section Signs

variable {a : List Token}

@[simp] theorem carried_sign {k : Kind} (t : Sign k) :
    carried (t.val :: a) = if k.carries then t.val :: carried a else carried a := by
  rw [carried_cons, t.2]

theorem carries_of_isOperator {k : Kind} (h : k.isOperator) : k.carries = false := by
  cases k <;> first | rfl | cases h

@[simp] theorem carried_operator (t : Operator) : carried (t.val :: a) = carried a := by
  rw [carried_cons, carries_of_isOperator t.2, if_neg Bool.false_ne_true]

end Signs

/-- The tokens in what a phrase is made into. -/
@[simp] def Tree.tokens : (part : Grammar.Part) → Tree part → List Token
  | .expr, e => Expr.tokens e
  | .value, t => Term.tokens t
  | .content, c => tokensIfAny c.1 ++ listTokens c.2
  | .arguments, l | .others, l => exprTokens l
  | .index, i => tokensIfAny i
  | .selectors, l => refTokens l

theorem tokens_negate (e : Expr) : e.negate.tokens = e.tokens := by
  cases e
  rfl

theorem Phrase.carried_tokens {part : Grammar.Part} (c : Phrase part) :
    carried c.tokens = carried (Tree.tokens part c.tree) := by
  induction c with
  | operand v ih =>
    simpa [Phrase.tokens, Phrase.tree, Expr.operand, Expr.tokens, tokensIfAny] using ih
  | operation v op r ih ih' =>
    simp only [Tree.tokens] at ih ih'
    simp [Phrase.tokens, Phrase.tree, Expr.tokens, tokensIfAny, ih, ih']
  | negation sign e ih => simpa [Phrase.tokens, Phrase.tree, tokens_negate] using ih
  | literal | noContent | noArguments | noOthers | noIndex | noSelectors => rfl
  | group p e ih => simpa [Phrase.tokens, Phrase.tree, Term.tokens, Pair.around] using ih
  | creation sign type c ih =>
    simp only [Tree.tokens] at ih
    have htype := carried_cons_congr (t := type.val) ih
    simpa [Phrase.tokens, Phrase.tree, Term.tokens, type.2] using htype
  | untyped sign seen h c ih =>
    simp only [Tree.tokens] at ih
    simpa [Phrase.tokens, Phrase.tree, Term.tokens, h] using ih
  | path name i l ih ih' =>
    simp only [Tree.tokens] at ih ih'
    simp [Phrase.tokens, Phrase.tree, Term.tokens, refTokens, ih, ih']
  | record p l ih | array p l ih =>
    simpa [Phrase.tokens, Phrase.tree, tokensIfAny, listTokens, Pair.around] using ih
  | arguments e l ih ih' =>
    simp only [Tree.tokens] at ih ih'
    simp [Phrase.tokens, Phrase.tree, exprTokens, ih, ih']
  | others sign e l ih ih' =>
    simp only [Tree.tokens] at ih ih'
    simp [Phrase.tokens, Phrase.tree, exprTokens, ih, ih']
  | index b e ih => simpa [Phrase.tokens, Phrase.tree, tokensIfAny, Pair.around] using ih
  | selectors sign name i l ih ih' =>
    simp only [Tree.tokens] at ih ih'
    simp [Phrase.tokens, Phrase.tree, refTokens, ih, ih']

/-- Of the tokens `a`, each one that carries something is kept in `x` or lost in `l`. -/
def Accounts (a x l : List Token) : Prop :=
  ∃ kept, (carried a).Perm (kept ++ l) ∧ ∀ t, t ∈ kept ↔ t ∈ carried x

section Accounts

variable {a b x y l m : List Token}

theorem accounts_of_eq (h : carried a = carried x) : Accounts a x [] :=
  ⟨carried a, by rw [List.append_nil], fun t => by rw [h]⟩

theorem accounts_lost (a : List Token) : Accounts a [] (carried a) := ⟨[], .refl _, fun _ => .rfl⟩

theorem Accounts.append (ha : Accounts a x l) (hb : Accounts b y m) :
    Accounts (a ++ b) (x ++ y) (l ++ m) := by
  obtain ⟨kept, hperm, hkept⟩ := ha
  obtain ⟨kept', hperm', hkept'⟩ := hb
  refine ⟨kept ++ kept', ?_, fun t => ?_⟩
  · rw [carried_append]
    apply (hperm.append hperm').trans
    simp only [List.append_assoc]
    exact (List.perm_append_comm_assoc l kept' m).append_left kept
  · rw [carried_append, List.mem_append, List.mem_append, hkept, hkept']

theorem Accounts.cons (t : Token) (h : Accounts a x l) : Accounts (t :: a) (t :: x) l :=
  (accounts_of_eq (a := [t]) rfl).append h

theorem Accounts.congr (h : Accounts a x l) (ha : carried b = carried a)
    (hx : ∀ t, t ∈ carried y ↔ t ∈ carried x) : Accounts b y l := by
  obtain ⟨kept, hperm, hkept⟩ := h
  exact ⟨kept, ha ▸ hperm, fun t => (hkept t).trans (hx t).symm⟩

end Accounts

section Behind

variable {e : Expr} {t : Term} {r : Expr}

theorem tokens_eq : e.tokens = e.first.tokens ++ e.tailTokens := by
  cases e
  rfl

theorem tokens_withFirst : (e.withFirst t).tokens = t.tokens ++ e.tailTokens := by
  cases e
  rfl

theorem tokens_withRest :
    (e.withRest r).tokens = e.first.tokens ++ (e.op.toList ++ r.tokens) := by
  cases e
  rfl

theorem first_withFirst : (e.withFirst t).first = t := by
  cases e
  rfl

theorem tailTokens_negate : e.negate.tailTokens = e.tailTokens := by
  cases e
  rfl

end Behind

section Head

variable {name : Sign .id} {i : Phrase .index} {l : Phrase .selectors}

theorem carried_of_path {v : Phrase .value} (h : v.head? = some (name, i, l)) :
    carried v.tokens = name.val :: carried (i.tokens ++ l.tokens) := by
  cases v with
  | path =>
    cases h
    simp [Phrase.tokens]
  | literal | group | creation | untyped => cases h

theorem carried_of_head? : (c : Phrase .expr) → c.head? = some (name, i, l) → carried c.tokens =
      name.val :: (carried (i.tokens ++ l.tokens) ++ carried (Expr.tailTokens c.tree))
  | .operand v, h => by
    have hv := carried_of_path h
    simpa [Phrase.tokens, Phrase.tree, Expr.operand, Expr.tailTokens, Expr.op, Expr.rest, tokensIfAny]
      using hv
  | .operation v op r, h => by
    have hv := carried_of_path h
    have hr := r.carried_tokens
    simp only [Tree.tokens] at hr
    simp [Phrase.tokens, Phrase.tree, Expr.tailTokens, Expr.op, Expr.rest, tokensIfAny, hv, hr]
  | .negation sign e, h => by
    have ih := carried_of_head? e h
    simpa [Phrase.tokens, Phrase.tree, tailTokens_negate] using ih

end Head

theorem carried_of_rest? {d : Phrase .expr} :
    (c : Phrase .expr) → c.rest? = some d → carried c.tokens =
      carried (Term.tokens (Expr.first c.tree)) ++
        (carried (Expr.op c.tree).toList ++ carried d.tokens)
  | .operation v op r, h => by
    cases h
    have hv := v.carried_tokens
    simpa [Phrase.tokens, Phrase.tree, Expr.first, Expr.op] using hv
  | .negation sign e, h => by
    have ih := carried_of_rest? e h
    simpa [Phrase.tokens, Phrase.tree, Parser.first_negate, Parser.op_negate] using ih

theorem tailTokens_of_rest? : (c : Phrase .expr) → c.rest? = none → Expr.tailTokens c.tree = []
  | .operand _, _ => rfl
  | .negation _ e, h => by
    rw [Phrase.tree, tailTokens_negate]
    exact tailTokens_of_rest? e h

namespace Callable

/-- Index and selectors of the path whose name is called. -/
def lost (e : Callable) : List Token := carried (e.index.tokens ++ e.selectors.tokens)

theorem carried_whole (e : Callable) :
    carried e.whole.tokens = e.name.val :: (e.lost ++ carried (Expr.tailTokens e.whole.tree)) :=
  carried_of_head? e.whole e.starts

end Callable

theorem accounts_call (e : Callable) {b m : List Token} {args : Option (List Expr)}
    (h : Accounts b (listTokens args) m) :
    Accounts (e.whole.tokens ++ b) (Expr.withFirst e.whole.tree (.call e.name args)).tokens
      (e.lost ++ m) := by
  have hpath := accounts_lost (e.index.tokens ++ e.selectors.tokens)
  have hbehind : Accounts (Expr.tailTokens e.whole.tree) (Expr.tailTokens e.whole.tree) [] :=
    accounts_of_eq rfl
  apply ((hpath.append (hbehind.append h)).cons e.name).congr
  · simp [e.carried_whole, Callable.lost]
  · intro t
    simp [tokens_withFirst, Term.tokens]
    tauto

namespace Given

def lost : Given → List Token
  | list _ _ => []
  | call _ e inner => e.lost ++ inner.lost

theorem accounts (g : Given) : Accounts g.tokens (exprTokens g.tree) g.lost := by
  induction g with
  | list p l =>
    apply accounts_of_eq
    simpa [tokens, tree, Pair.around] using l.carried_tokens
  | call p e inner ih =>
    have hcall : Accounts inner.tokens (listTokens (some inner.tree)) inner.lost := ih
    apply (accounts_call e hcall).congr
    · simp [tokens, Pair.around]
    · simp [tree, exprTokens]

theorem accounts_list (g : Given) : Accounts g.tokens (listTokens (some g.tree)) g.lost :=
  g.accounts

end Given

namespace Further

/-- Of several calls only the last one is kept. -/
def lost : List Further → List Token
  | [] => []
  | f :: l => if l.isEmpty then f.given.elim [] Given.lost else carried f.tokens ++ lost l

theorem first_trees (l : List Further) (e : Expr) : (trees e l).first = e.first := by
  induction l generalizing e with
  | nil => rfl
  | cons f l ih => rw [trees, ih, Expr.first]

theorem accounts_last (f : Further) :
    Accounts f.tokens f.tree.tokens (f.given.elim [] Given.lost) := by
  obtain ⟨op, name, given⟩ := f
  have hgiven : Accounts (given.elim [] Given.tokens) (listTokens (given.map Given.tree))
      (given.elim [] Given.lost) := by
    cases given with
    | none => exact accounts_of_eq rfl
    | some g => exact g.accounts
  apply (hgiven.cons name).congr
  · simp [tokens]
  · simp [tree, Expr.operand, Expr.tokens, Term.tokens, tokensIfAny]

theorem accounts (f : Further) (l : List Further) (e : Expr) :
    Accounts ((f :: l).flatMap tokens) (Expr.tailTokens (trees e (f :: l))) (lost (f :: l)) := by
  induction l generalizing f e with
  | nil =>
    apply f.accounts_last.congr
    · simp
    · simp [trees, Expr.tailTokens, Expr.op, Expr.rest, tokensIfAny]
  | cons g l ih =>
    have h := (accounts_lost f.tokens).append
      (ih g (.mk e.negated e.first (some f.op) (some f.tree)))
    apply h.congr
    · simp
    · simp [trees]

end Further

namespace Late

def lost : Late → List Token
  | plain _ => []
  | call e g => e.lost ++ g.lost
  | calls e _ g more => (e.lost ++ g.lost) ++ Further.lost more
  /- Of the operand behind the operator only the name at its head is kept. -/
  | last _ r _ g => (carried r.whole.tokens).tail ++ g.lost

theorem accounts (c : Late) : Accounts c.tokens c.tree.tokens c.lost := by
  cases c with
  | plain e => exact accounts_of_eq e.carried_tokens
  | call e g => exact accounts_call e g.accounts_list
  | calls e alone g more =>
    have hcall := accounts_call e g.accounts_list
    have hfirst : (Expr.withFirst e.whole.tree (.call e.name (some g.tree))).tokens =
        Term.tokens (.call e.name (some g.tree)) := by
      rw [tokens_withFirst, tailTokens_of_rest? _ alone, List.append_nil]
    cases more with
    | nil => simpa [tokens, lost, tree, Further.lost, Further.trees] using hcall
    | cons f l =>
      apply (hcall.append (Further.accounts f l _)).congr
      · simp [tokens]
      · intro t
        rw [tree, tokens_eq, Further.first_trees, first_withFirst, hfirst]
  | last e r h g =>
    have hbehind := accounts_lost (Expr.tailTokens r.whole.tree)
    have hpath := accounts_lost (r.index.tokens ++ r.selectors.tokens)
    have hfirst : Accounts (Expr.first e.tree).tokens (Expr.first e.tree).tokens [] :=
      accounts_of_eq rfl
    have hop : Accounts (Expr.op e.tree).toList (Expr.op e.tree).toList [] := accounts_of_eq rfl
    have hlost : (last e r h g).lost = carried (r.index.tokens ++ r.selectors.tokens) ++
        (carried (Expr.tailTokens r.whole.tree) ++ g.lost) := by
      rw [lost, r.carried_whole, List.tail_cons, List.append_assoc, Callable.lost]
    rw [hlost]
    have hcall := (hpath.append (hbehind.append g.accounts)).cons r.name
    apply (hfirst.append (hop.append hcall)).congr
    · simp [tokens, carried_of_rest? e h, r.carried_whole, Callable.lost]
    · simp [tree, tokens_withRest, Expr.operand, Expr.tokens, Term.tokens, listTokens, tokensIfAny]

end Late

namespace Var

def untyped? : Var → Bool
  | untyped _ => true
  | _ => false

theorem carried_tokens (named : Option Token) (c : Var) : carried (c.tree named).tokens =
    (if c.untyped? then carried named.toList else []) ++ carried c.tokens := by
  cases c with
  | typed type name =>
    cases type <;> simp [tree, tokens, untyped?, VarDef.tokens, DataType.tokens, Typed.tree,
      Typed.tokens]
  | untyped name => simp [tree, tokens, untyped?, VarDef.tokens, DataType.tokens]
  | nothing => rfl

end Var

namespace Declaration

def lost (d : Declaration) : List Token := d.init.elim [] (·.2.lost)

theorem accounts_init (d : Declaration) :
    Accounts (d.init.elim [] fun i => i.1.val :: i.2.tokens) (tokensIfAny (d.init.map (·.2.tree)))
      d.lost := by
  obtain ⟨var, init⟩ := d
  cases init with
  | none => exact accounts_of_eq rfl
  | some i =>
    apply i.2.accounts.congr
    · simp
    · exact fun _ => .rfl

theorem accounts (d : Declaration) : Accounts d.tokens (d.tree none).tokens d.lost := by
  have hvar : Accounts d.var.tokens (d.var.tree none).tokens [] :=
    accounts_of_eq (by simp [Var.carried_tokens])
  exact hvar.append d.accounts_init

theorem accounts_named (name : Sign .id) (d : Declaration) :
    Accounts (name :: d.tokens) (d.tree (some name)).tokens
      ((if d.var.untyped? then [] else [name.val]) ++ d.lost) := by
  cases hvar : d.var.untyped? with
  | false =>
    have h : Accounts d.var.tokens (d.var.tree (some name.val)).tokens [] :=
      accounts_of_eq (by simp [Var.carried_tokens, hvar])
    have hname : Accounts [name.val] [] [name.val] := by simpa using accounts_lost [name.val]
    exact hname.append (h.append d.accounts_init)
  | true =>
    have h : Accounts (name.val :: d.var.tokens) (d.var.tree (some name.val)).tokens [] :=
      accounts_of_eq (by simp [Var.carried_tokens, hvar])
    exact h.append d.accounts_init

end Declaration

theorem Setting.carried_tokens (name : Token) (s : Setting) :
    carried (name :: s.tokens) = carried (s.tree name).tokens := by
  have hindex := s.index.carried_tokens
  have hselectors := s.selectors.carried_tokens
  have hvalue := s.value.carried_tokens
  simp only [Tree.tokens] at hindex hselectors hvalue
  simp only [tokens, tree, Assign.tokens, refTokens, List.cons_append]
  apply carried_cons_congr
  simp [hindex, hselectors, hvalue]

/-- The tokens in what a clause is made into. -/
@[simp] def StmtTree.tokens : (clause : Clause) → StmtTree clause → List Token
  | .stmt, s => Stmt.tokens s
  | .stmts, l => stmtTokens l
  | .alternatives, x => branchTokens x.1 ++ stmtTokens x.2

theorem mem_echo (l : List Stmt) (t : Token) :
    t ∈ carried (stmtTokens (l.flatMap Parser.echo)) ↔ t ∈ carried (stmtTokens l) := by
  induction l with
  | nil => exact .rfl
  | cons s l ih =>
    cases s with
    | call name args =>
      have hexpr : Stmt.tokens (.expr (.mk none (.call name args) none none)) =
          Stmt.tokens (.call name args) := by
        simp [Expr.tokens, Term.tokens, Stmt.tokens, tokensIfAny]
      simp only [List.flatMap_cons, Parser.echo, List.cons_append, List.nil_append, stmtTokens,
        hexpr, carried_append, List.mem_append, ih]
      exact ⟨fun h => h.elim .inl id, .inr⟩
    | _ => simp [Parser.echo, stmtTokens, ih]

namespace Sentence

def lost : {clause : Clause} → Sentence clause → List Token
  | _, decl d _ => d.lost
  | _, named name d _ => (if d.var.untyped? then [] else [name.val]) ++ d.lost
  | _, assign _ _ _ => []
  | _, call _ g _ => g.lost
  | _, ret _ e _ => e.lost
  | _, loop _ _ _ _ body => body.lost
  | _, count _ _ init _ e _ _ _ _ body => init.lost ++ (e.lost ++ body.lost)
  | _, choice _ _ _ _ body others => body.lost ++ others.lost
  | _, done | _, neither => []
  | _, next s l => s.lost ++ l.lost
  | _, elseif _ _ _ _ body others => body.lost ++ others.lost
  | _, otherwise _ _ body => body.lost

theorem accounts {clause : Clause} (c : Sentence clause) :
    Accounts c.tokens (StmtTree.tokens clause c.tree) c.lost := by
  induction c with
  | decl d stop =>
    apply d.accounts.congr
    · simp [tokens]
    · exact fun _ => .rfl
  | named name d stop =>
    apply (d.accounts_named name).congr
    · simp [tokens]
    · exact fun _ => .rfl
  | assign name s stop =>
    apply (accounts_of_eq (s.carried_tokens name)).congr
    · simp [tokens]
    · exact fun _ => .rfl
  | call name g stop =>
    apply (g.accounts.cons name).congr
    · simp [tokens]
    · exact fun _ => .rfl
  | ret sign e stop =>
    apply e.accounts.congr
    · simp [tokens]
    · exact fun _ => .rfl
  | loop sign p e b body ih =>
    apply ((accounts_of_eq e.carried_tokens).append ih).congr
    · simp [tokens, Pair.around]
    · exact fun _ => .rfl
  | count sign p init stop e stop' name step b body ih =>
    have hstep := accounts_of_eq (step.carried_tokens name)
    apply (init.accounts.append (e.accounts.append (hstep.append ih))).congr
    · simp only [tokens, Pair.around, carried_append, carried_sign, Kind.carries, List.append_assoc,
        Bool.false_eq_true, if_false, List.cons_append]
      congr 2
      apply carried_cons_congr
      simp
    · exact fun _ => .rfl
  | choice sign p e b body others ih ih' =>
    apply ((accounts_of_eq e.carried_tokens).append (ih.append ih')).congr
    · simp [tokens, Pair.around]
    · exact fun _ => .rfl
  | done | neither => exact accounts_of_eq rfl
  | next s l ih ih' => exact ih.append ih'
  | elseif sign p e b body others ih ih' =>
    apply ((accounts_of_eq e.carried_tokens).append (ih.append ih')).congr
    · simp [tokens, Pair.around]
    · simp [tree, branchTokens, mem_echo]
  | otherwise sign b body ih =>
    apply ih.congr
    · simp [tokens, Pair.around]
    · simp [tree, branchTokens, mem_echo]

end Sentence

theorem Typed.carried_tokens (c : Typed) : carried c.tokens = carried c.tree.tokens := by
  cases c <;> simp [tokens, tree, DataType.tokens]

theorem Result.carried_tokens (c : Result) : carried c.tokens = carried c.tree.tokens := by
  cases c with
  | value type => exact type.carried_tokens
  | nothing sign => rfl

theorem Parameter.carried_tokens (p : Parameter) : carried p.tokens = carried p.tree.tokens := by
  simp [tokens, tree, VarDef.tokens, p.type.carried_tokens]

theorem Struct.carried_tokens (d : Struct) : carried d.tokens = carried d.tree.tokens := by
  have hfields : carried (d.fields.flatMap fun f => f.1.tokens ++ [f.2.val]) =
      carried ((d.fields.map (·.1.tree)).flatMap VarDef.tokens) := by
    induction d.fields with
    | nil => rfl
    | cons f l ih => simp [f.1.carried_tokens, ih]
  simp [tokens, tree, StructDef.tokens, Pair.around, hfields]

namespace Function

theorem carried_parameters (d : Function) :
    carried (d.params.elim [] fun l => l.1.tokens ++ l.2.flatMap fun m => m.1.val :: m.2.tokens) =
      carried ((d.parameters.map Parameter.tree).flatMap VarDef.tokens) := by
  have hmore (l : List (Sign .comma × Parameter)) :
      carried (l.flatMap fun m => m.1.val :: m.2.tokens) =
        carried (((l.map Prod.snd).map Parameter.tree).flatMap VarDef.tokens) := by
    induction l with
    | nil => rfl
    | cons m l ih => simp [m.2.carried_tokens, ih]
  unfold parameters
  cases d.params with
  | none => rfl
  | some l => simp [l.1.carried_tokens, hmore]

def lost (d : Function) : List Token := d.body.lost

theorem accounts (d : Function) : Accounts d.tokens d.tree.tokens d.lost := by
  have hhead : Accounts (d.result.tokens ++ [d.name.val])
      (d.result.tree.tokens ++ [d.name.val]) [] :=
    accounts_of_eq (by simp [d.result.carried_tokens])
  apply (hhead.append ((accounts_of_eq d.carried_parameters).append d.body.accounts)).congr
  · simp [tokens, Pair.around]
  · simp [tree, FunDef.tokens]

end Function

namespace Text

def lost (c : Text) : List Token := c.functions.flatMap Function.lost

theorem tree_cons_struct (d : Struct) (c : Text) :
    tree (.inl d :: c) = { tree c with structs := d.tree :: (tree c).structs } := rfl

theorem tree_cons_function (d : Function) (c : Text) :
    tree (.inr d :: c) = { tree c with functions := d.tree :: (tree c).functions } := rfl

theorem accounts (c : Text) : Accounts c.tokens c.tree.tokens c.lost := by
  induction c with
  | nil => exact accounts_of_eq rfl
  | cons d c ih =>
    cases d with
    | inl d =>
      apply ((accounts_of_eq d.carried_tokens).append ih).congr
      · rfl
      · simp [tree_cons_struct, Program.tokens]
    | inr d =>
      apply (d.accounts.append ih).congr
      · rfl
      · simp [tree_cons_function, Program.tokens, or_left_comm]

end Text

theorem Accounts.mem {a x l : List Token} (h : Accounts a x l) {t : Token} (ht : t ∈ carried x) :
    t ∈ a := by
  obtain ⟨kept, hperm, hkept⟩ := h
  have hmem : t ∈ carried a := hperm.mem_iff.2 (List.mem_append_left l ((hkept t).2 ht))
  exact (mem_carried.1 hmem).1

theorem Accounts.notMem {a x l : List Token} (h : Accounts a x l) (hnodup : (carried a).Nodup) :
    ∀ t ∈ l, t ∉ carried x := by
  obtain ⟨kept, hperm, hkept⟩ := h
  intro t ht hx
  have hapart := (List.nodup_append.1 (hperm.nodup_iff.1 hnodup)).2.2
  exact hapart t ((hkept t).2 hx) t ht rfl

theorem Text.Transcribes.carried_eq {c : Text} {source : Source} (h : c.Transcribes source) :
    carried (Lexer.ofSource source).tokens.tokens = carried c.tokens := by
  obtain ⟨t, ht, htokens⟩ := h.tokens
  have hsignificant : carried (Feed.significant (Lexer.ofSource source).tokens.tokens) =
      carried (Lexer.ofSource source).tokens.tokens := by
    unfold carried Feed.significant
    rw [List.filter_filter]
    apply List.filter_congr
    intro u _
    cases hk : u.kind <;> rfl
  rw [← hsignificant, htokens, carried_append, carried_cons, ht, carried_nil]
  exact List.append_nil _

end Concrete

namespace Parser

open Concrete

theorem exists_parsed {r : Except Failure Program} {q : Program → Prop} [DecidablePred q]
    (h : r.toOption.any fun p => q p) : ∃ p, r = .ok p ∧ q p := by
  cases r with
  | error => cases h
  | ok p => exact ⟨p, rfl, of_decide_eq_true h⟩

/-- Each name and literal of a program that is parsed is found in its tree, or it stands in one of
the places where it is lost. -/
theorem parse_retains {source : Source} {p : Program} (h : parse source = .ok p) :
    ∃ c : Text, c.Transcribes source ∧ c.tree = p ∧
      Accounts (Lexer.ofSource source).tokens.tokens p.tokens c.lost ∧
      ((carried (Lexer.ofSource source).tokens.tokens).Nodup →
        ∀ t ∈ c.lost, t ∉ carried p.tokens) := by
  obtain ⟨c, hwrites, rfl, -⟩ := exists_text h
  have haccounts : Accounts (Lexer.ofSource source).tokens.tokens c.tree.tokens c.lost :=
    c.accounts.congr hwrites.carried_eq fun _ => .rfl
  exact ⟨c, hwrites, rfl, haccounts, haccounts.notMem⟩

def adding : Source := .ofText "int main() \x7breturn f(1) + g(2) + h(3);\x7d"

/-- The second one is lost, and the others are kept. -/
theorem parse_retains_adding :
    ∃ p, parse adding = .ok p ∧
      p.tokens.map Token.lexeme = ["int", "main", "f", "1", "+", "h", "3"] ∧
      ∃ c : Text, c.Transcribes adding ∧ c.tree = p ∧
        Accounts (Lexer.ofSource adding).tokens.tokens p.tokens c.lost ∧
        ∀ t ∈ c.lost, t ∉ carried p.tokens := by
  obtain ⟨p, hp, htokens⟩ := exists_parsed (r := parse adding)
    (q := fun p => p.tokens.map Token.lexeme = ["int", "main", "f", "1", "+", "h", "3"])
    (by decide +kernel)
  have hdelivered : carried (Lexer.ofSource adding).tokens.tokens =
      [⟨.id, "main", 1, 5⟩, ⟨.id, "f", 1, 20⟩, ⟨.intVal, "1", 1, 22⟩, ⟨.id, "g", 1, 27⟩,
        ⟨.intVal, "2", 1, 29⟩, ⟨.id, "h", 1, 34⟩, ⟨.intVal, "3", 1, 36⟩] := by decide +kernel
  have hnodup : (carried (Lexer.ofSource adding).tokens.tokens).Nodup := by
    rw [hdelivered]
    decide
  obtain ⟨c, hwrites, htree, haccounts, hlost⟩ := parse_retains hp
  exact ⟨p, hp, htokens, c, hwrites, htree, haccounts, hlost hnodup⟩

/-- A name or literal of the source is not in its tree. -/
def Drops (source : String) : Prop :=
  ∃ p, parse (.ofText source) = .ok p ∧
    ∃ t ∈ carried (Lexer.ofSource (.ofText source)).tokens.tokens, t ∉ p.tokens

theorem drops_of {source : String} (t : Token)
    (hlexed : t ∈ carried (Lexer.ofSource (.ofText source)).tokens.tokens)
    (hparsed : (parse (.ofText source)).toOption.any fun p => t ∉ p.tokens) : Drops source := by
  obtain ⟨p, hp, ht⟩ := exists_parsed hparsed
  exact ⟨p, hp, t, hlexed, ht⟩

/-- Lost are a call between others, a name in front of a type, the selectors and the index of what
is called, and the name of a function that is called behind an operator. -/
theorem parse_drops :
    Drops "int main() \x7breturn f(1) + g(2) + h(3);\x7d" ∧
    Drops "void f() \x7ba int x;\x7d" ∧
    Drops "void f() \x7bint x = a.b[5]();\x7d" ∧
    Drops "void f() \x7bfor (int i = 0; i < a * g(i); i = i + 1) \x7b\x7d\x7d" := by
  refine ⟨?_, ?_, ?_, ?_⟩
  · exact drops_of ⟨.id, "g", 1, 27⟩ (by decide +kernel) (by decide +kernel)
  · exact drops_of ⟨.id, "a", 1, 11⟩ (by decide +kernel) (by decide +kernel)
  · exact drops_of ⟨.intVal, "5", 1, 23⟩ (by decide +kernel) (by decide +kernel)
  · exact drops_of ⟨.id, "g", 1, 35⟩ (by decide +kernel) (by decide +kernel)

end Parser
end StackLang
