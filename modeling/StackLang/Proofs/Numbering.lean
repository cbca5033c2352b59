import StackLang.Proofs.References

namespace StackLang

namespace Offsets

def scope (o : Offsets) : List String := o.blocks.reverse.flatten

def Distinct (o : Offsets) : Prop := ∀ block ∈ o.blocks, block.Nodup

theorem scope_cons (block : List String) (outer : List (List String)) :
    scope ⟨block :: outer⟩ = scope ⟨outer⟩ ++ block := by
  simp [scope]

theorem scope_enter (o : Offsets) : o.enter.scope = o.scope := by
  rw [enter, scope_cons, List.append_nil]

theorem length_scope (o : Offsets) : o.scope.length = o.total := by
  simp [scope, total]

end Offsets

/-- A name stands for the variable behind these: none that was declared later is of that name. -/
def Bound (scope : List String) (name : String) (before : List String) : Prop :=
  ∃ after, scope = before ++ name :: after ∧ name ∉ after

namespace Offsets

variable {o : Offsets} {name : String}

theorem split_of_idxOf? {block : List String} {i : Nat} (hblock : block.Nodup)
    (hi : block.idxOf? name = some i) :
    ∃ before after, block = before ++ name :: after ∧ name ∉ after ∧ before.length = i := by
  have hmem : name ∈ block := by
    by_contra hname
    rw [List.idxOf?_eq_none_iff.2 hname] at hi
    cases hi
  obtain ⟨before, after, rfl⟩ := List.append_of_mem hmem
  obtain ⟨-, hafter, hdisjoint⟩ := List.nodup_append.1 hblock
  have hbefore : name ∉ before := fun h => hdisjoint name h name List.mem_cons_self rfl
  refine ⟨before, after, rfl, (List.nodup_cons.1 hafter).1, ?_⟩
  rw [idxOf?_append_cons hbefore] at hi
  exact Option.some.inj hi

theorem exists_bound (ho : o.Distinct) (hname : name ∈ o.scope) :
    ∃ before, Bound o.scope name before ∧ o.operand name = .int before.length := by
  obtain ⟨blocks⟩ := o
  induction blocks with
  | nil => simp [scope] at hname
  | cons block outer ih =>
    rw [scope_cons] at hname ⊢
    cases hi : block.idxOf? name with
    | some i =>
      obtain ⟨before, after, rfl, hafter, rfl⟩ :=
        split_of_idxOf? (ho block List.mem_cons_self) hi
      refine ⟨scope ⟨outer⟩ ++ before, ⟨after, (List.append_assoc ..).symm, hafter⟩, ?_⟩
      rw [List.length_append, length_scope]
      simp only [operand, offset?, find, hi]
      rfl
    | none =>
      have hblock : name ∉ block := List.idxOf?_eq_none_iff.1 hi
      have houter : name ∈ scope ⟨outer⟩ := (List.mem_append.1 hname).resolve_right hblock
      obtain ⟨before, ⟨after, hscope, hafter⟩, hoperand⟩ :=
        ih (fun b hb => ho b (List.mem_cons_of_mem _ hb)) houter
      refine ⟨before, ⟨after ++ block, ?_, ?_⟩, ?_⟩
      · rw [hscope, List.append_assoc, List.cons_append]
      · rw [List.mem_append, not_or]
        exact ⟨hafter, hblock⟩
      · rw [← hoperand]
        simp only [operand, offset?, find, hi]

theorem operand_last {k : Nat} (ho : o.Distinct) (hlen : o.scope.length = k + 1)
    (hlast : o.scope[k]? = some name) : o.operand name = .int k := by
  obtain ⟨before, ⟨after, hscope, hafter⟩, hoperand⟩ := exists_bound ho (List.mem_of_getElem? hlast)
  obtain rfl | ⟨init, x, rfl⟩ := List.eq_nil_or_concat' after
  · rw [hscope, List.length_append, List.length_singleton] at hlen
    rw [hoperand, Nat.succ.inj hlen]
  · rw [hscope, ← List.cons_append, ← List.append_assoc, List.length_append] at hlen
    rw [hscope, ← List.cons_append, ← List.append_assoc, ← Nat.succ.inj hlen,
      List.getElem?_concat_length] at hlast
    exact absurd (List.mem_append_right init (Option.some.inj hlast ▸ List.mem_singleton_self x))
      hafter

theorem operand_inj (ho : o.Distinct) {x y : String} (hx : x ∈ o.scope) (hy : y ∈ o.scope)
    (h : o.operand x = o.operand y) : x = y := by
  obtain ⟨before, ⟨after, hscope, -⟩, hbefore⟩ := exists_bound ho hx
  obtain ⟨before', ⟨after', hscope', -⟩, hbefore'⟩ := exists_bound ho hy
  rw [hbefore, hbefore'] at h
  have hlen : before.length = before'.length := by
    simpa only [Value.int.injEq, Int.natCast_inj] using h
  have hx : o.scope[before.length]? = some x := by rw [hscope]; simp
  have hy : o.scope[before'.length]? = some y := by rw [hscope']; simp
  rw [hlen, hy] at hx
  exact (Option.some.inj hx).symm

end Offsets

def ownDistinct (l : List Stmt) : Bool := (l.flatMap Stmt.declares).Nodup

mutual

def Stmt.distinct : Stmt → Bool
  | .loop _ body | .count _ _ _ body => ownDistinct body && distinctStmts body
  | .choice (.mk _ body) others otherwise =>
    ownDistinct body && distinctStmts body && distinctBranches others &&
      (ownDistinct otherwise && distinctStmts otherwise)
  | _ => true

def distinctStmts : List Stmt → Bool
  | [] => true
  | s :: l => s.distinct && distinctStmts l

def distinctBranches : List Branch → Bool
  | [] => true
  | .mk _ body :: l => ownDistinct body && distinctStmts body && distinctBranches l

end

/-- The variables that are declared where something is read or written. -/
def Reference.at? : Reference → Option Offsets
  | call .. => none
  | load _ o | store _ o => some o

def MadeAt (o : Offsets) (l : List Reference) : Prop := ∀ r ∈ l, ∀ o', r.at? = some o' → o' = o

theorem MadeAt.append {o : Offsets} {l l' : List Reference} (h : MadeAt o l) (h' : MadeAt o l') :
    MadeAt o (l ++ l') := by
  intro r hr
  obtain hr | hr := List.mem_append.1 hr
  · exact h r hr
  · exact h' r hr

theorem MadeAt.cons {o : Offsets} {l : List Reference} {name : String} (h : MadeAt o l) :
    MadeAt o (.load name o :: l) := by
  intro r hr o' ho'
  obtain rfl | hr := List.mem_cons.1 hr
  · exact (Option.some.inj ho').symm
  · exact h r hr o' ho'

theorem MadeAt.nil (o : Offsets) : MadeAt o [] := by
  intro r hr
  cases hr

theorem MadeAt.flatten {o : Offsets} {ls : List (List Reference)} (h : ∀ l ∈ ls, MadeAt o l) :
    MadeAt o ls.flatten := by
  intro r hr
  obtain ⟨l, hl, hr⟩ := List.mem_flatten.1 hr
  exact h l hl r hr

theorem MadeAt.call {o : Offsets} {name : String} {ls : List (List Reference)}
    (hall : MadeAt o ls.flatten) (hsome : ∀ n, MadeAt o (ls.take n).flatten) :
    MadeAt o (match builtInArguments? name with
      | some n => (ls.take n).flatten
      | none => ls.flatten ++ [.call name ls.length]) := by
  split
  · exact hsome _
  · refine hall.append fun r hr o' ho' => ?_
    obtain rfl := List.mem_singleton.1 hr
    cases ho'

section Expressions

variable (structs : List String) (o : Offsets)

mutual

theorem expr_madeAt : (e : Expr) → MadeAt o (e.references structs o)
  | .mk _ first op none => by
    simp only [Expr.references]
    split
    · exact .append (.nil o) (term_madeAt first)
    · exact .append (term_madeAt first) (.nil o)
  | .mk _ first op (some e) => by
    simp only [Expr.references]
    split
    · exact .append (expr_madeAt e) (term_madeAt first)
    · exact .append (term_madeAt first) (expr_madeAt e)

theorem term_madeAt : (t : Term) → MadeAt o (t.references structs o)
  | .literal _ => .nil o
  | .create _ (some e) _ => by
    simp only [Term.references]
    exact expr_madeAt e
  | .create _ none (some l) => by
    simp only [Term.references]
    exact .flatten (arguments_stay l)
  | .create _ none none => by
    simp only [Term.references]
    exact .nil o
  | .path refs => path_madeAt refs
  | .call name none => by
    simp only [Term.references]
    exact .call (.nil o) fun n => by rw [List.take_nil]; exact .nil o
  | .call name (some l) => by
    simp only [Term.references]
    exact .call (.flatten (arguments_stay l)) fun n =>
      .flatten fun a ha => arguments_stay l a (List.mem_of_mem_take ha)
  | .group e => expr_madeAt e

theorem arguments_stay : (l : List Expr) → ∀ a ∈ argumentReferences structs o l, MadeAt o a
  | [] => by
    intro a ha
    cases ha
  | e :: l => by
    intro a ha
    obtain rfl | ha := List.mem_cons.1 ha
    · exact expr_madeAt e
    · exact arguments_stay l a ha

theorem path_madeAt : (refs : List Ref) → MadeAt o (pathReferences structs o refs)
  | [] => .nil o
  | .mk _ none :: refs => .cons (.append (.nil o) (selectors_stay refs))
  | .mk _ (some e) :: refs => .cons (.append (expr_madeAt e) (selectors_stay refs))

theorem selectors_stay : (refs : List Ref) → MadeAt o (selectorReferences structs o refs)
  | [] => .nil o
  | .mk _ none :: refs => selectors_stay refs
  | .mk _ (some e) :: refs => by
    simp only [selectorReferences]
    refine .append (.append ?_ (expr_madeAt e)) (selectors_stay refs)
    split
    · exact .cons (.nil o)
    · exact .nil o

end

theorem madeAt_singleton (name : String) : MadeAt o [.store name o] := by
  intro r hr o' ho'
  obtain rfl := List.mem_singleton.1 hr
  exact (Option.some.inj ho').symm

theorem assign_madeAt (a : Assign) : MadeAt o (a.references structs o) := by
  obtain ⟨_ | ⟨⟨name, _ | e⟩, _ | ⟨r, refs⟩⟩, value⟩ := a
  · exact .nil o
  · exact .append (expr_madeAt structs o value) (madeAt_singleton o name.lexeme)
  · exact .cons (expr_madeAt structs o value)
  · exact .cons (.append (expr_madeAt structs o e) (.append (.nil o) (expr_madeAt structs o value)))
  · refine .cons (.append (expr_madeAt structs o e) (.append ?_ (expr_madeAt structs o value)))
    intro r' hr' o' ho'
    obtain ⟨ref, -, rfl⟩ := List.mem_map.1 hr'
    exact (Option.some.inj ho').symm

end Expressions

/-- The variables of `o'` are those of `o` and others that are declared by these references: each of
them is stored where it is the last one in scope. -/
structure Descends (l : List Reference) (o o' : Offsets) : Prop where
  distinct : o'.Distinct
  scope : o.scope <+: o'.scope
  stored : ∀ k x, o.scope.length ≤ k → o'.scope[k]? = some x →
    ∃ o'', .store x o'' ∈ l ∧ o''.Distinct ∧ o''.scope = o'.scope.take (k + 1)

/-- The variables at all these references beyond those of `o` are declared by them. -/
def Grounded (o : Offsets) (l : List Reference) : Prop :=
  ∀ r ∈ l, ∀ o', r.at? = some o' → Descends l o o'

section Grounded

variable {o o' : Offsets} {l l' : List Reference}

theorem Descends.mono (h : Descends l o o') (hl : l ⊆ l') : Descends l' o o' where
  distinct := h.distinct
  scope := h.scope
  stored k x hk hx := by
    obtain ⟨o'', hstore, ho''⟩ := h.stored k x hk hx
    exact ⟨o'', hl hstore, ho''⟩

theorem Grounded.append (h : Grounded o l) (h' : Grounded o l') : Grounded o (l ++ l') := by
  intro r hr o' ho'
  obtain hr | hr := List.mem_append.1 hr
  · exact (h r hr o' ho').mono (List.subset_append_left l l')
  · exact (h' r hr o' ho').mono (List.subset_append_right l l')

theorem MadeAt.grounded (h : MadeAt o l) (ho : o.Distinct) : Grounded o l := by
  intro r hr o' ho'
  obtain rfl := h r hr o' ho'
  refine ⟨ho, List.prefix_rfl, fun k x hk hx => ?_⟩
  have hlt := (List.getElem?_eq_some_iff.1 hx).1
  omega

theorem Grounded.of_enter (h : Grounded o.enter l) : Grounded o l := by
  intro r hr o' ho'
  obtain ⟨hdistinct, hscope, hstored⟩ := h r hr o' ho'
  rw [Offsets.scope_enter] at hscope hstored
  exact ⟨hdistinct, hscope, hstored⟩

theorem Grounded.declared {name : String} (hscope : o'.scope = o.scope ++ [name])
    (ho' : o'.Distinct) (hstore : .store name o' ∈ l) (h : Grounded o' l) : Grounded o l := by
  intro r hr o₁ ho₁
  obtain ⟨hdistinct, hbegins, hstored⟩ := h r hr o₁ ho₁
  have hlen : o'.scope.length = o.scope.length + 1 := by rw [hscope, List.length_append]; rfl
  refine ⟨hdistinct, .trans (hscope ▸ List.prefix_append _ _) hbegins, fun k x hk hx => ?_⟩
  by_cases hlast : k = o.scope.length
  · obtain ⟨rest, hrest⟩ := hbegins
    rw [← hrest, hscope, List.append_assoc, hlast] at hx
    obtain rfl : name = x := by simpa using hx
    refine ⟨o', hstore, ho', ?_⟩
    rw [← hrest, hlast, ← hlen, List.take_left]
  · exact hstored k x (by omega) hx

end Grounded

section Statements

open Generator

variable (structs : List String) {block : List String} {outer : List (List String)}
  {l : List Reference}

theorem distinct_cons :
    Offsets.Distinct ⟨block :: outer⟩ ↔ block.Nodup ∧ Offsets.Distinct ⟨outer⟩ :=
  List.forall_mem_cons

theorem distinct_of_append {names : List String}
    (h : Offsets.Distinct ⟨(block ++ names) :: outer⟩) : Offsets.Distinct ⟨block :: outer⟩ := by
  obtain ⟨hblock, houter⟩ := distinct_cons.1 h
  exact distinct_cons.2 ⟨(List.nodup_append.1 hblock).1, houter⟩

theorem varDecl_madeAt (d : VarDecl) : MadeAt ⟨(block ++ d.var.label) :: outer⟩
    (d.references structs ⟨block :: outer⟩) := by
  rw [VarDecl.references, declare_cons]
  refine MadeAt.append ?_ fun r hr o' ho' => ?_
  · cases d.init with
    | none => exact .nil _
    | some e => exact expr_madeAt structs _ e
  · obtain ⟨name, -, rfl⟩ := List.mem_map.1 hr
    exact (Option.some.inj ho').symm

theorem varDecl_grounded (d : VarDecl) (h : Offsets.Distinct ⟨(block ++ d.var.label) :: outer⟩)
    (hl : Grounded ⟨(block ++ d.var.label) :: outer⟩ l) :
    Grounded ⟨block :: outer⟩ (d.references structs ⟨block :: outer⟩ ++ l) := by
  have hall : Grounded ⟨(block ++ d.var.label) :: outer⟩
      (d.references structs ⟨block :: outer⟩ ++ l) :=
    ((varDecl_madeAt structs d).grounded h).append hl
  obtain ⟨⟨type, _ | t⟩, init⟩ := d
  · have hnone : block ++ VarDef.label ⟨type, none⟩ = block := List.append_nil block
    rwa [hnone] at hall
  · have hscope : Offsets.scope ⟨(block ++ [t.lexeme]) :: outer⟩ =
        Offsets.scope ⟨block :: outer⟩ ++ [t.lexeme] := by
      rw [Offsets.scope_cons, Offsets.scope_cons, List.append_assoc]
    refine hall.declared hscope h (List.mem_append_left _ (List.mem_append_right _ ?_))
    exact List.mem_singleton_self _

theorem Grounded.plain {names : List String} {l' : List Reference} (hnone : names = [])
    (hnames : Offsets.Distinct ⟨(block ++ names) :: outer⟩)
    (hl' : Grounded ⟨(block ++ names) :: outer⟩ l')
    (h : Offsets.Distinct ⟨block :: outer⟩ → Grounded ⟨block :: outer⟩ l) :
    Grounded ⟨block :: outer⟩ (l ++ l') := by
  rw [hnone, List.append_nil] at hnames hl'
  exact (h hnames).append hl'

theorem body_grounded {body : List Stmt} {o : Offsets} (ho : o.Distinct)
    (hown : ownDistinct body)
    (h : Offsets.Distinct ⟨([] ++ body.flatMap Stmt.declares) :: o.blocks⟩ →
      Grounded ⟨[] :: o.blocks⟩ (stmtReferences structs ⟨[] :: o.blocks⟩ body)) :
    Grounded o (stmtReferences structs o.enter body) := by
  refine .of_enter (h (distinct_cons.2 ⟨?_, ho⟩))
  rw [List.nil_append]
  exact of_decide_eq_true hown

mutual

theorem stmt_grounded : (s : Stmt) → ∀ {block : List String} {outer : List (List String)}
    {l : List Reference}, s.distinct → Offsets.Distinct ⟨(block ++ s.declares) :: outer⟩ →
    Grounded ⟨(block ++ s.declares) :: outer⟩ l →
    Grounded ⟨block :: outer⟩ (s.references structs ⟨block :: outer⟩ ++ l)
  | .decl d, _, _, _, _, hnames, hl => varDecl_grounded structs d hnames hl
  | .ret e, _, _, _, _, hnames, hl | .expr e, _, _, _, _, hnames, hl =>
    .plain rfl hnames hl (expr_madeAt structs _ e).grounded
  | .assign a, _, _, _, _, hnames, hl =>
    .plain rfl hnames hl (assign_madeAt structs _ a).grounded
  | .call name args, _, _, _, _, hnames, hl =>
    .plain rfl hnames hl (term_madeAt structs _ (.call name args)).grounded
  | .loop condition body, block, outer, _, hs, hnames, hl => by
    simp only [Stmt.distinct, Bool.and_eq_true] at hs
    refine .plain rfl hnames hl fun ho => ?_
    simp only [Stmt.references]
    exact ((expr_madeAt structs _ condition).grounded ho).append
      (body_grounded structs ho hs.1 (stmts_grounded body hs.2))
  | .count init condition step body, block, outer, _, hs, hnames, hl => by
    simp only [Stmt.distinct, Bool.and_eq_true] at hs
    refine .plain rfl hnames hl fun ho => .of_enter ?_
    simp only [Stmt.references, List.append_assoc, Offsets.enter, declare_cons]
    have hinit : Offsets.Distinct ⟨([] ++ init.var.label) :: block :: outer⟩ := by
      refine distinct_cons.2 ⟨?_, ho⟩
      obtain ⟨⟨type, _ | t⟩, value⟩ := init <;> simp [VarDef.label]
    exact varDecl_grounded structs init hinit (.append
      ((expr_madeAt structs _ condition).grounded hinit)
      ((body_grounded structs hinit hs.1 (stmts_grounded body hs.2)).append
        ((assign_madeAt structs _ step).grounded hinit)))
  | .choice (.mk condition body) others otherwise, block, outer, _, hs, hnames, hl => by
    simp only [Stmt.distinct, Bool.and_eq_true] at hs
    obtain ⟨⟨⟨hbody, hbody'⟩, hothers⟩, hotherwise, hotherwise'⟩ := hs
    refine .plain rfl hnames hl fun ho => ?_
    simp only [Stmt.references]
    exact .append (.append (.append ((expr_madeAt structs _ condition).grounded ho)
      (body_grounded structs ho hbody (stmts_grounded body hbody')))
      (branches_grounded others hothers ho))
      (body_grounded structs ho hotherwise (stmts_grounded otherwise hotherwise'))

theorem stmts_grounded : (l : List Stmt) → ∀ {block : List String} {outer : List (List String)},
    distinctStmts l → Offsets.Distinct ⟨(block ++ l.flatMap Stmt.declares) :: outer⟩ →
    Grounded ⟨block :: outer⟩ (stmtReferences structs ⟨block :: outer⟩ l)
  | [], _, _, _, hnames => (MadeAt.nil _).grounded (by simpa using hnames)
  | s :: l, block, outer, hs, hnames => by
    obtain ⟨hs, hl⟩ := Bool.and_eq_true_iff.1 hs
    rw [List.flatMap_cons, ← List.append_assoc] at hnames
    rw [stmtReferences, declare_cons]
    exact stmt_grounded s hs (distinct_of_append hnames) (stmts_grounded l hl hnames)

theorem branches_grounded : (l : List Branch) → ∀ {block : List String}
    {outer : List (List String)}, distinctBranches l → Offsets.Distinct ⟨block :: outer⟩ →
    Grounded ⟨block :: outer⟩ (branchReferences structs ⟨block :: outer⟩ l)
  | [], _, _, _, hnames => (MadeAt.nil _).grounded hnames
  | .mk condition body :: l, block, outer, hl, ho => by
    simp only [distinctBranches, Bool.and_eq_true] at hl
    exact .append (.append ((expr_madeAt structs _ condition).grounded ho)
      (body_grounded structs ho hl.1.1 (stmts_grounded body hl.1.2)))
      (branches_grounded l hl.2 ho)

end

end Statements

open Generator

/-- In the code of a function that is generated first, if no block of it declares a name twice,
every variable that is read or written has the number of the variables before the one that its name
stands for. Different variables that are in scope at one place have different numbers: each is the
number that its declaration stores to. No statement but a declaration changes what is declared. -/
theorem funDef_numbers {d : FunDef} {g g' : Generator} (hg : g.offsets = .empty)
    (hown : ownDistinct d.statements) (hd : distinctStmts d.statements)
    (h : funDef d g = .ok () g') :
    let refs := d.references g.structs.keys g.offsets
    ∃ t, g'.image.get? d.name.lexeme = some t ∧ t.references = refs.map Reference.op ∧
      (∀ name o, .load name o ∈ refs ∨ .store name o ∈ refs →
        (name ∈ o.scope →
          ∃ before, Bound o.scope name before ∧ o.operand name = .int before.length) ∧
        (name ∉ o.scope → o.operand name = .absent) ∧
        (∀ x ∈ o.scope, ∀ y ∈ o.scope, o.operand x = o.operand y → x = y) ∧
        ∀ k x, o.scope[k]? = some x → ∃ o', .store x o' ∈ refs ∧
          o'.scope = o.scope.take (k + 1) ∧ o'.operand x = .int k) ∧
      ∀ s g₁ g₂, s.declares = [] → stmt s g₁ = .ok () g₂ → g₂.offsets = g₁.offsets := by
  intro refs
  obtain ⟨t, hname, -, hreferences, himage⟩ := funDef_refers h
  have hgrounded : Grounded ⟨[[]]⟩ (stmtReferences g.structs.keys ⟨[[]]⟩ d.statements) := by
    refine stmts_grounded g.structs.keys d.statements hd (distinct_cons.2 ⟨?_, ?_⟩)
    · rw [List.nil_append]
      exact of_decide_eq_true hown
    · intro block hblock
      cases hblock
  have hrefs : stmtReferences g.structs.keys ⟨[[]]⟩ d.statements = refs := by
    simp only [refs, FunDef.references, hg]
    rfl
  rw [hrefs] at hgrounded
  refine ⟨t, ?_, hreferences, fun name o hmem => ?_, fun s g₁ g₂ hs hrun => ?_⟩
  · rw [himage, Image.install, Table.get?_put, hname, BEq.rfl, if_pos rfl]
  · obtain ⟨hdistinct, -, hstored⟩ : Descends refs ⟨[[]]⟩ o :=
      hmem.elim (hgrounded _ · o rfl) (hgrounded _ · o rfl)
    refine ⟨Offsets.exists_bound hdistinct, fun hname => ?_,
      fun x hx y hy => Offsets.operand_inj hdistinct hx hy, fun k x hx => ?_⟩
    · rw [Offsets.operand_eq_absent]
      simpa [Offsets.scope] using hname
    · obtain ⟨o', hstore, ho', hscope⟩ := hstored k x (Nat.zero_le k) hx
      have hlt := (List.getElem?_eq_some_iff.1 hx).1
      refine ⟨o', hstore, hscope, Offsets.operand_last ho' ?_ ?_⟩
      · rw [hscope, List.length_take]
        omega
      · rw [hscope, List.getElem?_take_of_lt (Nat.lt_succ_self k), hx]
  · have hplaces : ∀ k ∈ ([] : List Nat), g₁.marks[k]? = some none := by simp
    obtain ⟨-, hoffsets, -⟩ := stmt_refers s rfl hplaces rfl hrun
    rw [hoffsets, hs]
    rfl

namespace Shadowing

/-- The function `void main() {bool x; while (x) {bool x = x; x = x;} x = x;}`. -/
def function : FunDef :=
  let keep : Stmt := .assign ⟨[.mk (word .id "x") none], mention "x"⟩
  procedure "main" [declaring .boolType "bool" "x" none,
    .loop (mention "x") [declaring .boolType "bool" "x" (some (mention "x")), keep], keep]

end Shadowing

open Shadowing in
/-- A variable of a loop hides another one, also in its own initial value, up to the end of the
loop. -/
theorem funDef_numbers_shadowing :
    ∃ g t, funDef function (.ofImage .empty) = .ok () g ∧ g.image.get? "main" = some t ∧
      t.references = [.store (.int 0), .load (.int 0), .load (.int 1), .store (.int 1),
        .load (.int 1), .store (.int 1), .load (.int 0), .store (.int 0)] ∧
      (∃ before, Bound ["x", "x"] "x" before ∧ Value.int 1 = .int before.length) ∧
      ∃ before, Bound ["x"] "x" before ∧ Value.int 0 = .int before.length := by
  obtain ⟨t, ht, hreferences, hnumbers, -⟩ := funDef_numbers (d := function)
    (g := .ofImage .empty) rfl (by decide) (by decide) rfl
  refine ⟨_, t, rfl, ht, hreferences.trans (by decide), ?_, ?_⟩
  · exact (hnumbers "x" ⟨[["x"], ["x"]]⟩ (.inl (by decide))).1 (by decide)
  · exact (hnumbers "x" ⟨[["x"]]⟩ (.inl (by decide))).1 (by decide)

end StackLang
