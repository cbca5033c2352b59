import StackLang.Checker

namespace StackLang.Checker

/-- There are `k` scopes inside those of `outer`. -/
def Atop (outer : List (Table String String)) (k : Nat) (c : Checker) : Prop :=
  ∃ own, own.length = k ∧ c.scopes.levels = own ++ outer

/-- Checking that begins with `k` scopes inside those of `outer`. It ends with `k'` of them if it
succeeds; if it fails, it may end with any number. -/
structure Nests (outer : List (Table String String)) (k k' : Nat) {α : Type} (x : Check α) :
    Prop where
  ok {c c' : Checker} {a : α} : Atop outer k c → x c = .ok a c' → Atop outer k' c'
  error {c c' : Checker} {e : Failure} : Atop outer k c → x c = .error e c' →
    outer <:+ c'.scopes.levels

variable {α β : Type} {outer : List (Table String String)} {k k₁ k₂ : Nat}

theorem Atop.suffix {c : Checker} (h : Atop outer k c) : outer <:+ c.scopes.levels := by
  obtain ⟨own, -, hlevels⟩ := h
  exact ⟨own, hlevels.symm⟩

theorem atop_zero {c : Checker} : Atop outer 0 c ↔ c.scopes.levels = outer := by
  constructor
  · rintro ⟨own, hlength, hlevels⟩
    rw [List.eq_nil_of_length_eq_zero hlength] at hlevels
    exact hlevels
  · intro h
    exact ⟨[], rfl, h⟩

namespace Nests

theorem pure (a : α) : Nests outer k k (pure a : Check α) where
  ok h hrun := by
    cases hrun
    exact h
  error _ hrun := by cases hrun

theorem fail (e : Failure) : Nests outer k k₁ (throw e : Check α) where
  ok _ hrun := by cases hrun
  error h hrun := by
    cases hrun
    exact h.suffix

theorem bind {x : Check α} {f : α → Check β} (hx : Nests outer k k₁ x)
    (hf : ∀ a, Nests outer k₁ k₂ (f a)) : Nests outer k k₂ (x >>= f) where
  ok {c} {c'} {b} h hrun := by
    simp only [Bind.bind, EStateM.bind] at hrun
    cases hc : x c with
    | ok a c₁ =>
      rw [hc] at hrun
      exact (hf a).ok (hx.ok h hc) hrun
    | error e c₁ =>
      rw [hc] at hrun
      cases hrun
  error {c} {c'} {e} h hrun := by
    simp only [Bind.bind, EStateM.bind] at hrun
    cases hc : x c with
    | ok a c₁ =>
      rw [hc] at hrun
      exact (hf a).error (hx.ok h hc) hrun
    | error e' c₁ =>
      rw [hc] at hrun
      cases hrun
      exact hx.error h hc

theorem ite {P : Prop} [Decidable P] {x y : Check α} (hx : Nests outer k k₁ x)
    (hy : Nests outer k k₁ y) : Nests outer k k₁ (if P then x else y) := by
  split
  · exact hx
  · exact hy

theorem get_bind {f : Checker → Check α} (hf : ∀ c, Atop outer k c → Nests outer k k₁ (f c)) :
    Nests outer k k₁ (get >>= f) where
  ok {c} {_} {_} h hrun := (hf c h).ok h hrun
  error {c} {_} {_} h hrun := (hf c h).error h hrun

theorem modify {f : Checker → Checker} (hf : ∀ c, Atop outer k c → Atop outer k₁ (f c)) :
    Nests outer k k₁ (modify f : Check Unit) where
  ok h hrun := by
    cases hrun
    exact hf _ h
  error _ hrun := by cases hrun

theorem set {c : Checker} (hc : Atop outer k₁ c) : Nests outer k k₁ (set c : Check Unit) where
  ok _ hrun := by
    cases hrun
    exact hc
  error _ hrun := by cases hrun

theorem enter : Nests outer k (k + 1) (onScopes Scopes.enter) := by
  refine modify fun c h => ?_
  obtain ⟨own, hlength, hlevels⟩ := h
  refine ⟨∅ :: own, by rw [List.length_cons, hlength], ?_⟩
  rw [Scopes.enter, hlevels]
  rfl

theorem leave : Nests outer (k + 1) k (onScopes Scopes.leave) := by
  refine modify fun c h => ?_
  obtain ⟨own, hlength, hlevels⟩ := h
  obtain ⟨level, own, rfl⟩ := List.exists_cons_of_length_eq_add_one hlength
  refine ⟨own, Nat.succ.inj hlength, ?_⟩
  rw [Scopes.leave, hlevels]
  rfl

/-- A name goes into the innermost scope, so there has to be one inside the others. -/
theorem put (name type : String) :
    Nests outer (k + 1) (k + 1) (onScopes (·.put name type)) := by
  refine modify fun c h => ?_
  obtain ⟨own, hlength, hlevels⟩ := h
  obtain ⟨level, own, rfl⟩ := List.exists_cons_of_length_eq_add_one hlength
  refine ⟨level.put name type :: own, hlength, ?_⟩
  simp only [Scopes.put, hlevels, List.cons_append]

theorem forM {f : α → Check Unit} (hf : ∀ a, Nests outer k k (f a)) (l : List α) :
    Nests outer k k (l.forM f) := by
  induction l with
  | nil => exact pure ()
  | cons a l ih => exact bind (hf a) fun _ => ih

theorem need (o : Option α) : Nests outer k k (StackLang.need o) := by
  cases o with
  | some a => exact pure a
  | none => exact fail _

theorem complain_bind (e : StaticError) (f : α → Check β) :
    Nests outer k k₁ (complain e >>= f) where
  ok _ hrun := by cases hrun
  error h hrun := by
    cases hrun
    exact h.suffix

theorem require {P : Prop} [Decidable P] {e : StaticError} {x : Check β} {f : α → Check β}
    (hx : Nests outer k k₁ x) : Nests outer k k₁ (if P then x else complain e >>= f) :=
  ite hx (complain_bind e f)

theorem refuse {P : Prop} [Decidable P] {e : StaticError} {x : Check β} {f : α → Check β}
    (hx : Nests outer k k₁ x) : Nests outer k k₁ (if P then complain e >>= f else x) :=
  ite (complain_bind e f) hx

theorem dataType (t : DataType) : Nests outer k k (Checker.dataType t) :=
  bind (need _) fun _ => get_bind fun _ h => ite (set h) (fail _)

theorem definition (d : VarDef) : Nests outer k k (Checker.definition d) :=
  bind (need _) fun _ => bind (need _) fun _ => bind (need _) fun _ => pure _

theorem varDef (d : VarDef) : Nests outer (k + 1) (k + 1) (Checker.varDef d) :=
  bind (definition d) fun _ => get_bind fun _ _ => require (refuse (put _ _))

theorem literal (t : Token) : Nests outer k k (Checker.literal t) := modify fun _ h => h

theorem secondArgument (function : String) (first : Token.Kind) (e : Expr) :
    Nests outer k k (Checker.secondArgument function first e) := by
  unfold Checker.secondArgument
  split
  · exact fail _
  · exact ite (require (ite (pure ()) (fail _))) (pure ())
  · exact fail _

theorem behind_count (function : String) (n : Nat) {x : Unit → Check Unit}
    (hx : Nests outer k k (x ())) : Nests outer k k (match arity? function with
      | some (m, words) => if n = m then x () else complain (.argumentCount function words) >>= x
      | none => x ()) := by
  split
  · exact require hx
  · exact hx

/-- What is checked behind the type of the first argument. -/
theorem behind_type (function : String) (kind : Token.Kind) {x : Unit → Check Unit}
    (hx : Nests outer k k (x ())) : Nests outer k k (match argumentType? function with
      | some (kind', type) =>
        if kind = kind' then x () else complain (.argumentType function type) >>= x
      | none => x ()) := by
  split
  · exact require hx
  · exact hx

theorem arguments (function : String) (args : List Expr) :
    Nests outer k k (Checker.arguments function args) := by
  refine behind_count function args.length ?_
  cases args with
  | nil => exact pure ()
  | cons e others =>
    dsimp only
    split
    · exact fail _
    · refine behind_type function _ ?_
      split
      · exact secondArgument _ _ _
      · exact pure ()
    · exact pure ()

mutual

theorem expr : (e : Expr) → Nests outer k k (Checker.expr e)
  | .mk _ first _ (some e) => by
    rw [Checker.expr]
    exact bind (term first) fun _ => expr e
  | .mk _ first _ none => by
    rw [Checker.expr]
    exact bind (term first) fun _ => pure ()

theorem term : (t : Term) → Nests outer k k (Checker.term t)
  | .literal t => literal t
  | .call name (some l) => by
    simp only [Checker.term]
    exact bind (arguments name.lexeme l) fun _ => exprs l
  | .call name none => by
    simp only [Checker.term]
    exact fail _
  | .create .. | .path _ | .group _ => by
    simp only [Checker.term]
    exact pure ()

theorem exprs : (l : List Expr) → Nests outer k k (Checker.exprs l)
  | [] => pure ()
  | e :: l => bind (expr e) fun _ => exprs l

end

theorem fromPath (name : Token) (type : String) (refs : List Ref) :
    Nests outer k k (Checker.fromPath name type refs) := by
  unfold Checker.fromPath
  refine get_bind fun c _ => ?_
  have hlast (r : Ref) : Nests outer k k
      (if c.scopes.get? r.name.lexeme = some type then Pure.pure () else complain .badPath) :=
    ite (pure ()) (fail _)
  split
  · refine ite ?_ (hlast _)
    split
    · exact refuse (hlast _)
    · exact hlast _
  · exact fail _

theorem initializer (d : VarDecl) (name : Token) (type : String) (e : Expr) :
    Nests outer k k (Checker.initializer d name type e) := by
  unfold Checker.initializer
  split
  · exact pure ()
  · refine bind (expr e) fun _ => ?_
    split
    · exact ite (pure ()) (fail _)
    · exact pure ()
  · exact bind (expr e) fun _ => require (ite (fail _) (pure ()))
  · exact bind (expr e) fun _ => fromPath _ _ _
  · exact expr e

theorem varDecl (d : VarDecl) : Nests outer (k + 1) (k + 1) (Checker.varDecl d) := by
  unfold Checker.varDecl
  refine bind (varDef d.var) fun _ => bind (definition d.var) fun r => ?_
  cases d.init with
  | some e => exact initializer d _ _ e
  | none => exact pure ()

theorem stmt (s : Stmt) : Nests outer (k + 1) (k + 1) (Checker.stmt s) := by
  cases s with
  | decl d => exact varDecl d
  | call name args => exact term (.call name args)
  | expr e => exact expr e
  | _ => exact pure ()

theorem structDef (d : StructDef) : Nests outer (k + 1) (k + 1) (Checker.structDef d) :=
  forM varDef d.fields

theorem funDef (d : FunDef) : Nests outer k k (Checker.funDef d) := by
  refine bind enter fun _ => bind (dataType d.returns) fun _ => bind enter fun _ => ?_
  -- whatever `k` is, there is a scope of the function's own for its names
  refine bind (forM varDef d.params) fun _ => bind (forM stmt d.body) fun _ => ?_
  exact bind leave fun _ => leave

theorem recordStruct (d : StructDef) : Nests outer k k (Checker.recordStruct d) :=
  get_bind fun _ _ => refuse (modify fun _ h => h)

theorem recordFunction (d : FunDef) : Nests outer k k (Checker.recordFunction d) := by
  refine get_bind fun c _ => refuse (refuse (ite ?_ (modify fun _ h => h)))
  exact bind (need _) fun _ => require (require (modify fun _ h => h))

theorem program (p : Program) : Nests outer k k (Checker.program p) := by
  refine bind (forM recordStruct p.structs) fun _ => ?_
  refine bind (forM recordFunction p.functions) fun _ => ?_
  refine get_bind fun _ _ => require (bind enter fun _ => get_bind fun c _ => ?_)
  -- the names of structs and of all their fields go into the scope just opened
  refine bind (forM (fun name => put name "struct") c.structs.keys) fun _ => ?_
  refine bind (forM structDef c.structs.values) fun _ => ?_
  exact bind (forM funDef c.functions.values) fun _ => leave

end Nests

/-- Checking ended with the scopes that were open before. They are all there is if it succeeded, and
the outermost ones if it failed. -/
def Restores (scopes : Scopes String) : EStateM.Result Failure Checker Unit → Prop
  | .ok _ c => c.scopes = scopes
  | .error _ c => scopes.levels <:+ c.scopes.levels

theorem Nests.restores {x : Check Unit} {c : Checker} (h : Nests c.scopes.levels 0 0 x) :
    Restores c.scopes (x c) := by
  have hc : Atop c.scopes.levels 0 c := atop_zero.2 rfl
  cases hrun : x c with
  | ok _ c' => exact congrArg Scopes.mk (atop_zero.1 (h.ok hc hrun))
  | error e c' => exact h.error hc hrun

/-- Neither a program nor a function does anything to the scopes around it, from whatever state it is
checked. -/
theorem scopes_kept (c : Checker) :
    (∀ p : Program, Restores c.scopes (program p c)) ∧ ∀ d : FunDef, Restores c.scopes (funDef d c) := by
  constructor
  · intro p
    exact (Nests.program p).restores
  · intro d
    exact (Nests.funDef d).restores

end StackLang.Checker
