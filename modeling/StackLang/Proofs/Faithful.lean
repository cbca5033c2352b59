import StackLang.Proofs.RoundTrip

namespace StackLang

mutual

/-- Expressions of literals, names and groups. -/
def Expr.simple : Expr → Bool
  | .mk negated first op rest =>
    negated.isSome && first.simple && op.isSome == rest.isSome &&
      op.all (·.kind.isOperator) && simpleIfAny rest

def Term.simple : Term → Bool
  | .literal t => t.kind.isLiteral
  | .path [.mk name none] => name.kind == .id
  | .group e => e.simple
  | _ => false

def simpleIfAny : Option Expr → Bool
  | some e => e.simple
  | none => true

end

mutual

/-- Simple expressions, and calls on their own: of a name, with no argument or one of this kind. -/
def Expr.passes : Expr → Bool
  | .mk negated first none none => negated.isSome && first.passes
  | e => e.simple

def Term.passes : Term → Bool
  | .call name args => name.kind == .id && passesList args
  | t => t.simple

def passesList : Option (List Expr) → Bool
  | some l => passesAlone l
  | none => false

def passesAlone : List Expr → Bool
  | [] => true
  | [e] => e.passes
  | _ => false

end

/-- An operation on a first operand as `test` wants it, with a call to the right. -/
def Expr.endsInCall (test : Term → Bool) : Expr → Bool
  | .mk negated first (some op) (some (.mk (some false) (.call name args) none none)) =>
    negated.isSome && test first && op.kind.isOperator && (Term.call name args).passes
  | _ => false

/-- Names and calls. -/
def Term.named : Term → Bool
  | .path [.mk name none] => name.kind == .id
  | .call name args => (Term.call name args).passes
  | _ => false

def VarDef.faithful (d : VarDef) : Bool := d.regular && d.type.all (!·.isArray)

def VarDecl.faithful (d : VarDecl) : Bool := d.var.faithful && d.init.any Expr.passes

def Assign.faithful : Assign → Bool
  | ⟨[.mk name none], e⟩ => name.kind == .id && e.simple
  | _ => false

mutual

def Stmt.faithful : Stmt → Bool
  | .ret e => e.passes || e.endsInCall Term.named
  | .decl d => d.faithful
  | .assign a => a.faithful
  | .loop condition body => condition.simple && faithfulStmts body
  | .count init condition step body =>
    init.faithful && init.var.type.any DataType.begins &&
      (condition.passes || condition.endsInCall Term.simple) && step.faithful && faithfulStmts body
  | .choice (.mk condition body) others otherwise =>
    condition.simple && faithfulStmts body && others.isEmpty && otherwise.isEmpty
  | .call name args => (Term.call name args).passes
  | .expr _ => false

def faithfulStmts : List Stmt → Bool
  | [] => true
  | s :: l => s.faithful && faithfulStmts l

end

def StructDef.faithful (d : StructDef) : Bool := d.name.kind == .id && d.fields.all VarDef.faithful

def FunDef.faithful (d : FunDef) : Bool :=
  (d.returns.regular || d.returns.isVoid) && !d.returns.isArray && d.name.kind == .id &&
    d.params.all VarDef.faithful && faithfulStmts d.body

/-- Programs of which the printer loses nothing. -/
def Program.faithful (p : Program) : Bool :=
  p.structs.all StructDef.faithful && p.functions.all FunDef.faithful

mutual

/-- What the printer writes. The negation of an argument stands twice. -/
def Expr.written : Expr → List Mark
  | .mk negated first op rest =>
    (if negated = some true then [.sign .notOp] else []) ++ (first.written ++ writtenRest op rest)

def writtenRest (op : Option Token) : Option Expr → List Mark
  | some e => (op.map Mark.held).toList ++ e.written
  | none => []

def Term.written : Term → List Mark
  | .literal t => [.held t]
  | .create _ _ _ => []
  | .path refs => refs.map fun r => .held r.name
  | .call name args => .held name :: writtenList args
  | .group e => inParens e.written

def writtenList : Option (List Expr) → List Mark
  | some l => inParens (writtenArguments l)
  | none => []

def writtenArguments : List Expr → List Mark
  | [] => []
  | e :: l =>
    (if e.negated = some true then [.sign .notOp] else []) ++ (e.written ++ writtenArguments l)

end

def VarDecl.written (d : VarDecl) : List Mark :=
  d.var.marks ++ (.sign .assign :: writtenRest none d.init)

mutual

def Stmt.written : Stmt → List Mark
  | .ret e => .sign .returnKw :: (e.written ++ [.sign .semicolon])
  | .decl d => d.written ++ [.sign .semicolon]
  | .assign a => a.marks ++ [.sign .semicolon]
  | .loop condition body =>
    .sign .whileKw :: (inParens condition.marks ++ inBraces (writtenStmts body))
  | .count init condition step body =>
    .sign .forKw :: (inParens (init.written ++ (.sign .semicolon ::
      (condition.written ++ (.sign .semicolon :: step.marks)))) ++ inBraces (writtenStmts body))
  | .choice (.mk condition body) _ _ =>
    .sign .ifKw :: (inParens condition.marks ++ inBraces (writtenStmts body))
  | .call name args => (Term.call name args).written ++ [.sign .semicolon]
  | .expr _ => []

def writtenStmts : List Stmt → List Mark
  | [] => []
  | s :: l => s.written ++ writtenStmts l

end

def FunDef.written (d : FunDef) : List Mark :=
  d.returns.marks ++ (.held d.name :: (inParens (parameterMarks d.params) ++
    inBraces (writtenStmts d.body)))

/-- The structs and then the functions. -/
def Program.written (p : Program) : List Mark :=
  p.structs.flatMap StructDef.marks ++ p.functions.flatMap FunDef.written

theorem Term.eq_of_simple_path {refs : List Ref} (h : (Term.path refs).simple) :
    ∃ name, refs = [.mk name none] ∧ name.kind = .id := by
  unfold Term.simple at h
  split at h
  · rename_i heq
    cases heq
  · rename_i name heq
    cases heq
    exact ⟨name, rfl, eq_of_beq h⟩
  · rename_i heq
    cases heq
  · cases h

mutual

theorem Expr.regular_of_simple : ∀ e : Expr, e.simple → e.regular
  | .mk negated first op rest => by
    simp only [Expr.simple, Expr.regular, Bool.and_eq_true, and_imp]
    intro hn hfirst hparts hop hrest
    exact ⟨⟨⟨⟨hn, first.regular_of_simple hfirst⟩, hparts⟩, hop⟩, regularIfAny_of_simple rest hrest⟩

theorem Term.regular_of_simple : ∀ t : Term, t.simple → t.regular
  | .literal t => id
  | .create _ _ _ => fun h => by cases h
  | .path refs => fun h => by
    obtain ⟨name, rfl, hname⟩ := Term.eq_of_simple_path h
    simp [Term.regular, regularRefs, regularIfAny, hname]
  | .call _ _ => fun h => by cases h
  | .group e => e.regular_of_simple

theorem regularIfAny_of_simple : ∀ o : Option Expr, simpleIfAny o → regularIfAny o
  | none => id
  | some e => e.regular_of_simple

end

mutual

theorem Expr.written_of_simple : ∀ e : Expr, e.simple → e.written = e.marks
  | .mk negated first op rest => by
    simp only [Expr.simple, Bool.and_eq_true, and_imp]
    intro hn hfirst hparts hop hrest
    rw [Expr.written, Expr.marks, first.written_of_simple hfirst, writtenRest_of_simple op rest hrest]

theorem Term.written_of_simple : ∀ t : Term, t.simple → t.written = t.marks
  | .literal t => fun _ => rfl
  | .create _ _ _ => fun h => by cases h
  | .path refs => fun h => by
    obtain ⟨name, rfl, -⟩ := Term.eq_of_simple_path h
    rfl
  | .call _ _ => fun h => by cases h
  | .group e => fun h => by rw [Term.written, Term.marks, e.written_of_simple h]

theorem writtenRest_of_simple (op : Option Token) : ∀ o : Option Expr, simpleIfAny o →
    writtenRest op o = restMarks op o
  | none => fun _ => rfl
  | some e => fun h => by rw [writtenRest, restMarks, e.written_of_simple h]

end

/-- A name, negated or not. -/
def Expr.naming (negated : Bool) (name : Token) : Expr :=
  .mk (some negated) (.path [.mk name none]) none none

theorem Expr.simple_naming {negated : Bool} {name : Token} (h : name.kind = .id) :
    (naming negated name).simple := by
  simp [naming, Expr.simple, Term.simple, simpleIfAny, h]

theorem Expr.passes_cases {e : Expr} (h : e.passes) : e.simple ∨ ∃ b name l,
    e = .mk (some b) (.call name (some l)) none none ∧ name.kind = .id ∧ passesAlone l := by
  obtain ⟨_ | b, first, _ | op, _ | rest⟩ := e
  case none.none.none => cases h
  case some.none.none =>
    have hfirst : first.passes := h
    cases first with
    | call name args =>
      cases args with
      | none => simp [Term.passes, passesList] at hfirst
      | some l =>
        obtain ⟨hname, hl⟩ : name.kind = .id ∧ passesAlone l := by
          simpa [Term.passes, passesList] using hfirst
        exact .inr ⟨b, name, l, rfl, hname, hl⟩
    | _ => exact .inl (by simpa [Expr.simple, simpleIfAny, Term.passes] using hfirst)
  all_goals exact .inl (by simpa [Expr.passes] using h)

theorem Term.named_cases {t : Term} (h : t.named) :
    (∃ name, t = .path [.mk name none] ∧ t.simple) ∨
      ∃ name l, t = .call name (some l) ∧ name.kind = .id ∧ passesAlone l := by
  unfold Term.named at h
  split at h
  · exact .inl ⟨_, rfl, h⟩
  · rename_i name args
    cases args with
    | none => simp [Term.passes, passesList] at h
    | some l => exact .inr ⟨name, l, rfl, by simpa [Term.passes, passesList] using h⟩
  · cases h

theorem Expr.endsInCall_cases {test : Term → Bool} {e : Expr} (h : e.endsInCall test) :
    ∃ b first op name l, e = .mk (some b) first (some op)
      (some (.operand (.call name (some l)))) ∧ test first ∧ op.kind.isOperator ∧
      name.kind = .id ∧ passesAlone l := by
  unfold Expr.endsInCall at h
  split at h
  · rename_i negated first op name args
    obtain ⟨⟨⟨hnegated, hfirst⟩, hop⟩, hcall⟩ : ((negated.isSome ∧ test first) ∧
        op.kind.isOperator) ∧ (Term.call name args).passes := by
      simpa only [Bool.and_eq_true] using h
    obtain ⟨b, rfl⟩ := Option.isSome_iff_exists.1 hnegated
    cases args with
    | none => simp [Term.passes, passesList] at hcall
    | some l =>
      obtain ⟨hname, hl⟩ : name.kind = .id ∧ passesAlone l := by
        simpa [Term.passes, passesList] using hcall
      exact ⟨b, first, op, name, l, rfl, hfirst, hop, hname, hl⟩
  · cases h

theorem VarDef.eq_of_faithful {d : VarDef} (h : d.faithful) :
    ∃ t name, d = ⟨some ⟨false, some t⟩, some name⟩ ∧ t.kind.namesType ∧ name.kind = .id := by
  obtain ⟨_ | ⟨_ | _, _ | t⟩, _ | name⟩ := d
  case some.false.some.some =>
    exact ⟨t, name, rfl, by simpa [VarDef.faithful, VarDef.regular, DataType.regular] using h⟩
  all_goals simp [VarDef.faithful, VarDef.regular, DataType.regular] at h

theorem VarDef.regular_of_faithful {d : VarDef} (h : d.faithful) : d.regular := by
  simp only [VarDef.faithful, Bool.and_eq_true] at h
  exact h.1

theorem VarDecl.eq_of_faithful {d : VarDecl} (h : d.faithful) :
    ∃ e, d.init = some e ∧ d.var.faithful ∧ e.passes ∧
      d.written = d.var.marks ++ (.sign .assign :: e.written) := by
  obtain ⟨var, _ | e⟩ := d
  · simp [VarDecl.faithful] at h
  · obtain ⟨hvar, he⟩ : var.faithful ∧ e.passes := by simpa [VarDecl.faithful] using h
    exact ⟨e, rfl, hvar, he, by simp [VarDecl.written, writtenRest]⟩

theorem Assign.eq_of_faithful {a : Assign} (h : a.faithful) :
    ∃ name e, a = ⟨[.mk name none], e⟩ ∧ name.kind = .id ∧ e.simple := by
  unfold Assign.faithful at h
  split at h
  · rename_i name e
    obtain ⟨hname, he⟩ : name.kind = .id ∧ e.simple := by simpa using h
    exact ⟨name, e, rfl, hname, he⟩
  · cases h

theorem Assign.regular_of_faithful {a : Assign} (h : a.faithful) : a.regular := by
  obtain ⟨name, e, rfl, hname, he⟩ := Assign.eq_of_faithful h
  simp [Assign.regular, regularRefs, regularIfAny, hname, e.regular_of_simple he]

theorem StructDef.regular_of_faithful {d : StructDef} (h : d.faithful) : d.regular := by
  obtain ⟨hname, hfields⟩ : d.name.kind = .id ∧ d.fields.all VarDef.faithful := by
    simpa only [StructDef.faithful, Bool.and_eq_true, beq_iff_eq] using h
  have hregular : d.fields.all VarDef.regular := List.all_eq_true.2 fun f hf =>
    VarDef.regular_of_faithful (List.all_eq_true.1 hfields f hf)
  rw [StructDef.regular, hname, hregular]
  rfl

namespace Parser

open Parse

variable {follow : Token.Kind → Prop} {ms ns : List Mark} {n : Nat} {e : Expr}

theorem expr_doubled (h : ∀ n, 4 * ms.length ≤ n → Reads follow (expr n) ms e) (n : Nat)
    (hn : 4 * ((if e.negated = some true then [Mark.sign .notOp] else []) ++ ms).length ≤ n) :
    Reads follow (expr n) ((if e.negated = some true then [.sign .notOp] else []) ++ ms) e := by
  by_cases hnegated : e.negated = some true
  · rw [if_pos hnegated] at hn ⊢
    obtain ⟨n, rfl⟩ : ∃ j, n = j + 1 := ⟨n - 1, by simp at hn; omega⟩
    -- The inner expression is marked as negated already.
    have hnegate : e.negate = e := by
      obtain ⟨negated, first, op, rest⟩ := e
      cases hnegated
      rfl
    rw [expr]
    refine .kind fun k hk => .cons (.advance _) (.last (a := e) ?_ ?_)
    · exact (h n (by simp at hn; omega)).weaken fun j (hj : j = k) => hj ▸ hk
    · rw [hnegate]
      exact .pure _
  · rw [if_neg hnegated] at hn ⊢
    exact h n hn

theorem opens_lead_written (he : e.simple) (k : Token.Kind) : opens (lead k e.written) := by
  rw [e.written_of_simple he]
  exact opens_lead (e.regular_of_simple he) k

theorem simple_reads (he : e.simple) (n : Nat) (hn : 4 * e.written.length ≤ n) :
    Reads (stops ·) (expr n) e.written e := by
  rw [e.written_of_simple he] at hn ⊢
  exact expr_reads e n (e.regular_of_simple he) hn

theorem arguments_alone (hopen : ∀ k, opensArgument (lead k ms))
    (he : Reads (stops ·) (expr (n + 1)) ms e) :
    Reads follow (arguments (n + 2)) (inParens ms) (some [e]) := by
  rw [arguments]
  simp only [pure_bind]
  refine .sees true (fun _ _ => rfl) (.cons (.advance _) (.kind fun k _ => ?_))
  rw [lead_append, if_pos (hopen _)]
  refine he.bind (.sees false (fun _ _ => rfl) ?_) fun _ _ => rfl
  exact (moreArguments_nil (n := n)).bind (.last (.expect rfl) (.pure _)) fun _ _ => rfl

theorem arguments_call {b : Bool} {name : Token} {args : Option (List Expr)}
    (hopen : ∀ k, opensArgument (lead k ms))
    (he : Reads (stops ·) (expr n) ms (.naming b name))
    (hargs : Reads (fun _ => True) (arguments n) (inParens ns) args) :
    Reads follow (arguments (n + 1)) (inParens (ms ++ inParens ns))
      (some [.mk (some b) (.call name args) none none]) := by
  rw [arguments]
  simp only [pure_bind]
  refine .sees true (fun _ _ => rfl) (.cons (.advance _) (.kind fun k _ => ?_))
  rw [List.append_assoc, lead_append, if_pos (hopen _)]
  refine he.bind (.sees true (fun _ _ => rfl) ?_) fun _ _ => rfl
  exact hargs.append (.last (.expect rfl) (.pure _))

/-- The marks of a call argument, divided behind the name. -/
theorem writtenArguments_call (b : Bool) (name : Token) (l : List Expr) :
    writtenArguments [.mk (some b) (.call name (some l)) none none] =
      ((if (Expr.naming b name).negated = some true then [.sign .notOp] else []) ++
        (Expr.naming b name).written) ++ inParens (writtenArguments l) := by
  simp [writtenArguments, Expr.written, Expr.naming, Expr.negated, Term.written, writtenList,
    writtenRest, Ref.name]

theorem opensArgument_lead (he : e.simple) (k : Token.Kind) : opensArgument
    (lead k ((if e.negated = some true then [.sign .notOp] else []) ++ e.written)) := by
  split
  · rfl
  · exact opensArgument_of_opens (opens_lead_written he k)

theorem arguments_written (l : List Expr) (n : Nat) (hl : passesAlone l)
    (hn : 4 * (writtenArguments l).length + 2 ≤ n) :
    Reads follow (arguments n) (inParens (writtenArguments l)) (some l) := by
  induction n generalizing l follow with
  | zero => omega
  | succ n ih =>
    match l with
    | [] => exact arguments_reads [] (n + 1) rfl hn
    | [e] =>
      obtain he | ⟨b, name, l, rfl, hname, hl⟩ := Expr.passes_cases hl
      · have hmarks : writtenArguments [e] =
            (if e.negated = some true then [.sign .notOp] else []) ++ e.written := by
          rw [writtenArguments, writtenArguments, List.append_nil]
        rw [hmarks] at hn ⊢
        obtain ⟨n, rfl⟩ : ∃ j, n = j + 1 := Nat.exists_eq_add_of_le' (by omega)
        exact arguments_alone (opensArgument_lead he)
          (expr_doubled (simple_reads he) (n + 1) (by omega))
      · -- The name is read as the argument, and the parenthesis behind it makes it a call.
        rw [writtenArguments_call] at hn ⊢
        simp only [List.length_append, inParens, List.length_cons] at hn
        have hsimple : (Expr.naming b name).simple := Expr.simple_naming hname
        exact arguments_call (opensArgument_lead hsimple)
          (expr_doubled (simple_reads hsimple) n (by rw [List.length_append]; omega))
          (ih l hl (by omega))

theorem written_call (b : Bool) (name : Token) (l : List Expr) :
    (Expr.mk (some b) (.call name (some l)) none none).written =
      (Expr.naming b name).written ++ inParens (writtenArguments l) := by
  simp [Expr.written, Expr.naming, Term.written, writtenList, writtenRest, Ref.name]

theorem written_endsInCall (b : Bool) (first : Term) (op name : Token) (l : List Expr) :
    (Expr.mk (some b) first (some op) (some (.operand (.call name (some l))))).written =
      (Expr.mk (some b) first (some op) (some (.naming false name))).written ++
        inParens (writtenArguments l) := by
  simp [Expr.written, Expr.naming, Expr.operand, Term.written, writtenList, writtenRest, Ref.name]

theorem written_calls (b : Bool) (op name name' : Token) (l l' : List Expr) :
    (Expr.mk (some b) (.call name' (some l')) (some op)
      (some (.operand (.call name (some l))))).written =
      (Expr.naming b name').written ++ (inParens (writtenArguments l') ++
        (.held op :: .held name :: inParens (writtenArguments l))) := by
  simp [Expr.written, Expr.naming, Expr.operand, Term.written, writtenList, writtenRest, Ref.name]

theorem simple_operation {b : Bool} {first : Term} {op name : Token} (hfirst : first.simple)
    (hop : op.kind.isOperator) (hname : name.kind = .id) :
    (Expr.mk (some b) first (some op) (some (.naming false name))).simple := by
  simp [Expr.simple, simpleIfAny, hfirst, hop, Expr.simple_naming hname]

/-- An expression and, behind it, the arguments for a name that is a part of it. -/
theorem arguments_behind {α : Type} {a : α} {e' : Expr} {name : Token} {l : List Expr}
    {g : Expr → Parse α} {f : Token → Option (List Expr) → Parse α} {other : Parse α} (he : e.simple)
    (hl : passesAlone l) (hn : 4 * (e.written ++ (inParens (writtenArguments l) ++ ms)).length ≤ n)
    (hg : g e = do if ← sees .lparen then f (← callee e') (← arguments n) else other)
    (hname : callee e' = pure name) (h : Reads follow (f name (some l)) ms a) :
    Reads follow (expr n >>= g) (e.written ++ (inParens (writtenArguments l) ++ ms)) a := by
  simp only [List.length_append, inParens, List.length_cons] at hn
  refine (simple_reads he n (by omega)).bind ?_ fun _ _ => rfl
  rw [hg]
  refine .sees true (fun _ _ => rfl) ?_
  rw [if_pos rfl, hname, pure_bind]
  exact (arguments_written l n hl (by omega)).append h

theorem declaration_written {named : Option Token} {var : VarDef}
    (hvar : Reads (fun _ => True) (declared named) ms var) (he : e.passes)
    (hn : 4 * e.written.length ≤ n) :
    Reads (· = .semicolon) (declaration n named) (ms ++ (.sign .assign :: e.written))
      ⟨var, some e⟩ := by
  rw [declaration]
  refine hvar.append (.sees true (fun _ _ => rfl) (.cons (.advance _) ?_))
  obtain he | ⟨b, name, l, rfl, hname, hl⟩ := Expr.passes_cases he
  · refine .last ((simple_reads he n hn).weaken fun k hk => hk ▸ rfl) ?_
    exact .sees false (fun k hk => hk ▸ rfl) (.pure _)
  · rw [written_call, ← List.append_nil (inParens _)] at hn ⊢
    exact arguments_behind (Expr.simple_naming hname) hl hn rfl rfl (.pure _)

theorem condition_written (he : e.passes || e.endsInCall Term.simple)
    (hn : 4 * e.written.length ≤ n) : Reads (· = .semicolon) (condition n) e.written e := by
  obtain he | he := (Bool.or_eq_true _ _).mp he
  · obtain he | ⟨b, name, l, rfl, hname, hl⟩ := Expr.passes_cases he
    · refine .last ((simple_reads he n hn).weaken fun k hk => hk ▸ rfl) ?_
      exact .sees false (fun k hk => hk ▸ rfl) (.pure _)
    · rw [written_call, ← List.append_nil (inParens _)] at hn ⊢
      exact arguments_behind (Expr.simple_naming hname) hl hn rfl rfl (.pure _)
  · obtain ⟨b, first, op, name, l, rfl, hfirst, hop, hname, hl⟩ := Expr.endsInCall_cases he
    rw [written_endsInCall, ← List.append_nil (inParens _)] at hn ⊢
    exact arguments_behind (simple_operation hfirst hop hname) hl hn rfl rfl (.pure _)

theorem returnedCalls_end : Reads (· = .semicolon) (returnedCalls (n + 1) e) [] e := by
  rw [returnedCalls]
  refine .look_nil fun t ht => ?_
  rw [if_neg (by rw [ht]; decide)]
  exact .pure _

theorem returnedCalls_more {op name : Token} {l : List Expr} (hop : op.kind.isOperator)
    (hl : passesAlone l) (hn : 4 * (writtenArguments l).length + 2 ≤ n + 1) :
    Reads (· = .semicolon) (returnedCalls (n + 2) e)
      (.held op :: .held name :: inParens (writtenArguments l))
      (.mk e.negated e.first (some op) (some (.operand (.call name (some l))))) := by
  rw [returnedCalls]
  refine .look_held ?_
  rw [if_pos hop]
  refine .cons (.advance _) (.look_held (.cons (.advance _) ?_))
  exact .last (arguments_written l (n + 1) hl hn) returnedCalls_end

theorem returned_written (he : e.passes || e.endsInCall Term.named)
    (hn : 4 * e.written.length ≤ n) : Reads (· = .semicolon) (returned n) e.written e := by
  obtain he | he := (Bool.or_eq_true _ _).mp he
  · obtain he | ⟨b, name, l, rfl, hname, hl⟩ := Expr.passes_cases he
    · refine .last ((simple_reads he n hn).weaken fun k hk => hk ▸ rfl) ?_
      split
      · exact .sees false (fun k hk => hk ▸ rfl) (.pure _)
      · exact .pure _
    · rw [written_call, ← List.append_nil (inParens _)] at hn ⊢
      obtain ⟨n, rfl⟩ : ∃ j, n = j + 1 := Nat.exists_eq_add_of_le' (by simp [inParens] at hn; omega)
      exact arguments_behind (Expr.simple_naming hname) hl hn rfl rfl returnedCalls_end
  · obtain ⟨b, first, op, name, l, rfl, hfirst, hop, hname, hl⟩ := Expr.endsInCall_cases he
    obtain ⟨first, rfl, hsimple⟩ | ⟨nm, l', rfl, hnm, hl'⟩ := Term.named_cases hfirst
    · rw [written_endsInCall, ← List.append_nil (inParens _)] at hn ⊢
      exact arguments_behind (simple_operation hsimple hop hname) hl hn rfl rfl (.pure _)
    · rw [written_calls] at hn ⊢
      have hlen : 4 * (writtenArguments l).length + 3 ≤ n := by simp [inParens] at hn; omega
      obtain ⟨n, rfl⟩ : ∃ j, n = j + 2 := Nat.exists_eq_add_of_le' (by omega)
      exact arguments_behind (Expr.simple_naming hnm) hl' hn rfl rfl
        (returnedCalls_more hop hl (by omega))

theorem opensStmt_lead_written {s : Stmt} (h : s.faithful) (k : Token.Kind) :
    opensStmt (lead k s.written) := by
  cases s with
  | ret e | loop c body | count init c step body => rfl
  | choice first others otherwise => cases first; rfl
  | decl d =>
    obtain ⟨e, -, hvar, -, hwritten⟩ := VarDecl.eq_of_faithful h
    rw [Stmt.written, hwritten, List.append_assoc, lead_append]
    exact opensStmt_lead_varDef (VarDef.regular_of_faithful hvar) _
  | assign a => exact opensStmt_lead (s := .assign a) (Assign.regular_of_faithful h) k
  | call name args =>
    have hname : name.kind = .id := by
      simp [Stmt.faithful, Term.passes] at h
      exact h.1
    change opensStmt name.kind
    rw [hname]
    rfl
  | expr e => cases h

theorem ensues_lead_written {l : List Stmt} (hl : faithfulStmts l) :
    ensues (lead .rbrace (writtenStmts l)) := by
  cases l with
  | nil => rfl
  | cons s l =>
    have hs : s.faithful := by simp [faithfulStmts] at hl; exact hl.1
    rw [writtenStmts, lead_append]
    exact ensues_of_opensStmt (opensStmt_lead_written hs _)

theorem length_written_pos {s : Stmt} (h : s.faithful) : 1 ≤ s.written.length := by
  cases hm : s.written with
  | nil =>
    have hlead := opensStmt_lead_written h .eos
    rw [hm] at hlead
    cases hlead
  | cons m ms => simp

mutual

theorem stmt_written : ∀ (s : Stmt) (n : Nat), s.faithful → 4 * s.written.length ≤ n →
    Reads (ensues ·) (stmt n) s.written s
  | .ret e, n, hs, hn => by
    have hlen : 4 * (e.written.length + 2) ≤ n := by simpa [Stmt.written] using hn
    obtain ⟨n, rfl⟩ : ∃ j, n = j + 1 := Nat.exists_eq_add_of_le' (by omega)
    exact stmt_ret (returned_written hs (by omega))
  | .decl d, n, hs, hn => by
    obtain ⟨var, init⟩ := d
    obtain ⟨e, rfl, hvar, he, hwritten⟩ := VarDecl.eq_of_faithful hs
    rw [Stmt.written, hwritten] at hn ⊢
    simp only [List.length_append, List.length_cons] at hn
    obtain ⟨n, rfl⟩ : ∃ j, n = j + 1 := Nat.exists_eq_add_of_le' (by omega)
    exact stmt_decl (VarDef.regular_of_faithful hvar) fun _ _ h => declaration_written h he (by omega)
  | .assign a, n, hs, hn => by
    have hlen : 4 * (a.marks.length + 1) ≤ n := by simpa [Stmt.written] using hn
    obtain ⟨n, rfl⟩ : ∃ j, n = j + 1 := Nat.exists_eq_add_of_le' (by omega)
    exact stmt_assign (Assign.regular_of_faithful hs) (by omega)
  | .loop c body, n, hs, hn => by
    obtain ⟨hc, hbody⟩ : c.simple ∧ faithfulStmts body := by simpa [Stmt.faithful] using hs
    simp only [Stmt.written, inParens, inBraces, List.length_cons, List.length_append] at hn
    obtain ⟨n, rfl⟩ : ∃ j, n = j + 2 := Nat.exists_eq_add_of_le' (by omega)
    exact stmt_loop (c.regular_of_simple hc) (by omega) (stmts_written body n hbody (by omega))
  | .count init c step body, n, hs, hn => by
    obtain ⟨⟨⟨⟨hinit, hbegins⟩, hc⟩, hstep⟩, hbody⟩ : (((init.faithful ∧
        init.var.type.any DataType.begins) ∧ (c.passes || c.endsInCall Term.simple)) ∧
        step.faithful) ∧ faithfulStmts body := by
      simpa only [Stmt.faithful, Bool.and_eq_true] using hs
    obtain ⟨var, value⟩ := init
    obtain ⟨e, rfl, hvar, he, hwritten⟩ := VarDecl.eq_of_faithful hinit
    obtain ⟨name, v, rfl, hname, hv⟩ := Assign.eq_of_faithful hstep
    simp only [Stmt.written, hwritten, Assign.marks, inParens, inBraces, List.length_cons,
      List.length_append] at hn
    obtain ⟨n, rfl⟩ : ∃ j, n = j + 2 := Nat.exists_eq_add_of_le' (by omega)
    rw [Stmt.written, hwritten]
    refine stmt_count
      (declaration_written (declared_type (VarDef.regular_of_faithful hvar) hbegins) he (by omega))
      (condition_written hc (by omega))
      (assignment_reads (i := none) rfl (show regularRefs [] from rfl) (v.regular_of_simple hv) ?_)
      (stmts_written body n hbody (by omega))
    simp [indexMarks, selectorMarks]
    omega
  | .choice (.mk c body) others otherwise, n, hs, hn => by
    obtain ⟨⟨⟨hc, hbody⟩, hothers⟩, hotherwise⟩ : ((c.simple ∧ faithfulStmts body) ∧
        others = []) ∧ otherwise = [] := by simpa [Stmt.faithful] using hs
    subst hothers hotherwise
    simp only [Stmt.written, inParens, inBraces, List.length_cons, List.length_append] at hn
    obtain ⟨n, rfl⟩ : ∃ j, n = j + 2 := Nat.exists_eq_add_of_le' (by omega)
    rw [Stmt.written, ← List.append_nil (inBraces _)]
    exact stmt_choice (c.regular_of_simple hc) (by omega) (stmts_written body n hbody (by omega))
      alternatives_none
  | .call name none, _, hs, _ => by simp [Stmt.faithful, Term.passes, passesList] at hs
  | .call name (some l), n, hs, hn => by
    obtain ⟨hname, hl⟩ : name.kind = .id ∧ passesAlone l := by
      simpa [Stmt.faithful, Term.passes, passesList] using hs
    simp only [Stmt.written, Term.written, writtenList, inParens, List.length_cons,
      List.length_append] at hn
    obtain ⟨n, rfl⟩ : ∃ j, n = j + 1 := Nat.exists_eq_add_of_le' (by omega)
    exact stmt_call hname (arguments_written l n hl (by omega))
  | .expr _, _, hs, _ => by cases hs

theorem stmts_written : ∀ (l : List Stmt) (n : Nat), faithfulStmts l →
    4 * (writtenStmts l).length + 1 ≤ n → Reads (· = .rbrace) (stmts n) (writtenStmts l) l
  | [], n, _, hn => by
    obtain ⟨n, rfl⟩ : ∃ j, n = j + 1 := Nat.exists_eq_add_of_le' (by omega)
    exact stmts_nil
  | s :: l, n, h, hn => by
    obtain ⟨hs, hl⟩ : s.faithful ∧ faithfulStmts l := by simpa [faithfulStmts] using h
    have hlen : 4 * (s.written.length + (writtenStmts l).length) + 1 ≤ n := by
      simpa [writtenStmts] using hn
    have hpos := length_written_pos hs
    obtain ⟨n, rfl⟩ : ∃ j, n = j + 1 := Nat.exists_eq_add_of_le' (by omega)
    exact stmts_cons (opensStmt_lead_written hs) (ensues_lead_written hl)
      (stmt_written s n hs (by omega)) (stmts_written l n hl (by omega))

end

theorem body_written (l : List Stmt) (n : Nat) (hl : faithfulStmts l)
    (hn : 4 * (writtenStmts l).length + 1 ≤ n) :
    Reads (· = .rbrace) (body n) (writtenStmts l) l := by
  induction l generalizing n with
  | nil =>
    obtain ⟨n, rfl⟩ : ∃ j, n = j + 1 := Nat.exists_eq_add_of_le' (by omega)
    exact body_nil
  | cons s l ih =>
    obtain ⟨hs, hrest⟩ : s.faithful ∧ faithfulStmts l := by simpa [faithfulStmts] using hl
    have hlen : 4 * (s.written.length + (writtenStmts l).length) + 1 ≤ n := by
      simpa [writtenStmts] using hn
    have hpos := length_written_pos hs
    obtain ⟨n, rfl⟩ : ∃ j, n = j + 1 := Nat.exists_eq_add_of_le' (by omega)
    exact body_cons (opensStmt_lead_written hs) (ensues_lead_written hrest)
      (stmt_written s n hs (by omega)) (ih n hrest (by omega))

theorem functions_written (l : List FunDef) (n : Nat) (hl : l.all FunDef.faithful)
    (hn : 4 * (l.flatMap FunDef.written).length + 1 ≤ n) :
    Reads (· = .eos) (definitions n) (l.flatMap FunDef.written) ⟨[], l⟩ := by
  induction l generalizing n with
  | nil =>
    obtain ⟨n, rfl⟩ : ∃ j, n = j + 1 := Nat.exists_eq_add_of_le' (by omega)
    exact definitions_nil
  | cons d l ih =>
    obtain ⟨hd, hrest⟩ : d.faithful ∧ l.all FunDef.faithful := by simpa using hl
    obtain ⟨⟨⟨⟨hreturns, -⟩, hname⟩, hparams⟩, hbody⟩ : ((((d.returns.regular || d.returns.isVoid) ∧
        d.returns.isArray = false) ∧ d.name.kind = .id) ∧ d.params.all VarDef.faithful) ∧
        faithfulStmts d.body := by
      simpa only [FunDef.faithful, Bool.and_eq_true, beq_iff_eq, Bool.not_eq_true'] using hd
    have hparams' : d.params.all VarDef.regular := List.all_eq_true.2 fun x hx =>
      VarDef.regular_of_faithful (List.all_eq_true.1 hparams x hx)
    rw [List.flatMap_cons, List.length_append, FunDef.written] at hn
    simp only [inParens, inBraces, List.length_cons, List.length_append] at hn
    obtain ⟨n, rfl⟩ : ∃ j, n = j + 1 := Nat.exists_eq_add_of_le' (by omega)
    rw [List.flatMap_cons]
    exact definitions_function (fun k => opensFunction_lead hreturns k _)
      (funDef_reads hreturns hname hparams' (by omega) (body_written d.body n hbody (by omega)))
      (ih n hrest (by omega))

/-- The parser gives back a program of which the printer loses nothing. -/
theorem program_written {p : Program} (hp : p.faithful) {s : Feed} {line column : Nat}
    (hend : s.ending = .marks line column) (hs : Fits p.written (s.ahead.map Reading.token)) :
    ∃ s', program s = .ok p s' := by
  obtain ⟨hstructs, hfunctions⟩ : p.structs.all StructDef.faithful ∧
      p.functions.all FunDef.faithful := by simpa only [Program.faithful, Bool.and_eq_true] using hp
  have hstructs' : p.structs.all StructDef.regular := List.all_eq_true.2 fun d hd =>
    StructDef.regular_of_faithful (List.all_eq_true.1 hstructs d hd)
  have hlen : p.written.length = s.ahead.length := by simpa using hs.length_eq
  refine program_of_reads (structs_read p.structs _ hstructs' ?_ fun n hn =>
    functions_written p.functions n hfunctions hn) hend hs
  rw [← Program.written, hlen, depth]
  omega

end Parser
end StackLang
