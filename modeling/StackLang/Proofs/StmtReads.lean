import StackLang.Proofs.ExprReads

namespace StackLang.Parser

open Parse

variable {follow : Token.Kind → Prop} {ms ns : List Mark}

theorem dataType_reads {t : DataType} (h : t.regular) : Reads follow dataType t.marks t := by
  obtain ⟨isArray, name⟩ := t
  cases name with
  | none => cases h
  | some u =>
    have hu : u.kind.namesType := h
    cases isArray with
    | false =>
      refine .look_held ?_
      have hr : Reads follow (advance >>= fun _ => Pure.pure (⟨false, some u⟩ : DataType)) [.held u]
          ⟨false, some u⟩ := .last (.advance _) (.pure _)
      revert hu
      cases u.kind <;> intro hu <;> first | exact hr | cases hu
    | true =>
      refine .look fun v hv => ?_
      have hkind : v.kind = .arrayKw := Mark.kind_of_fits hv
      rw [hkind]
      refine .cons (.advance _) (.look_held ?_)
      rw [if_pos (namesType_iff.mp hu)]
      exact .last (.advance _) (.pure _)

theorem varDef_marks {d : VarDef} (h : d.regular) :
    ∃ type name, d = ⟨some type, some name⟩ ∧ type.regular ∧ name.kind = .id ∧
      d.marks = type.marks ++ [.held name] := by
  obtain ⟨_ | type, _ | name⟩ := d
  all_goals simp [VarDef.regular] at h
  exact ⟨type, name, rfl, h.1, h.2, rfl⟩

theorem parameter_reads {d : VarDef} (h : d.regular) : Reads follow parameter d.marks d := by
  obtain ⟨type, name, rfl, htype, hname, hmarks⟩ := varDef_marks h
  rw [hmarks]
  exact (dataType_reads htype).append (.last (.take hname) (.pure _))

theorem begins_marks {t : DataType} (h : t.regular) (hb : t.begins) :
    ∃ m ms, t.marks = m :: ms ∧ (m.kind.isBaseType ∨ m.kind = .arrayKw) := by
  obtain ⟨_ | _, _ | u⟩ := t
  · cases h
  · exact ⟨.held u, [], rfl, Or.inl hb⟩
  · cases h
  · exact ⟨.sign .arrayKw, [.held u], rfl, Or.inr rfl⟩

theorem declared_type {d : VarDef} (h : d.regular) (ht : d.type.any DataType.begins) :
    Reads follow (declared none) d.marks d := by
  obtain ⟨type, name, rfl, htype, hname, hmarks⟩ := varDef_marks h
  obtain ⟨m, ms, hm, hkind⟩ := begins_marks htype ht
  have hr : Reads follow (dataType >>= fun t => take .id >>= fun u =>
      Pure.pure (⟨some t, some u⟩ : VarDef)) (type.marks ++ [.held name]) ⟨some type, some name⟩ :=
    (dataType_reads htype).append (.last (.take hname) (.pure _))
  rw [hmarks, declared]
  rw [hm] at hr ⊢
  refine .look fun t hfit => ?_
  rw [Mark.kind_of_fits hfit, if_pos hkind]
  exact hr

theorem declared_name {named : Option Token} {name : Token} (hname : name.kind = .id) :
    Reads follow (declared named) [.held name] ⟨some ⟨false, named⟩, some name⟩ := by
  refine .look_held ?_
  rw [hname, if_neg (by decide), if_pos rfl]
  exact .last (.advance _) (.pure _)

theorem declaration_reads {n : Nat} {named : Option Token} {var : VarDef} {init : Option Expr}
    (hvar : Reads (fun _ => True) (declared named) ms var) (hinit : regularIfAny init)
    (hn : 4 * (VarDecl.initMarks init).length ≤ n) :
    Reads (· = .semicolon) (declaration n named) (ms ++ VarDecl.initMarks init) ⟨var, init⟩ := by
  rw [declaration]
  refine hvar.append ?_
  cases init with
  | none => exact .sees false (fun k hk => hk ▸ rfl) (.pure _)
  | some e =>
    refine .sees true (fun _ _ => rfl) (.cons (.advance _) ?_)
    have he := expr_reads e n hinit (by simp [VarDecl.initMarks] at hn; omega)
    refine .last (he.weaken fun k hk => hk ▸ rfl) ?_
    exact .sees false (fun k hk => hk ▸ rfl) (.pure _)

theorem assignment_reads {n : Nat} {name : Token} {i : Option Expr} {refs : List Ref} {e : Expr}
    (hi : regularIfAny i) (hrefs : regularRefs refs) (he : e.regular)
    (hn : 4 * ((indexMarks i ++ selectorMarks refs) ++ .sign .assign :: e.marks).length ≤ n) :
    Reads (stops ·) (assignment n name)
      ((indexMarks i ++ selectorMarks refs) ++ .sign .assign :: e.marks) ⟨.mk name i :: refs, e⟩ := by
  simp only [List.length_append, List.length_cons] at hn
  obtain ⟨n, rfl⟩ : ∃ j, n = j + 1 := Nat.exists_eq_add_of_le' (by omega)
  have hpath := path_reads name (index_reads i n hi (by omega))
    (selectors_reads refs n hrefs (by omega))
  refine hpath.bind (.cons .eat (.last (expr_reads e (n + 1) he (by omega)) (.pure _))) fun _ _ => rfl

theorem condition_reads {n : Nat} {e : Expr} (he : e.regular) (hn : 4 * e.marks.length ≤ n) :
    Reads (· = .semicolon) (condition n) e.marks e := by
  refine .last ((expr_reads e n he hn).weaken fun k hk => hk ▸ rfl) ?_
  exact .sees false (fun k hk => hk ▸ rfl) (.pure _)

theorem returned_reads {n : Nat} {e : Expr} (he : e.regular) (hn : 4 * e.marks.length ≤ n) :
    Reads (· = .semicolon) (returned n) e.marks e := by
  refine .last ((expr_reads e n he hn).weaken fun k hk => hk ▸ rfl) ?_
  split
  · exact .sees false (fun k hk => hk ▸ rfl) (.pure _)
  · exact .pure _

/-- What may stand behind a statement: nothing that goes on with an alternative. -/
def ensues (k : Token.Kind) : Bool := k != .elseifKw && k != .elseKw

/-- What a statement starts with. -/
def opensStmt : Token.Kind → Bool
  | .whileKw | .ifKw | .forKw | .returnKw | .intType | .doubleType | .boolType | .stringType
  | .arrayKw | .id => true
  | _ => false

theorem ensues_of_opensStmt {k : Token.Kind} (h : opensStmt k) : ensues k := by
  cases k <;> first | rfl | cases h

theorem opensStmt_lead_varDef {d : VarDef} (h : d.regular) (k : Token.Kind) :
    opensStmt (lead k d.marks) := by
  obtain ⟨type, name, rfl, htype, hname, hmarks⟩ := varDef_marks h
  obtain ⟨_ | _, _ | u⟩ := type
  · cases htype
  · have hu : u.kind.namesType := htype
    change opensStmt u.kind
    cases hk : u.kind <;> first | rfl | (rw [hk] at hu; cases hu)
  · cases htype
  · rfl

theorem opensStmt_lead {s : Stmt} (h : s.regular) (k : Token.Kind) : opensStmt (lead k s.marks) := by
  cases s with
  | ret e | loop c body | count init c step body => rfl
  | choice first others otherwise => cases first; rfl
  | decl d =>
    have hd : d.var.regular ∧ regularIfAny d.init := by simpa [Stmt.regular, VarDecl.regular] using h
    rw [Stmt.marks, VarDecl.marks, List.append_assoc, lead_append]
    exact opensStmt_lead_varDef hd.1 _
  | assign a =>
    obtain ⟨_ | ⟨⟨name, i⟩, refs⟩, e⟩ := a
    · cases h
    · have hname : name.kind = .id := by
        simp [Stmt.regular, Assign.regular, regularRefs] at h
        exact h.1.1.1
      change opensStmt name.kind
      rw [hname]
      rfl
  | call callee args =>
    have hname : callee.kind = .id := by
      simp [Stmt.regular] at h
      exact h.1.1
    change opensStmt callee.kind
    rw [hname]
    rfl
  | expr e => cases h

theorem flatMap_echo {body : List Stmt} (h : body.all (!·.isCall)) : body.flatMap echo = body := by
  induction body with
  | nil => rfl
  | cons s body ih =>
    obtain ⟨hs, hbody⟩ : s.isCall = false ∧ body.all (!·.isCall) := by simpa using h
    have he : echo s = [s] := by cases s <;> first | rfl | cases hs
    rw [List.flatMap_cons, he, ih hbody, List.singleton_append]

theorem block_reads {n : Nat} {l : List Stmt} (h : Reads (· = .rbrace) (stmts n) ms l) :
    Reads follow (block (n + 1)) (inBraces ms) l := by
  rw [block]
  exact .cons .eat (h.bind (.last .eat (.pure _)) fun _ _ => rfl)

/-- The condition of a loop or choice, which must not be missing. -/
theorem condition_in_parens {β : Type} {n : Nat} {c : Expr} {b : β} {refusal : Parse β}
    {f : Expr → Parse β} (hc : c.regular) (hn : 4 * c.marks.length ≤ n) (h : Reads follow (f c) ms b) :
    Reads follow (eat .lparen >>= fun _ => sees .rparen >>= fun missing =>
      if missing then refusal else expr n >>= fun c => eat .rparen >>= fun _ => f c)
      (inParens c.marks ++ ms) b := by
  rw [inParens_append]
  refine .cons .eat (.sees false (fun k _ => ?_) ?_)
  · rw [lead_append]
    exact beq_of_test (opens_lead hc _) rfl
  · exact (expr_reads c n hc hn).bind (.cons .eat h) fun _ _ => rfl

theorem stmt_ret {n : Nat} {e : Expr} (h : Reads (· = .semicolon) (returned n) ms e) :
    Reads follow (stmt (n + 1)) (.sign .returnKw :: (ms ++ [.sign .semicolon])) (.ret e) := by
  rw [stmt]
  refine .kind fun k _ => .cons (.advance _) ?_
  exact h.bind (.last .eat (.pure _)) fun _ _ => rfl

theorem stmt_loop {n : Nat} {c : Expr} {body : List Stmt} (hc : c.regular)
    (hn : 4 * c.marks.length ≤ n + 1) (hbody : Reads (· = .rbrace) (stmts n) ms body) :
    Reads follow (stmt (n + 2)) (.sign .whileKw :: (inParens c.marks ++ inBraces ms))
      (.loop c body) := by
  rw [stmt]
  refine .kind fun k _ => .cons (.advance _) (condition_in_parens hc hn ?_)
  exact .last (block_reads hbody) (.pure _)

theorem stmt_choice {n : Nat} {c : Expr} {body otherwise : List Stmt} {others : List Branch}
    (hc : c.regular) (hn : 4 * c.marks.length ≤ n + 1)
    (hbody : Reads (· = .rbrace) (stmts n) ns body)
    (halt : Reads follow (alternatives (n + 1)) ms (others, otherwise)) :
    Reads follow (stmt (n + 2)) (.sign .ifKw :: (inParens c.marks ++ (inBraces ns ++ ms)))
      (.choice (.mk c body) others otherwise) := by
  rw [stmt]
  refine .kind fun k hk => .cons (.advance _) (condition_in_parens hc hn ?_)
  exact (block_reads hbody).append (.last (halt.weaken fun j (hj : j = k) => hj ▸ hk) (.pure _))

/-- A counting loop is read once the three parts of its head and its body are. -/
theorem stmt_count {n : Nat} {init : VarDecl} {c : Expr} {name : Token} {step : Assign}
    {body : List Stmt} {is cs ss : List Mark}
    (hinit : Reads (· = .semicolon) (declaration (n + 1) none) is init)
    (hc : Reads (· = .semicolon) (condition (n + 1)) cs c)
    (hstep : Reads (stops ·) (assignment (n + 1) name) ss step)
    (hbody : Reads (· = .rbrace) (stmts n) ms body) :
    Reads follow (stmt (n + 2))
      (.sign .forKw :: (inParens (is ++ (.sign .semicolon :: (cs ++
        (.sign .semicolon :: .held name :: ss)))) ++ inBraces ms)) (.count init c step body) := by
  rw [stmt]
  simp only [inParens_append, List.append_assoc, List.cons_append]
  refine .kind fun k _ => .cons (.advance _) (.cons .eat ?_)
  refine hinit.bind (.cons .eat ?_) fun _ _ => rfl
  refine hc.bind (.cons .eat ?_) fun _ _ => rfl
  refine .look_held (.cons (.advance _) ?_)
  refine hstep.bind (.cons .eat ?_) fun _ _ => rfl
  exact .last (block_reads hbody) (.pure _)

theorem stmt_count_regular {n : Nat} {init : VarDecl} {c : Expr} {step : Assign} {body : List Stmt}
    (hinit : init.regular) (hbegins : init.var.type.any DataType.begins) (hc : c.regular)
    (hstep : step.regular) (hn : 4 * (init.marks.length + c.marks.length + step.marks.length) ≤ n + 1)
    (hbody : Reads (· = .rbrace) (stmts n) (stmtMarks body) body) :
    Reads follow (stmt (n + 2)) (Stmt.count init c step body).marks (.count init c step body) := by
  obtain ⟨hvar, hi⟩ : init.var.regular ∧ regularIfAny init.init := by
    simpa [VarDecl.regular] using hinit
  obtain ⟨_ | ⟨⟨name, i⟩, refs⟩, e⟩ := step
  · cases hstep
  · obtain ⟨⟨⟨hname, hindex⟩, hrefs⟩, he⟩ :
        ((name.kind = .id ∧ regularIfAny i) ∧ regularRefs refs) ∧ e.regular := by
      simpa [Assign.regular, regularRefs] using hstep
    simp only [VarDecl.marks, Assign.marks, pathMarks, Ref.marks, List.length_append,
      List.length_cons] at hn
    have hdecl : Reads (· = .semicolon) (declaration (n + 1) none) init.marks init :=
      declaration_reads (declared_type hvar hbegins) hi (by omega)
    have hassign : Reads (stops ·) (assignment (n + 1) name) _ ⟨.mk name i :: refs, e⟩ :=
      assignment_reads hindex hrefs he (by simp only [List.length_append, List.length_cons]; omega)
    exact stmt_count hdecl (condition_reads hc (by omega)) hassign hbody

/-- A declaration is read once its initial value is, whichever way its type is read. -/
theorem stmt_decl {n : Nat} {var : VarDef} {init : Option Expr} (hvar : var.regular)
    (hdecl : ∀ named ns, Reads (fun _ => True) (declared named) ns var →
      Reads (· = .semicolon) (declaration n named) (ns ++ ms) ⟨var, init⟩) :
    Reads follow (stmt (n + 1)) ((var.marks ++ ms) ++ [.sign .semicolon]) (.decl ⟨var, init⟩) := by
  obtain ⟨type, name, rfl, htype, hname, hmarks⟩ := varDef_marks hvar
  rw [stmt]
  simp only [pure_bind]
  refine .kind fun k _ => ?_
  by_cases hbegins : type.begins
  · obtain ⟨m, ns, hm, hkind⟩ := begins_marks htype hbegins
    have hr : Reads (· = k) (declaration n none >>= fun d => eat .semicolon >>= fun _ =>
        Pure.pure (Stmt.decl d)) ((VarDef.marks ⟨some type, some name⟩ ++ ms) ++ [.sign .semicolon])
        (.decl ⟨⟨some type, some name⟩, init⟩) :=
      (hdecl none _ (declared_type hvar hbegins)).bind (.last .eat (.pure _)) fun _ _ => rfl
    rw [hmarks, hm] at hr ⊢
    rw [List.cons_append, List.cons_append, List.cons_append, lead] at *
    revert hkind
    cases m.kind <;> intro hkind <;> first | exact hr | simp [Token.Kind.isBaseType] at hkind
  · obtain ⟨_ | _, _ | u⟩ := type
    · cases htype
    · -- The name of a struct is taken first, and the variable is declared with it.
      have hu : u.kind = .id := (namesType_iff.mp htype).resolve_right fun h => hbegins h
      have hshape : (DataType.marks ⟨false, some u⟩ ++ [.held name] ++ ms) ++ [.sign .semicolon] =
          .held u :: (([.held name] ++ ms) ++ [.sign .semicolon]) := rfl
      rw [hmarks, hshape, lead, Mark.kind, hu]
      refine .cons (.take hu) (.kind fun k _ => ?_)
      rw [List.cons_append, List.cons_append, lead, Mark.kind, hname]
      exact (hdecl (some u) [.held name] (declared_name hname)).bind (.last .eat (.pure _))
        fun _ _ => rfl
    · cases htype
    · exact absurd rfl hbegins

theorem stmt_call {n : Nat} {callee : Token} {args : Option (List Expr)} (hcallee : callee.kind = .id)
    (hargs : Reads (fun _ => True) (arguments n) (inParens ms) args) :
    Reads follow (stmt (n + 1)) (.held callee :: (inParens ms ++ [.sign .semicolon]))
      (.call callee args) := by
  rw [stmt]
  simp only [pure_bind]
  refine .kind fun k _ => ?_
  rw [lead, Mark.kind, hcallee]
  refine .cons (.take hcallee) (.kind fun k _ => ?_)
  exact hargs.append (.last .eat (.pure _))

/-- What follows the name that an assignment starts with. -/
theorem lead_target (k : Token.Kind) (i : Option Expr) (refs : List Ref) (ns : List Mark) :
    lead k ((indexMarks i ++ selectorMarks refs) ++ .sign .assign :: ns) = .lbracket ∨
    lead k ((indexMarks i ++ selectorMarks refs) ++ .sign .assign :: ns) = .dot ∨
    lead k ((indexMarks i ++ selectorMarks refs) ++ .sign .assign :: ns) = .assign := by
  cases i with
  | some e => exact Or.inl rfl
  | none =>
    cases refs with
    | nil => exact Or.inr (Or.inr rfl)
    | cons r refs => exact Or.inr (Or.inl rfl)

theorem stmt_assign {n : Nat} {a : Assign} (ha : a.regular) (hn : 4 * a.marks.length ≤ n) :
    Reads follow (stmt (n + 1)) (Stmt.assign a).marks (.assign a) := by
  obtain ⟨_ | ⟨⟨name, i⟩, refs⟩, e⟩ := a
  · cases ha
  · obtain ⟨⟨⟨hname, hi⟩, hrefs⟩, he⟩ :
        ((name.kind = .id ∧ regularIfAny i) ∧ regularRefs refs) ∧ e.regular := by
      simpa [Assign.regular, regularRefs] using ha
    have hassign : Reads (stops ·) (assignment n name) _ ⟨.mk name i :: refs, e⟩ :=
      assignment_reads hi hrefs he (by
        simp only [Assign.marks, pathMarks, Ref.marks, List.length_append, List.length_cons] at hn ⊢
        omega)
    have hmarks : (Stmt.assign ⟨.mk name i :: refs, e⟩).marks = .held name ::
        (((indexMarks i ++ selectorMarks refs) ++ .sign .assign :: e.marks) ++
          [.sign .semicolon]) := by
      simp only [Stmt.marks, Assign.marks, pathMarks, Ref.marks, List.cons_append]
    rw [stmt, hmarks]
    simp only [pure_bind]
    refine .kind fun k _ => ?_
    rw [lead, Mark.kind, hname]
    refine .cons (.take hname) (.kind fun k _ => ?_)
    have hr : Reads (· = k) (assignment n name >>= fun a => eat .semicolon >>= fun _ =>
        Pure.pure (Stmt.assign a)) _ (.assign ⟨.mk name i :: refs, e⟩) :=
      hassign.bind (.last .eat (.pure _)) fun _ _ => rfl
    rw [lead_append]
    obtain h | h | h := lead_target (lead k [.sign .semicolon]) i refs e.marks
    all_goals
      rw [h]
      exact hr

theorem ensues_lead_stmtMarks {l : List Stmt} (hl : regularStmts l) :
    ensues (lead .rbrace (stmtMarks l)) := by
  cases l with
  | nil => rfl
  | cons s l =>
    have hs : s.regular := by simp [regularStmts] at hl; exact hl.1
    rw [stmtMarks, lead_append]
    exact ensues_of_opensStmt (opensStmt_lead hs _)

theorem stmts_nil {n : Nat} : Reads (· = .rbrace) (stmts (n + 1)) [] [] := by
  rw [stmts]
  exact .sees_next (.pure _)

theorem length_stmt_marks_pos {s : Stmt} (h : s.regular) : 1 ≤ s.marks.length := by
  cases hm : s.marks with
  | nil =>
    have hlead := opensStmt_lead h .eos
    rw [hm] at hlead
    cases hlead
  | cons m ms => simp

theorem stmts_cons {n : Nat} {s : Stmt} {l : List Stmt} (hopen : ∀ k, opensStmt (lead k ms))
    (hensues : ensues (lead .rbrace ns)) (hs : Reads (ensues ·) (stmt n) ms s)
    (hstmts : Reads (· = .rbrace) (stmts n) ns l) :
    Reads (· = .rbrace) (stmts (n + 1)) (ms ++ ns) (s :: l) := by
  rw [stmts]
  refine .sees false (fun k _ => ?_) ?_
  · rw [lead_append]
    exact beq_of_test (hopen _) rfl
  · exact hs.bind (.last hstmts (.pure _)) fun k hk => hk ▸ hensues

theorem alternatives_none {n : Nat} : Reads (ensues ·) (alternatives (n + 1)) [] ([], []) := by
  rw [alternatives]
  refine .kind fun k hk => ?_
  rw [lead]
  cases k <;> first | exact .pure _ | cases hk

theorem alternatives_else {n : Nat} {body : List Stmt} (hcall : body.all (!·.isCall))
    (hbody : Reads (· = .rbrace) (stmts n) (stmtMarks body) body) :
    Reads follow (alternatives (n + 2)) (.sign .elseKw :: inBraces (stmtMarks body)) ([], body) := by
  rw [alternatives]
  refine .kind fun k _ => .cons (.advance _) (.last (block_reads hbody) ?_)
  rw [flatMap_echo hcall]
  exact .pure _

theorem alternatives_elseif {n : Nat} {c : Expr} {body otherwise : List Stmt} {others : List Branch}
    (hc : c.regular) (hn : 4 * c.marks.length ≤ n + 1) (hcall : body.all (!·.isCall))
    (hbody : Reads (· = .rbrace) (stmts n) (stmtMarks body) body)
    (halt : Reads follow (alternatives (n + 1)) ms (others, otherwise)) :
    Reads follow (alternatives (n + 2))
      (.sign .elseifKw :: (inParens c.marks ++ (inBraces (stmtMarks body) ++ ms)))
      (.mk c body :: others, otherwise) := by
  rw [alternatives, inParens_append]
  refine .kind fun k hk => .cons (.advance _) (.cons .eat ?_)
  refine (expr_reads c (n + 1) hc hn).bind (.cons .eat ((block_reads hbody).append ?_)) fun _ _ => rfl
  refine .last (halt.weaken fun j (hj : j = k) => hj ▸ hk) ?_
  rw [flatMap_echo hcall]
  exact .pure _

mutual

theorem stmt_reads : ∀ (s : Stmt) (n : Nat), s.regular → 4 * s.marks.length ≤ n →
    Reads (ensues ·) (stmt n) s.marks s
  | .ret e, n, hs, hn => by
    have hlen : 4 * (e.marks.length + 2) ≤ n := by simpa [Stmt.marks] using hn
    obtain ⟨n, rfl⟩ : ∃ j, n = j + 1 := Nat.exists_eq_add_of_le' (by omega)
    exact stmt_ret (returned_reads hs (by omega))
  | .decl d, n, hs, hn => by
    have hlen : 4 * (d.marks.length + 1) ≤ n := by simpa [Stmt.marks] using hn
    obtain ⟨n, rfl⟩ : ∃ j, n = j + 1 := Nat.exists_eq_add_of_le' (by omega)
    obtain ⟨hvar, hi⟩ : d.var.regular ∧ regularIfAny d.init := by
      simpa [Stmt.regular, VarDecl.regular] using hs
    simp only [VarDecl.marks, List.length_append] at hlen
    exact stmt_decl hvar fun _ _ h => declaration_reads h hi (by omega)
  | .assign a, n, hs, hn => by
    have hlen : 4 * (a.marks.length + 1) ≤ n := by simpa [Stmt.marks] using hn
    obtain ⟨n, rfl⟩ : ∃ j, n = j + 1 := Nat.exists_eq_add_of_le' (by omega)
    exact stmt_assign hs (by omega)
  | .loop c body, n, hs, hn => by
    obtain ⟨hc, hbody⟩ : c.regular ∧ regularStmts body := by simpa [Stmt.regular] using hs
    have hlen : 4 * (c.marks.length + (stmtMarks body).length + 5) ≤ n := by
      simp [Stmt.marks, inParens, inBraces] at hn
      omega
    obtain ⟨n, rfl⟩ : ∃ j, n = j + 2 := Nat.exists_eq_add_of_le' (by omega)
    exact stmt_loop hc (by omega) (stmts_reads body n hbody (by omega))
  | .count init c step body, n, hs, hn => by
    obtain ⟨⟨⟨⟨hinit, hbegins⟩, hc⟩, hstep⟩, hbody⟩ : (((init.regular ∧
        init.var.type.any DataType.begins) ∧ c.regular) ∧ step.regular) ∧ regularStmts body := by
      simpa [Stmt.regular] using hs
    have hlen : 4 * (init.marks.length + c.marks.length + step.marks.length +
        (stmtMarks body).length + 7) ≤ n := by
      simp [Stmt.marks, inParens, inBraces] at hn
      omega
    obtain ⟨n, rfl⟩ : ∃ j, n = j + 2 := Nat.exists_eq_add_of_le' (by omega)
    exact stmt_count_regular hinit hbegins hc hstep (by omega) (stmts_reads body n hbody (by omega))
  | .choice (.mk c body) others [], n, hs, hn => by
    obtain ⟨⟨hc, hbody⟩, hothers⟩ : (c.regular ∧ regularStmts body) ∧ regularBranches others := by
      simpa [Stmt.regular, regularStmts] using hs
    have hlen : 4 * (c.marks.length + (stmtMarks body).length + (branchMarks others ++ []).length
        + 5) ≤ n := by
      simp [Stmt.marks, inParens, inBraces] at hn ⊢
      omega
    obtain ⟨n, rfl⟩ : ∃ j, n = j + 2 := Nat.exists_eq_add_of_le' (by omega)
    refine stmt_choice hc (by omega) (stmts_reads body n hbody (by omega))
      (alternatives_reads others (n + 1) [] [] hothers (by omega) fun n hn => ?_)
    obtain ⟨n, rfl⟩ : ∃ j, n = j + 1 := Nat.exists_eq_add_of_le' (by omega)
    exact alternatives_none
  | .choice (.mk c body) others (s :: l), n, hs, hn => by
    obtain ⟨⟨⟨⟨hc, hbody⟩, hothers⟩, hother⟩, hcall⟩ : (((c.regular ∧ regularStmts body) ∧
        regularBranches others) ∧ regularStmts (s :: l)) ∧ (s :: l).all (!·.isCall) := by
      simpa only [Stmt.regular, Bool.and_eq_true] using hs
    have hlen : 4 * (c.marks.length + (stmtMarks body).length +
        (branchMarks others ++ (.sign .elseKw :: inBraces (stmtMarks (s :: l)))).length + 5) ≤ n := by
      simp [Stmt.marks, inParens, inBraces] at hn ⊢
      omega
    obtain ⟨n, rfl⟩ : ∃ j, n = j + 2 := Nat.exists_eq_add_of_le' (by omega)
    have hmarks : (Stmt.choice (.mk c body) others (s :: l)).marks = .sign .ifKw ::
        (inParens c.marks ++ (inBraces (stmtMarks body) ++
          (branchMarks others ++ (.sign .elseKw :: inBraces (stmtMarks (s :: l)))))) := rfl
    rw [hmarks]
    refine stmt_choice hc (by omega) (stmts_reads body n hbody (by omega))
      (alternatives_reads others (n + 1) _ _ hothers (by omega) fun n hn => ?_)
    simp only [inBraces, List.length_cons, List.length_append] at hn
    obtain ⟨n, rfl⟩ : ∃ j, n = j + 2 := Nat.exists_eq_add_of_le' (by omega)
    exact alternatives_else hcall (stmts_reads (s :: l) n hother (by omega))
  | .call callee none, _, hs, _ => by simp [Stmt.regular] at hs
  | .call callee (some l), n, hs, hn => by
    obtain ⟨hcallee, hl⟩ : callee.kind = .id ∧ regularExprs l := by
      simpa [Stmt.regular, regularList] using hs
    have hlen : 4 * ((argumentMarks l).length + 4) ≤ n := by
      simpa [Stmt.marks, listMarks, inParens] using hn
    obtain ⟨n, rfl⟩ : ∃ j, n = j + 1 := Nat.exists_eq_add_of_le' (by omega)
    exact stmt_call hcallee (arguments_reads l n hl (by omega))
  | .expr _, _, hs, _ => by cases hs

theorem stmts_reads : ∀ (l : List Stmt) (n : Nat), regularStmts l →
    4 * (stmtMarks l).length + 1 ≤ n → Reads (· = .rbrace) (stmts n) (stmtMarks l) l
  | [], n, _, hn => by
    obtain ⟨n, rfl⟩ : ∃ j, n = j + 1 := Nat.exists_eq_add_of_le' (by omega)
    exact stmts_nil
  | s :: l, n, h, hn => by
    obtain ⟨hs, hl⟩ : s.regular ∧ regularStmts l := by simpa [regularStmts] using h
    have hlen : 4 * (s.marks.length + (stmtMarks l).length) + 1 ≤ n := by
      simpa [stmtMarks] using hn
    have hpos := length_stmt_marks_pos hs
    obtain ⟨n, rfl⟩ : ∃ j, n = j + 1 := Nat.exists_eq_add_of_le' (by omega)
    exact stmts_cons (opensStmt_lead hs) (ensues_lead_stmtMarks hl) (stmt_reads s n hs (by omega))
      (stmts_reads l n hl (by omega))

theorem alternatives_reads : ∀ (others : List Branch) (n : Nat) (tail : List Mark)
    (otherwise : List Stmt), regularBranches others →
    4 * (branchMarks others ++ tail).length + 1 ≤ n →
    (∀ n, 4 * tail.length + 1 ≤ n → Reads (ensues ·) (alternatives n) tail ([], otherwise)) →
    Reads (ensues ·) (alternatives n) (branchMarks others ++ tail) (others, otherwise)
  | [], n, tail, otherwise, _, hn, htail => htail n hn
  | .mk c body :: others, n, tail, otherwise, h, hn, htail => by
    obtain ⟨⟨⟨hc, hbody⟩, hcall⟩, hothers⟩ : ((c.regular ∧ regularStmts body) ∧
        body.all (!·.isCall)) ∧ regularBranches others := by
      simpa [regularBranches] using h
    have hlen : 4 * (c.marks.length + (stmtMarks body).length + (branchMarks others ++ tail).length
        + 5) + 1 ≤ n := by
      simp [branchMarks, inParens, inBraces] at hn ⊢
      omega
    obtain ⟨n, rfl⟩ : ∃ j, n = j + 2 := Nat.exists_eq_add_of_le' (by omega)
    simp only [branchMarks, List.cons_append, List.append_assoc]
    exact alternatives_elseif hc (by omega) hcall (stmts_reads body n hbody (by omega))
      (alternatives_reads others (n + 1) tail otherwise hothers (by omega) htail)

end

end StackLang.Parser
