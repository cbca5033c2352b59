import StackLang.Proofs.StmtReads

namespace StackLang.Parser

open Parse

variable {follow : Token.Kind → Prop} {ms ns : List Mark}

theorem body_nil {n : Nat} : Reads (· = .rbrace) (body (n + 1)) [] [] := by
  rw [body]
  refine .kind fun k hk => ?_
  rw [lead, if_pos (Or.inl hk)]
  exact .pure _

theorem body_cons {n : Nat} {s : Stmt} {l : List Stmt} (hopen : ∀ k, opensStmt (lead k ms))
    (hensues : ensues (lead .rbrace ns)) (hs : Reads (ensues ·) (stmt n) ms s)
    (hl : Reads (· = .rbrace) (body n) ns l) :
    Reads (· = .rbrace) (body (n + 1)) (ms ++ ns) (s :: l) := by
  rw [body]
  refine .kind fun k hk => ?_
  have hlead := hopen (lead k ns)
  rw [lead_append, if_neg (by rintro (h | h) <;> rw [h] at hlead <;> cases hlead)]
  refine hs.bind (.last (hl.weaken fun j (hj : j = k) => hj ▸ hk) (.pure _)) fun j hj => ?_
  rwa [hj, hk]

theorem body_reads (l : List Stmt) (n : Nat) (hl : regularStmts l)
    (hn : 4 * (stmtMarks l).length + 1 ≤ n) : Reads (· = .rbrace) (body n) (stmtMarks l) l := by
  induction l generalizing n with
  | nil =>
    obtain ⟨n, rfl⟩ : ∃ j, n = j + 1 := Nat.exists_eq_add_of_le' (by omega)
    exact body_nil
  | cons s l ih =>
    obtain ⟨hs, hrest⟩ : s.regular ∧ regularStmts l := by simpa [regularStmts] using hl
    have hlen : 4 * (s.marks.length + (stmtMarks l).length) + 1 ≤ n := by
      simpa [stmtMarks] using hn
    have hpos := length_stmt_marks_pos hs
    obtain ⟨n, rfl⟩ : ∃ j, n = j + 1 := Nat.exists_eq_add_of_le' (by omega)
    exact body_cons (opensStmt_lead hs) (ensues_lead_stmtMarks hrest) (stmt_reads s n hs (by omega))
      (ih n hrest (by omega))

theorem fields_reads (l : List VarDef) (n : Nat) (hl : l.all VarDef.regular)
    (hn : 4 * (fieldMarks l).length + 1 ≤ n) :
    Reads (· = .rbrace) (fields n) (fieldMarks l) l := by
  induction l generalizing n with
  | nil =>
    obtain ⟨n, rfl⟩ : ∃ j, n = j + 1 := Nat.exists_eq_add_of_le' (by omega)
    rw [fields]
    exact .sees_next (.pure _)
  | cons d l ih =>
    obtain ⟨hd, hrest⟩ : d.regular ∧ l.all VarDef.regular := by simpa using hl
    have hlen : 4 * (d.marks.length + ((fieldMarks l).length + 1)) + 1 ≤ n := by
      simpa [fieldMarks] using hn
    obtain ⟨n, rfl⟩ : ∃ j, n = j + 1 := Nat.exists_eq_add_of_le' (by omega)
    have hlead := fun k => opensStmt_lead_varDef hd k
    obtain ⟨type, name, rfl, htype, hname, hmarks⟩ := varDef_marks hd
    rw [fields, fieldMarks]
    refine .sees false (fun k _ => ?_) ?_
    · rw [lead_append]
      exact beq_of_test (hlead _) rfl
    · rw [hmarks, List.append_assoc]
      exact (dataType_reads htype).append (.cons (.take hname) (.cons .eat
        (.last (ih n hrest (by omega)) (.pure _))))

theorem structDef_reads {n : Nat} {d : StructDef} (hd : d.regular)
    (hn : 4 * (fieldMarks d.fields).length + 1 ≤ n) : Reads follow (structDef n) d.marks d := by
  obtain ⟨hname, hfields⟩ : d.name.kind = .id ∧ d.fields.all VarDef.regular := by
    simpa only [StructDef.regular, Bool.and_eq_true, beq_iff_eq] using hd
  refine .cons .eat (.cons (.take hname) (.cons .eat ?_))
  exact (fields_reads d.fields n hfields hn).bind (.last .eat (.pure _)) fun _ _ => rfl

theorem moreParameters_reads (l : List VarDef) (n : Nat) (hl : l.all VarDef.regular)
    (hn : (moreParameterMarks l).length + 1 ≤ n) :
    Reads (· = .rparen) (moreParameters n) (moreParameterMarks l) l := by
  induction l generalizing n with
  | nil =>
    obtain ⟨n, rfl⟩ : ∃ j, n = j + 1 := Nat.exists_eq_add_of_le' (by omega)
    rw [moreParameters]
    exact .sees false (fun k hk => hk ▸ rfl) (.pure _)
  | cons d l ih =>
    obtain ⟨hd, hrest⟩ : d.regular ∧ l.all VarDef.regular := by simpa using hl
    simp only [moreParameterMarks, List.length_cons, List.length_append] at hn
    obtain ⟨n, rfl⟩ : ∃ j, n = j + 1 := Nat.exists_eq_add_of_le' (by omega)
    rw [moreParameters, moreParameterMarks]
    refine .sees true (fun _ _ => rfl) (.cons (.advance _) ((parameter_reads hd).append ?_))
    exact .last (ih n hrest (by omega)) (.pure _)

theorem parameters_reads (l : List VarDef) (n : Nat) (hl : l.all VarDef.regular)
    (hn : (parameterMarks l).length + 1 ≤ n) :
    Reads (· = .rparen) (parameters n) (parameterMarks l) l := by
  rw [parameters]
  cases l with
  | nil => exact .sees_next (.pure _)
  | cons d l =>
    obtain ⟨hd, hrest⟩ : d.regular ∧ l.all VarDef.regular := by simpa using hl
    simp only [parameterMarks, List.length_append] at hn
    refine .sees false (fun k _ => ?_) ((parameter_reads hd).append ?_)
    · rw [parameterMarks, lead_append]
      exact beq_of_test (opensStmt_lead_varDef hd _) rfl
    · exact .last (moreParameters_reads l n hrest (by omega)) (.pure _)

theorem returnType_regular {t : DataType} (h : t.regular) : Reads follow returnType t.marks t := by
  have hr : Reads follow dataType t.marks t := dataType_reads h
  obtain ⟨_ | _, _ | u⟩ := t
  · cases h
  · rw [returnType]
    refine .kind fun k hk => ?_
    replace hr := hr.weaken fun j (hj : j = k) => hj ▸ hk
    have hu : u.kind.namesType := h
    have hlead : lead k (DataType.marks ⟨false, some u⟩) = u.kind := rfl
    rw [hlead]
    revert hu
    cases u.kind <;> intro hu <;> first | exact hr | cases hu
  · cases h
  · rw [returnType]
    exact .kind fun k hk => hr.weaken fun j (hj : j = k) => hj ▸ hk

theorem returnType_void {u : Token} (hu : u.kind = .voidType) :
    Reads follow returnType [.held u] ⟨false, some u⟩ := by
  rw [returnType]
  refine .kind fun k _ => ?_
  rw [lead, Mark.kind, hu, dataType, bind_assoc]
  refine .look_held ?_
  simp only [hu, pure_bind]
  exact .last (.advance _) (.pure _)

theorem returnType_reads {t : DataType} (h : t.regular || t.isVoid) :
    Reads follow returnType t.marks t := by
  obtain h | h := (Bool.or_eq_true _ _).mp h
  · exact returnType_regular h
  · obtain ⟨_ | _, _ | u⟩ := t
    · cases h
    · exact returnType_void (eq_of_beq h)
    · cases h
    · cases h

theorem funDef_reads {n : Nat} {d : FunDef} (hreturns : d.returns.regular || d.returns.isVoid)
    (hname : d.name.kind = .id) (hparams : d.params.all VarDef.regular)
    (hn : (parameterMarks d.params).length + 1 ≤ n) (hbody : Reads (· = .rbrace) (body n) ms d.body) :
    Reads follow (funDef n) (d.returns.marks ++ (.held d.name ::
      (inParens (parameterMarks d.params) ++ inBraces ms))) d := by
  rw [inParens_append, funDef]
  refine (returnType_reads hreturns).append (.cons (.take hname) (.cons .eat ?_))
  refine (parameters_reads d.params n hparams hn).bind (.cons (.expect rfl) (.cons .eat ?_))
    fun _ _ => rfl
  exact hbody.bind (.last (.expect rfl) (.pure _)) fun _ _ => rfl

theorem funDef_regular {n : Nat} {d : FunDef} (hd : d.regular) (hn : 4 * d.marks.length ≤ n) :
    Reads follow (funDef n) d.marks d := by
  obtain ⟨⟨⟨hreturns, hname⟩, hparams⟩, hbody⟩ : (((d.returns.regular || d.returns.isVoid) ∧
      d.name.kind = .id) ∧ d.params.all VarDef.regular) ∧ regularStmts d.body := by
    simpa only [FunDef.regular, Bool.and_eq_true, beq_iff_eq] using hd
  simp only [FunDef.marks, inParens, inBraces, List.length_append, List.length_cons] at hn
  exact funDef_reads hreturns hname hparams (by omega) (body_reads d.body n hbody (by omega))

/-- What a function starts with. -/
def opensFunction (k : Token.Kind) : Bool := k.namesType || k == .arrayKw || k == .voidType

theorem opensFunction_lead {t : DataType} (h : t.regular || t.isVoid) (k : Token.Kind)
    (ms : List Mark) : opensFunction (lead k (t.marks ++ ms)) := by
  obtain ⟨_ | _, _ | u⟩ := t
  · cases h
  · have hu : u.kind.namesType ∨ u.kind = .voidType := by
      simpa [DataType.regular, DataType.isVoid] using h
    change opensFunction u.kind
    obtain hu | hu := hu
    · rw [opensFunction, hu, Bool.true_or, Bool.true_or]
    · rw [hu]
      rfl
  · cases h
  · rfl

theorem definitions_function {n : Nat} {d : FunDef} {p : Program}
    (hopen : ∀ k, opensFunction (lead k ns)) (hd : Reads (fun _ => True) (funDef n) ns d)
    (h : Reads (· = .eos) (definitions n) ms p) :
    Reads (· = .eos) (definitions (n + 1)) (ns ++ ms) { p with functions := d :: p.functions } := by
  rw [definitions]
  refine .kind fun k hk => ?_
  have hr : Reads (· = k) (funDef n >>= fun d => definitions n >>= fun p =>
      Pure.pure { p with functions := d :: p.functions }) (ns ++ ms)
      { p with functions := d :: p.functions } :=
    hd.append (.last (h.weaken fun j (hj : j = k) => hj ▸ hk) (.pure _))
  have hlead := hopen (lead k ms)
  rw [lead_append]
  revert hlead
  cases lead (lead k ms) ns <;> intro hlead <;> first | exact hr | cases hlead

theorem definitions_struct {n : Nat} {d : StructDef} {p : Program} (hd : d.regular)
    (hn : 4 * d.marks.length ≤ n) (h : Reads (· = .eos) (definitions n) ms p) :
    Reads (· = .eos) (definitions (n + 1)) (d.marks ++ ms) { p with structs := d :: p.structs } := by
  simp only [StructDef.marks, inBraces, List.length_append, List.length_cons] at hn
  rw [definitions]
  refine .kind fun k hk => ?_
  exact (structDef_reads hd (by omega)).append
    (.last (h.weaken fun j (hj : j = k) => hj ▸ hk) (.pure _))

theorem definitions_nil {n : Nat} : Reads (· = .eos) (definitions (n + 1)) [] ⟨[], []⟩ := by
  rw [definitions]
  refine .kind fun k hk => ?_
  rw [lead, hk]
  exact .pure _

theorem functions_read (l : List FunDef) (n : Nat) (hl : l.all FunDef.regular)
    (hn : 4 * (l.flatMap FunDef.marks).length + 1 ≤ n) :
    Reads (· = .eos) (definitions n) (l.flatMap FunDef.marks) ⟨[], l⟩ := by
  induction l generalizing n with
  | nil =>
    obtain ⟨n, rfl⟩ : ∃ j, n = j + 1 := Nat.exists_eq_add_of_le' (by omega)
    exact definitions_nil
  | cons d l ih =>
    obtain ⟨hd, hrest⟩ : d.regular ∧ l.all FunDef.regular := by simpa using hl
    have hreturns : d.returns.regular || d.returns.isVoid := by
      simp only [FunDef.regular, Bool.and_eq_true] at hd
      exact hd.1.1.1
    have hpos : 1 ≤ d.marks.length := by simp [FunDef.marks]; omega
    rw [List.flatMap_cons, List.length_append] at hn
    obtain ⟨n, rfl⟩ : ∃ j, n = j + 1 := Nat.exists_eq_add_of_le' (by omega)
    rw [List.flatMap_cons]
    exact definitions_function (fun k => opensFunction_lead hreturns k _)
      (funDef_regular hd (by omega)) (ih n hrest (by omega))

theorem structs_read (structs : List StructDef) {functions : List FunDef} (n : Nat)
    (hs : structs.all StructDef.regular)
    (hn : 4 * (structs.flatMap StructDef.marks ++ ms).length + 1 ≤ n)
    (h : ∀ n, 4 * ms.length + 1 ≤ n → Reads (· = .eos) (definitions n) ms ⟨[], functions⟩) :
    Reads (· = .eos) (definitions n) (structs.flatMap StructDef.marks ++ ms)
      ⟨structs, functions⟩ := by
  induction structs generalizing n with
  | nil => exact h n hn
  | cons d l ih =>
    obtain ⟨hd, hrest⟩ : d.regular ∧ l.all StructDef.regular := by simpa using hs
    have hpos : 1 ≤ d.marks.length := by simp [StructDef.marks]
    rw [List.flatMap_cons, List.append_assoc, List.length_append] at hn
    obtain ⟨n, rfl⟩ : ∃ j, n = j + 1 := Nat.exists_eq_add_of_le' (by omega)
    rw [List.flatMap_cons, List.append_assoc]
    exact definitions_struct hd (by omega) (ih n hrest (by omega))

theorem advance_first (current : Option Token) (l c line column : Nat) (rs : List Reading) :
    advance ⟨current, l, c, rs, .marks line column⟩ = .ok () (Feed.facing line column rs) := by
  cases rs <;> rfl

theorem program_of_reads {p : Program} {s : Feed} {line column : Nat}
    (h : Reads (· = .eos) (definitions (depth s)) ms p) (hend : s.ending = .marks line column)
    (hs : Fits ms (s.ahead.map Reading.token)) : ∃ s', program s = .ok p s' := by
  obtain ⟨current, l, c, rs, ending⟩ := s
  have hdefs : definitions (16 * (rs.length + 2)) (Feed.facing line column (rs ++ [])) =
      .ok p (Feed.facing line column []) := h line column rs [] hs rfl
  rw [List.append_nil] at hdefs
  refine ⟨⟨some ⟨.eos, "", line, column + 1⟩, line, column + 1, [], .marks line (column + 2)⟩, ?_⟩
  subst hend
  change (advance >>= fun _ => definitions (16 * (rs.length + 2)) >>= fun p => eat .eos >>= fun _ =>
    Pure.pure p) _ = _
  rw [bind_of_ok (advance_first current l c line column rs), bind_of_ok hdefs]
  rfl

theorem program_reads {p : Program} (hp : p.regular) {s : Feed} {line column : Nat}
    (hend : s.ending = .marks line column) (hs : Fits p.marks (s.ahead.map Reading.token)) :
    ∃ s', program s = .ok p s' := by
  obtain ⟨hstructs, hfunctions⟩ : p.structs.all StructDef.regular ∧
      p.functions.all FunDef.regular := by simpa only [Program.regular, Bool.and_eq_true] using hp
  have hlen : p.marks.length = s.ahead.length := by simpa using hs.length_eq
  refine program_of_reads (structs_read p.structs _ hstructs ?_ fun n hn =>
    functions_read p.functions n hfunctions hn) hend hs
  rw [← Program.marks, hlen, depth]
  omega

end StackLang.Parser

namespace StackLang.Feed

/-- Tokens of a lexer that count for a parser. -/
def significant (ts : List Token) : List Token := ts.filter (·.kind != .comment)

theorem gather_listing (fuel : Nat) (comment : Option Token) (s : Lexer)
    (h : (Lexer.listing fuel s).failure = none) :
    ∃ t line column, t.kind = .eos ∧ (gather fuel comment s).2 = .marks line column ∧
      significant (Lexer.listing fuel s).tokens =
        (gather fuel comment s).1.map Reading.token ++ [t] := by
  induction fuel generalizing comment s with
  | zero => cases h
  | succ fuel ih =>
    rw [Lexer.listing] at h ⊢
    rw [gather]
    cases hnext : s.next with
    | error e s' => rw [hnext] at h; cases h
    | ok t s' =>
      simp only [hnext] at h ⊢
      by_cases heos : t.kind = .eos
      · rw [if_pos heos, if_pos heos]
        exact ⟨t, t.line, t.column, heos, rfl, by simp [significant, heos]⟩
      · rw [if_neg heos] at h ⊢
        rw [if_neg heos]
        by_cases hcomment : t.kind = .comment
        · rw [if_pos hcomment]
          obtain ⟨u, line, column, hu, hend, htokens⟩ := ih (some t) s' h
          refine ⟨u, line, column, hu, hend, ?_⟩
          rw [← htokens]
          simp [significant, hcomment]
        · rw [if_neg hcomment]
          obtain ⟨u, line, column, hu, hend, htokens⟩ := ih none s' h
          refine ⟨u, line, column, hu, hend, ?_⟩
          rw [List.map_cons, List.cons_append, ← htokens]
          simp [significant, hcomment]

end StackLang.Feed

namespace StackLang.Parser

/-- The parser gives a regular program back, each token at its place: from any feed that holds the
program's rendering, and from any source whose tokens, comments aside, are this rendering. -/
theorem parse_rendering (p : Program) (hp : p.regular) :
    (∀ (s : Feed) (line column : Nat), s.ending = .marks line column →
      Fits p.marks (s.ahead.map Reading.token) → ∃ s', program s = .ok p s') ∧
    ∀ source : Source, (Lexer.ofSource source).tokens.failure = none →
      Fits (p.marks ++ [.sign .eos]) (Feed.significant (Lexer.ofSource source).tokens.tokens) →
      parse source = .ok p := by
  refine ⟨fun s line column hend hs => program_reads hp hend hs, fun source hfail hfits => ?_⟩
  obtain ⟨t, line, column, -, hend, htokens⟩ :=
    Feed.gather_listing ((Lexer.ofSource source).rest.length + 1) none (Lexer.ofSource source) hfail
  rw [Lexer.tokens, htokens] at hfits
  obtain ⟨s', hs'⟩ := program_reads (s := Feed.ofSource source) hp hend hfits.of_concat
  rw [parse, EStateM.run, hs']

/-- The tree of `void f(T t) {while (not t.a[0] < 1) {t.a[0] = 1;}}`. -/
def fillingLoop : Program :=
  let name (lexeme : String) (column : Nat) : Token := ⟨.id, lexeme, 1, column⟩
  let numeral (lexeme : String) (column : Nat) : Expr :=
    .operand (.literal ⟨.intVal, lexeme, 1, column⟩)
  let item (column : Nat) : List Ref :=
    [.mk (name "t" column) none, .mk (name "a" (column + 2)) (some (numeral "0" (column + 4)))]
  ⟨[], [⟨⟨false, some ⟨.voidType, "void", 1, 1⟩⟩, name "f" 6,
    [⟨some ⟨false, some (name "T" 8)⟩, some (name "t" 10)⟩],
    [.loop (.mk (some true) (.path (item 25)) (some ⟨.less, "<", 1, 32⟩) (some (numeral "1" 34)))
      [.assign ⟨item 38, numeral "1" 47⟩]]⟩]⟩

theorem parse_fillingLoop :
    fillingLoop.regular ∧
      parse (.ofText "void f(T t) {while (not t.a[0] < 1) {t.a[0] = 1;}}") = .ok fillingLoop := by
  have h : fillingLoop.regular := by decide
  exact ⟨h, (parse_rendering fillingLoop h).2 _ (by decide +kernel) (by decide +kernel)⟩

end StackLang.Parser
