import StackLang.Recognizer
import StackLang.Proofs.Grammar
import StackLang.Proofs.Passing
import StackLang.Proofs.RoundTrip

namespace StackLang.Grammar

open Token

variable {D : Dialect} {a b : List Kind}

theorem Derives.index_cases (h : Derives D .index a b) : a = b ∨ front a = .lbracket := by
  cases h with
  | noIndex => exact Or.inl rfl
  | index => exact Or.inr rfl

theorem Derives.selectors_cases (h : Derives D .selectors a b) : a = b ∨ front a = .dot := by
  cases h with
  | noSelectors => exact Or.inl rfl
  | selectors => exact Or.inr rfl

theorem Derives.of_rparen (h : Derives D .expr a b) (ha : front a = .rparen) : a = b := by
  cases h with
  | operand h | operation h =>
    cases h with
    | literal hk =>
      rw [front_cons] at ha
      rw [ha] at hk
      cases hk
    | _ => cases ha
  | negation => cases ha
  | omitted => rfl

theorem Trail.cases (h : Trail D a b) : a = b ∨ front a = .lbracket ∨ front a = .dot := by
  obtain ⟨c, hi, hs⟩ := h
  obtain rfl | ha := hi.index_cases
  · exact hs.selectors_cases.imp_right Or.inr
  · exact Or.inr (Or.inl ha)

theorem Typed.opens (h : Typed D a b) :
    opensType (front a) ∨ front a = .lbracket ∨ front a = .dot := by
  cases h with
  | plain hk => exact Or.inl (by rw [front_cons, opensType, hk, Bool.true_or])
  | array | nested => exact Or.inl rfl
  | item _ h hne => exact Or.inr (h.cases.resolve_left hne)

theorem Results.opens (h : Results D a b) : Parser.opensFunction (front a) := by
  cases h with
  | value hk => exact (Bool.or_eq_true _ _).mpr (Or.inl hk)
  | nothing => rfl

theorem opensStmt_of_opensType {k : Kind} (h : opensType k) : Parser.opensStmt k := by
  cases k <;> first | rfl | cases h

theorem eq_id_of_namesType {k : Kind} (h : k.namesType) (hb : begins k = false) : k = .id := by
  obtain h | h := Parser.namesType_iff.mp h
  · exact h
  · rw [begins, h, Bool.true_or] at hb
    cases hb

theorem opensType_of_begins {k : Kind} (h : begins k) : opensType k := by
  cases k <;> first | rfl | cases h

end StackLang.Grammar

namespace StackLang.Recognizer

open Parse Token Grammar
open StackLang.Parser (closes trails trails_iff opensOperand ensues opensStmt)

variable {a b c d : List Kind} {n : Nat}

/-- Acceptance, for a parser without a result. -/
abbrev Accepts (p : Parse Unit) (a b : List Kind) : Prop := Passes p a b fun _ => True

/-- What may stand behind an operand: nothing that makes it longer. -/
def ends (k : Kind) : Bool := trails k && k != .lparen

theorem ends_of_closes {k : Kind} (h : closes k) : ends k := by
  cases k <;> first | rfl | cases h

theorem ends_of_isOperator {k : Kind} (h : k.isOperator) : ends k := by
  cases k <;> first | rfl | cases h

theorem operation_end (h : closes (front a)) : Accepts (operation (n + 1)) a a := by
  rw [operation]
  refine .kind ?_
  rw [if_neg (by rw [Parser.isOperator_of_stops (Parser.stops_of_closes h)]; decide)]
  exact .pure trivial

theorem operation_more {op : Kind} (hop : op.isOperator) (h : Accepts (expr n) a b) :
    Accepts (operation (n + 1)) (op :: a) b := by
  rw [operation]
  refine .kind ?_
  rw [front_cons, if_pos hop]
  exact .advance_bind h

theorem expr_operand (ha : opensOperand (front a)) (ho : Accepts (operand n) a b)
    (h : Accepts (operation n) b c) : Accepts (expr (n + 1)) a c := by
  have hr : Accepts (operand n >>= fun _ => operation n) a c := ho.bind fun _ _ => h
  rw [expr]
  refine .kind ?_
  revert ha
  cases front a <;> intro ha <;> first | exact hr | cases ha

theorem expr_group (hi : Accepts (expr n) a (.rparen :: b)) (h : Accepts (operation n) b c) :
    Accepts (expr (n + 1)) (.lparen :: a) c := by
  rw [expr]
  exact .kind (.advance_bind (hi.bind fun _ _ => .eat_bind h))

theorem operand_literal {k : Kind} (hk : k.isLiteral) : Accepts (operand (n + 1)) (k :: a) a := by
  rw [operand]
  refine .kind ?_
  have hr : Accepts advance (k :: a) a := .advance trivial
  revert hr
  cases k <;> first | exact id | cases hk

theorem index_none (h : front a ≠ .lbracket) : Accepts (index (n + 1)) a a := by
  rw [index]
  exact .sees_other h (.pure trivial)

theorem index_some (h : Accepts (expr n) a (.rbracket :: b)) :
    Accepts (index (n + 1)) (.lbracket :: a) b := by
  rw [index]
  exact .sees_next (.advance_bind (h.bind fun _ _ => .eat trivial))

theorem selectors_none (h : front a ≠ .dot) : Accepts (selectors (n + 1)) a a := by
  rw [selectors]
  exact .sees_other h (.pure trivial)

theorem selectors_some (hi : Accepts (index n) a b) (h : Accepts (selectors n) b c) :
    Accepts (selectors (n + 1)) (.dot :: .id :: a) c := by
  rw [selectors]
  exact .sees_next (.advance_bind (.eat_bind (hi.bind fun _ _ => h)))

theorem path_accepts (hi : Accepts (index n) a b) (h : Accepts (selectors n) b c) :
    Accepts (path (n + 1)) a c := by
  rw [path]
  exact hi.bind fun _ _ => h

theorem moreArguments_none (h : front a ≠ .comma) : Accepts (moreArguments (n + 1)) a a := by
  rw [moreArguments]
  exact .sees_other h (.pure trivial)

theorem moreArguments_some (he : Accepts (expr n) a b) (h : Accepts (moreArguments n) b c) :
    Accepts (moreArguments (n + 1)) (.comma :: a) c := by
  rw [moreArguments]
  exact .sees_next (.advance_bind (he.bind fun _ _ => h))

theorem arguments_accepts (ha : front a = .rparen → a = .rparen :: b)
    (h : Accepts (expr n >>= fun _ => moreArguments n) a (.rparen :: b)) :
    Accepts (arguments (n + 1)) (.lparen :: a) b := by
  rw [arguments]
  refine .eat_bind ?_
  by_cases hfront : front a = .rparen
  · rw [ha hfront]
    exact .sees_next (.advance trivial)
  · have hr := h.bind fun _ _ => Passes.eat (P := fun _ => True) trivial
    rw [bind_assoc] at hr
    exact .sees_other hfront hr

/-- A name and a path behind it, which is not looked for where nothing of it stands. -/
theorem operand_path (h : Accepts (path n) a b) (ha : a = b ∨ front a = .lbracket ∨ front a = .dot)
    (hb : ends (front b)) : Accepts (operand (n + 1)) (.id :: a) b := by
  rw [operand]
  refine .kind (.advance_bind (.kind ?_))
  obtain rfl | ha | ha := ha
  · have hr : Accepts (pure ()) a a := .pure trivial
    revert hb
    cases front a <;> intro hb <;> first | exact hr | cases hb
  · rw [ha]
    exact h
  · rw [ha]
    exact h

theorem operand_call (h : Accepts (arguments n) (.lparen :: a) b) :
    Accepts (operand (n + 1)) (.id :: .lparen :: a) b := by
  rw [operand]
  exact .kind (.advance_bind (.kind h))

/-- What a creation reads behind the type. -/
def content (n : Nat) : Parse Unit := do
  match ← kind with
  | .lparen =>
    advance
    expr n
    moreArguments n
    eat .rparen
  | .lbracket => index n
  | _ => pure ()

theorem operand_creation (hn : Naming .recognized a b) (h : Accepts (content n) b c) :
    Accepts (operand (n + 2)) (.newKw :: a) c := by
  rw [operand]
  refine .kind ?_
  change Accepts (creation (n + 1)) _ _
  rw [creation]
  refine .eat_bind (.kind ?_)
  cases hn with
  | type hk =>
    rw [front_cons, if_pos (Parser.namesType_iff.mp hk)]
    exact .advance_bind h
  | none _ hk =>
    rw [if_neg (by rw [← Parser.namesType_iff, hk]; decide)]
    exact h

/-- How the recognizer takes a phrase. Every token pays for four steps of the descent; an operand
comes with the operation behind it. -/
def Taken : Part → List Kind → List Kind → Prop
  | .expr, a, b => ∀ n, 4 * a.length ≤ n → closes (front b) → Accepts (expr n) a b
  | .value, a, b => ∀ n c, 4 * a.length ≤ n + 1 → ends (front b) → Accepts (operation n) b c →
      Accepts (expr (n + 1)) a c
  | .content, a, b => ∀ n, 4 * a.length + 1 ≤ n → Accepts (content n) a b
  | .arguments, a, b => ∀ n, 4 * a.length + 1 ≤ n → front b = .rparen →
      (front a = .rparen → a = b) ∧ Accepts (expr n >>= fun _ => moreArguments n) a b
  | .others, a, b => ∀ n, 4 * a.length + 1 ≤ n → front b = .rparen →
      closes (front a) ∧ Accepts (moreArguments n) a b
  | .index, a, b => ∀ n, 4 * a.length + 1 ≤ n → front b ≠ .lbracket → Accepts (index n) a b
  | .selectors, a, b => ∀ n, 4 * a.length + 1 ≤ n → trails (front b) →
      front a ≠ .lbracket ∧ Accepts (selectors n) a b

theorem derives_taken {part : Part} (h : Derives .recognized part a b) : Taken part a b := by
  induction h with
  | @operand a b h ih =>
    intro n hn hb
    have hlen := h.length
    simp only [Part.least] at hlen
    obtain ⟨n, rfl⟩ : ∃ j, n = j + 2 := Nat.exists_eq_add_of_le' (by omega)
    exact ih (n + 1) b (by omega) (ends_of_closes hb) (operation_end hb)
  | @operation a b c op h hop hr ih ihr =>
    intro n hn hc
    have hlen := h.length
    simp only [Part.least, List.length_cons] at hlen
    obtain ⟨n, rfl⟩ : ∃ j, n = j + 2 := Nat.exists_eq_add_of_le' (by omega)
    exact ih (n + 1) c (by omega) (ends_of_isOperator hop)
      (operation_more hop (ihr n (by omega) hc))
  | negation h ih =>
    intro n hn hb
    simp only [List.length_cons] at hn
    obtain ⟨n, rfl⟩ : ∃ j, n = j + 1 := Nat.exists_eq_add_of_le' (by omega)
    rw [expr]
    exact .kind (.advance_bind (ih n (by omega) hb))
  | omitted =>
    intro n hn _
    simp only [List.length_cons] at hn
    obtain ⟨n, rfl⟩ : ∃ j, n = j + 1 := Nat.exists_eq_add_of_le' (by omega)
    rw [expr]
    exact .kind (.pure trivial)
  | literal hk =>
    intro n c hn _ h
    simp only [List.length_cons] at hn
    obtain ⟨n, rfl⟩ : ∃ j, n = j + 1 := Nat.exists_eq_add_of_le' (by omega)
    exact expr_operand (by simp [opensOperand, hk]) (operand_literal hk) h
  | group h ih =>
    intro n c hn _ hc
    simp only [List.length_cons] at hn
    exact expr_group (ih n (by omega) rfl) hc
  | creation hname h ih =>
    intro n c hn _ hc
    have hlen := hname.length
    simp only [List.length_cons] at hn
    obtain ⟨n, rfl⟩ : ∃ j, n = j + 2 := Nat.exists_eq_add_of_le' (by omega)
    exact expr_operand rfl (operand_creation hname (ih n (by omega))) hc
  | path hi hs ihi ihs =>
    intro n c hn hb hc
    have hlen := hi.length
    simp only [Part.least, List.length_cons] at hlen hn
    obtain ⟨n, rfl⟩ : ∃ j, n = j + 2 := Nat.exists_eq_add_of_le' (by omega)
    obtain ⟨hfront, hsel⟩ := ihs n (by omega) (Bool.and_eq_true_iff.mp hb).1
    exact expr_operand rfl (operand_path (path_accepts (ihi n (by omega) hfront) hsel)
      (Trail.cases ⟨_, hi, hs⟩) hb) hc
  | call _ h ih =>
    intro n c hn _ hc
    simp only [List.length_cons] at hn
    obtain ⟨n, rfl⟩ : ∃ j, n = j + 2 := Nat.exists_eq_add_of_le' (by omega)
    obtain ⟨ha, hargs⟩ := ih n (by omega) rfl
    exact expr_operand rfl (operand_call (arguments_accepts ha hargs)) hc
  | record h ih =>
    intro n hn
    simp only [List.length_cons] at hn
    have hr := (ih n (by omega) rfl).2.bind fun _ _ => Passes.eat (P := fun _ => True) trivial
    rw [bind_assoc] at hr
    exact .kind (.advance_bind hr)
  | array h ih =>
    intro n hn
    simp only [List.length_cons] at hn
    obtain ⟨n, rfl⟩ : ∃ j, n = j + 1 := Nat.exists_eq_add_of_le' (by omega)
    exact .kind (index_some (ih n (by omega) rfl))
  | @noContent a _ hparen hbracket =>
    intro n _
    have hr : Accepts (pure ()) a a := .pure trivial
    refine .kind ?_
    revert hparen hbracket
    cases front a <;> intro hparen hbracket <;>
      first | exact hr | exact (hparen rfl).elim | exact (hbracket rfl).elim
  | noArguments =>
    intro n hn ha
    obtain ⟨n, rfl⟩ : ∃ j, n = j + 1 := Nat.exists_eq_add_of_le' (by omega)
    refine ⟨fun _ => rfl, ?_⟩
    rw [expr, bind_assoc]
    refine .kind ?_
    rw [ha]
    exact moreArguments_none (by rw [ha]; decide)
  | arguments he ho ihe iho =>
    intro n hn hc
    have hlen := he.length
    simp only [Part.least] at hlen
    obtain ⟨hb, hmore⟩ := iho n (by omega) hc
    refine ⟨fun ha => ?_, (ihe n (by omega) hb).bind fun _ _ => hmore⟩
    obtain rfl := he.of_rparen ha
    cases ho with
    | noOthers => rfl
    | others => cases ha
  | noOthers =>
    intro n hn ha
    obtain ⟨n, rfl⟩ : ∃ j, n = j + 1 := Nat.exists_eq_add_of_le' (by omega)
    exact ⟨by rw [ha]; rfl, moreArguments_none (by rw [ha]; decide)⟩
  | others he ho ihe iho =>
    intro n hn hc
    have hlen := he.length
    simp only [Part.least, List.length_cons] at hlen hn
    obtain ⟨n, rfl⟩ : ∃ j, n = j + 1 := Nat.exists_eq_add_of_le' (by omega)
    obtain ⟨hb, hmore⟩ := iho n (by omega) hc
    exact ⟨rfl, moreArguments_some (ihe n (by omega) hb) hmore⟩
  | noIndex =>
    intro n hn ha
    obtain ⟨n, rfl⟩ : ∃ j, n = j + 1 := Nat.exists_eq_add_of_le' (by omega)
    exact index_none ha
  | index h ih =>
    intro n hn _
    simp only [List.length_cons] at hn
    obtain ⟨n, rfl⟩ : ∃ j, n = j + 1 := Nat.exists_eq_add_of_le' (by omega)
    exact index_some (ih n (by omega) rfl)
  | noSelectors =>
    intro n hn ha
    obtain ⟨n, rfl⟩ : ∃ j, n = j + 1 := Nat.exists_eq_add_of_le' (by omega)
    exact ⟨(trails_iff.mp ha).2, selectors_none (trails_iff.mp ha).1⟩
  | selectors hi hs ihi ihs =>
    intro n hn hc
    have hlen := hi.length
    simp only [Part.least, List.length_cons] at hlen hn
    obtain ⟨n, rfl⟩ : ∃ j, n = j + 1 := Nat.exists_eq_add_of_le' (by omega)
    obtain ⟨hfront, hsel⟩ := ihs n (by omega) hc
    exact ⟨by rw [front_cons]; decide, selectors_some (ihi n (by omega) hfront) hsel⟩

theorem expr_accepts (h : Derives .recognized .expr a b) (hb : closes (front b))
    (hn : 4 * a.length ≤ n) : Accepts (expr n) a b :=
  derives_taken h n hn hb

theorem trail_accept (h : Trail .recognized a b) (hb : trails (front b))
    (hn : 4 * a.length + 2 ≤ n) : Accepts (path n) a b := by
  obtain ⟨c, hi, hs⟩ := h
  have hlen := hi.length
  simp only [Part.least] at hlen
  obtain ⟨n, rfl⟩ : ∃ j, n = j + 1 := Nat.exists_eq_add_of_le' (by omega)
  obtain ⟨hc, hsel⟩ := derives_taken hs n (by omega) hb
  exact path_accepts (derives_taken hi n (by omega) hc) hsel

theorem dataType_name {k : Kind} (hk : k.namesType) : Accepts (dataType (n + 1)) (k :: a) a := by
  rw [dataType]
  refine .kind ?_
  have hr : Accepts advance (k :: a) a := .advance trivial
  revert hr
  cases k <;> first | exact id | cases hk

theorem dataType_trail (h : Trail .recognized a b) (hb : trails (front b))
    (ha : Grammar.opensType (front a) = false) (hn : 4 * a.length + 3 ≤ n) :
    Accepts (dataType n) a b := by
  obtain ⟨n, rfl⟩ : ∃ j, n = j + 1 := Nat.exists_eq_add_of_le' (by omega)
  have hr := trail_accept h hb (n := n) (by omega)
  rw [dataType]
  refine .kind ?_
  revert ha
  cases front a <;> intro ha <;> first | exact hr | cases ha

theorem dataType_accepts (h : Typed .recognized a b) (hb : front b = .id)
    (hn : 4 * a.length + 3 ≤ n) : Accepts (dataType n) a b := by
  induction h generalizing n with
  | plain hk =>
    obtain ⟨n, rfl⟩ : ∃ j, n = j + 1 := Nat.exists_eq_add_of_le' (by omega)
    exact dataType_name hk
  | array hk =>
    obtain ⟨n, rfl⟩ : ∃ j, n = j + 2 := Nat.exists_eq_add_of_le' (by omega)
    rw [dataType]
    exact .kind (.advance_bind (dataType_name hk))
  | nested _ _ ih =>
    simp only [List.length_cons] at hn
    obtain ⟨n, rfl⟩ : ∃ j, n = j + 1 := Nat.exists_eq_add_of_le' (by omega)
    rw [dataType]
    exact .kind (.advance_bind (ih hb (by omega)))
  | item _ h hne =>
    refine dataType_trail h (by rw [hb]; rfl) ?_ hn
    obtain ha | ha := h.cases.resolve_left hne <;> rw [ha] <;> rfl

theorem initialized_accepts (h : Initialized .recognized a (.semicolon :: b))
    (hn : 4 * a.length ≤ n + 4) :
    Accepts (do if ← sees .assign then advance; expr n) a (.semicolon :: b) := by
  cases h with
  | none => exact .sees_other (by rw [front_cons]; decide) (.pure trivial)
  | some h =>
    cases h with
    | plain h =>
      simp only [List.length_cons] at hn
      exact .sees_next (.advance_bind (expr_accepts h rfl (by omega)))
    | call hl => exact absurd hl Bool.false_ne_true

theorem declaration_type (hk : begins (front a)) (ht : Typed .recognized a (.id :: b))
    (h : Initialized .recognized b (.semicolon :: c)) (hn : 4 * a.length + 3 ≤ n) :
    Accepts (declaration n) a (.semicolon :: c) := by
  have hlen := ht.length
  simp only [List.length_cons] at hlen
  rw [declaration]
  refine .kind ((dataType_accepts ht rfl hn).bind fun _ _ => ?_)
  rw [if_pos (by simpa [begins] using hk)]
  exact .eat_bind (initialized_accepts h (by omega))

/-- Behind a name no type is read in full: what is taken in its place is the variable, or a path. -/
theorem declaration_other (hk : begins (front a) = false) (ht : Accepts (dataType n) a b)
    (h : Initialized .recognized b (.semicolon :: c)) (hn : 4 * b.length ≤ n + 4) :
    Accepts (declaration n) a (.semicolon :: c) := by
  rw [declaration]
  refine .kind (ht.bind fun _ _ => ?_)
  rw [if_neg (by simpa [begins] using hk)]
  exact initialized_accepts h hn

theorem Initialized.opens (h : Initialized .recognized a (.semicolon :: b)) :
    front a = .assign ∨ front a = .semicolon := by
  cases h with
  | none => exact Or.inr rfl
  | some => exact Or.inl rfl

theorem declaration_trail (hs : Trail .recognized a b)
    (h : Initialized .recognized b (.semicolon :: c)) (hn : 4 * a.length + 3 ≤ n) :
    Accepts (declaration n) a (.semicolon :: c) := by
  have hb := Initialized.opens h
  have hlen := hs.length
  have ha : Grammar.opensType (front a) = false := by
    obtain rfl | ha | ha := hs.cases
    · obtain hb | hb := hb <;> rw [hb] <;> rfl
    · rw [ha]; rfl
    · rw [ha]; rfl
  refine declaration_other ?_ (dataType_trail hs ?_ ha hn) h (by omega)
  · exact Bool.eq_false_iff.mpr fun h => Bool.eq_false_iff.mp ha (opensType_of_begins h)
  · obtain hb | hb := hb <;> rw [hb] <;> rfl

theorem counter_accepts (hv : Counter .recognized a b)
    (h : Initialized .recognized b (.semicolon :: c)) (hn : 4 * a.length + 3 ≤ n) :
    Accepts (declaration n) a (.semicolon :: c) := by
  cases hv with
  | typed hk ht => exact declaration_type hk ht h hn
  | name =>
    simp only [List.length_cons] at hn
    obtain ⟨n, rfl⟩ : ∃ j, n = j + 1 := Nat.exists_eq_add_of_le' (by omega)
    exact declaration_other rfl (dataType_name rfl) h (by omega)
  | none => exact declaration_trail ⟨_, .noIndex, .noSelectors⟩ h hn
  | item _ hs => exact declaration_trail hs h hn

theorem assignment_accepts (hp : Trail .recognized a (.assign :: b)) (h : Accepts (expr n) b c)
    (hn : 4 * a.length + 2 ≤ n) :
    Accepts (assignment n) a c ∧ Accepts (assignment n) (.id :: a) c := by
  have ha : front a ≠ .id := by
    obtain rfl | ha | ha := hp.cases
    · rw [front_cons]; decide
    · rw [ha]; decide
    · rw [ha]; decide
  have hr : Accepts (path n >>= fun _ => eat .assign >>= fun _ => expr n) a c :=
    (trail_accept hp rfl hn).bind fun _ _ => .eat_bind h
  exact ⟨.sees_other ha hr, .sees_next (.advance_bind hr)⟩

theorem block_accepts (h : Accepts (stmts n) a (.rbrace :: b)) :
    Accepts (block (n + 1)) (.lbrace :: a) b := by
  rw [block]
  exact .eat_bind (h.bind fun _ _ => .eat trivial)

theorem condition_accepts {rest : Parse Unit} {wanted : Expectation} (ha : front a ≠ .rparen)
    (h : Derives .recognized .expr a (.rparen :: b)) (hn : 4 * a.length ≤ n)
    (hr : Accepts rest b c) :
    Accepts (do
      if ← sees .rparen then reject wanted
      expr n
      eat .rparen
      rest) a c :=
  .sees_other ha ((expr_accepts h rfl hn).bind fun _ _ => .eat_bind hr)

theorem stmt_type (hk : begins (front a))
    (h : Accepts (declaration n) a (.semicolon :: b)) : Accepts (stmt (n + 1)) a b := by
  have hr : Accepts (declaration n >>= fun _ => eat .semicolon) a b :=
    h.bind fun _ _ => .eat trivial
  rw [stmt]
  refine .kind ?_
  revert hk
  cases front a <;> intro hk <;> first | exact hr | cases hk

/-- A declaration behind a name, which shows by what does not go on with an assignment or call. -/
theorem stmt_name (hk : Grammar.opensType (front a) ∨ front a = .lbracket ∨ front a = .semicolon)
    (h : Accepts (declaration n) a (.semicolon :: b)) : Accepts (stmt (n + 1)) (.id :: a) b := by
  have hr : Accepts (declaration n >>= fun _ => eat .semicolon) a b :=
    h.bind fun _ _ => .eat trivial
  rw [stmt]
  refine .kind (.advance_bind (.kind ?_))
  revert hk
  cases front a <;> intro hk <;> first | exact hr | (obtain hk | hk | hk := hk <;> cases hk)

theorem stmt_assign (hp : Trail .recognized a (.assign :: b))
    (hv : Derives .recognized .expr b (.semicolon :: c)) (hn : 4 * a.length + 8 ≤ n) :
    Accepts (stmt n) (.id :: a) c := by
  have hlen := hp.length
  simp only [List.length_cons] at hlen
  obtain ⟨n, rfl⟩ : ∃ j, n = j + 1 := Nat.exists_eq_add_of_le' (by omega)
  have hr : Accepts (assignment n >>= fun _ => eat .semicolon) a c :=
    (assignment_accepts hp (expr_accepts hv rfl (by omega)) (by omega)).1.bind fun _ _ =>
      .eat trivial
  obtain ha | ha | ha := hp.cases
  · rw [stmt]
    refine .kind (.advance_bind (.kind ?_))
    rw [ha] at hr ⊢
    exact hr
  · exact stmt_name (Or.inr (Or.inl ha))
      (declaration_trail hp (.some (.plain hv)) (by omega))
  · rw [stmt]
    refine .kind (.advance_bind (.kind ?_))
    rw [ha]
    exact hr

theorem stmt_call (h : Passed .recognized a (.semicolon :: b)) (hn : 4 * a.length + 4 ≤ n) :
    Accepts (stmt n) (.id :: a) b := by
  cases h with
  | list h =>
    simp only [List.length_cons] at hn
    obtain ⟨n, rfl⟩ : ∃ j, n = j + 2 := Nat.exists_eq_add_of_le' (by omega)
    obtain ⟨ha, hargs⟩ := derives_taken h n (by omega) rfl
    rw [stmt]
    refine .kind (.advance_bind (.kind ?_))
    exact (arguments_accepts ha hargs).bind fun _ _ => .eat trivial
  | call hl => exact absurd hl Bool.false_ne_true

theorem stmt_ret (h : Returned .recognized a (.semicolon :: b)) (hn : 4 * a.length + 4 ≤ n) :
    Accepts (stmt n) (.returnKw :: a) b := by
  cases h with
  | plain h =>
    obtain ⟨n, rfl⟩ : ∃ j, n = j + 1 := Nat.exists_eq_add_of_le' (by omega)
    rw [stmt]
    refine .kind (.advance_bind ?_)
    exact (expr_accepts h rfl (by omega)).bind fun _ _ => .eat trivial
  | call hl | last hl => exact absurd hl Bool.false_ne_true

theorem counted_accepts (h : Counted .recognized a (.semicolon :: b)) (hn : 4 * a.length ≤ n) :
    Accepts (expr n) a (.semicolon :: b) := by
  cases h with
  | plain h => exact expr_accepts h rfl hn
  | call hl | last hl => exact absurd hl Bool.false_ne_true

theorem step_accepts (hs : Stepped .recognized a b) (hp : Trail .recognized b (.assign :: c))
    (h : Accepts (expr n) c d) (hn : 4 * a.length + 2 ≤ n) : Accepts (assignment n) a d := by
  cases hs with
  | name =>
    simp only [List.length_cons] at hn
    exact (assignment_accepts hp h (by omega)).2
  | none => exact (assignment_accepts hp h hn).1
  | other hb => exact absurd hb Bool.false_ne_true

theorem stmt_count (h : Counts .recognized a (.rparen :: b)) (hb : Accepts (block n) b c)
    (hn : 4 * a.length + 3 ≤ n) : Accepts (stmt (n + 1)) (.forKw :: .lparen :: a) c := by
  cases h with
  | intro hv hi hc hs hp he =>
    have hvlen := hv.length
    have hilen := hi.length
    have hclen := hc.length
    have hslen := hs.length
    have hplen := hp.length
    simp only [List.length_cons] at hilen hclen hplen
    rw [stmt]
    refine .kind (.advance_bind (.eat_bind ?_))
    refine (counter_accepts hv hi hn).bind fun _ _ => .eat_bind ?_
    refine (counted_accepts hc (by omega)).bind fun _ _ => .eat_bind ?_
    exact (step_accepts hs hp (expr_accepts he rfl (by omega)) (by omega)).bind fun _ _ =>
      .eat_bind hb

/-- How the recognizer takes a clause. -/
def Built : Clause → List Kind → List Kind → Prop
  | .stmt, a, b => ∀ n, 4 * a.length + 4 ≤ n → ensues (front b) →
      opensStmt (front a) ∧ Accepts (stmt n) a b
  | .stmts, a, b => ∀ n, 4 * a.length + 5 ≤ n → front b = .rbrace →
      ensues (front a) ∧ Accepts (stmts n) a b ∧ Accepts (body n) a b
  | .alternatives, a, b => ∀ n, 4 * a.length + 5 ≤ n → ensues (front b) →
      Accepts (alternatives n) a b

theorem composes_built {clause : Clause} (h : Composes .recognized clause a b) :
    Built clause a b := by
  induction h with
  | @decl a b c hk ht hi =>
    intro n hn _
    have hlen := ht.length
    simp only [List.length_cons] at hlen
    obtain ⟨n, rfl⟩ : ∃ j, n = j + 2 := Nat.exists_eq_add_of_le' (by omega)
    refine ⟨opensStmt_of_opensType hk, ?_⟩
    by_cases hb : begins (front a)
    · exact stmt_type hb (declaration_type hb ht hi (by omega))
    · cases ht with
      | @plain _ k hname =>
        obtain rfl := eq_id_of_namesType hname (Bool.eq_false_iff.mpr hb)
        exact stmt_name (Or.inl rfl) (declaration_other rfl (dataType_name rfl) hi (by omega))
      | array | nested => exact (hb rfl).elim
      | item _ h hne =>
        obtain ha | ha := h.cases.resolve_left hne <;> rw [ha] at hk <;> cases hk
  | redeclare _ hk ht hi =>
    intro n hn _
    simp only [List.length_cons] at hn
    obtain ⟨n, rfl⟩ : ∃ j, n = j + 1 := Nat.exists_eq_add_of_le' (by omega)
    exact ⟨rfl, stmt_name (Or.inl (opensType_of_begins hk)) (declaration_type hk ht hi (by omega))⟩
  | idle =>
    intro n hn _
    simp only [List.length_cons] at hn
    obtain ⟨n, rfl⟩ : ∃ j, n = j + 1 := Nat.exists_eq_add_of_le' (by omega)
    exact ⟨rfl, stmt_name (Or.inr (Or.inr rfl))
      (declaration_trail ⟨_, .noIndex, .noSelectors⟩ .none (by simp only [List.length_cons]; omega))⟩
  | item _ hf hs hi =>
    intro n hn _
    simp only [List.length_cons] at hn
    obtain ⟨n, rfl⟩ : ∃ j, n = j + 1 := Nat.exists_eq_add_of_le' (by omega)
    exact ⟨rfl, stmt_name (Or.inr (Or.inl hf)) (declaration_trail hs hi (by omega))⟩
  | assign hp hv =>
    intro n hn _
    exact ⟨rfl, stmt_assign hp hv hn⟩
  | call h =>
    intro n hn _
    simp only [List.length_cons] at hn
    exact ⟨rfl, stmt_call h (by omega)⟩
  | ret h =>
    intro n hn _
    simp only [List.length_cons] at hn
    exact ⟨rfl, stmt_ret h (by omega)⟩
  | loop hf h hb ih =>
    intro n hn _
    have hlen := h.length
    simp only [List.length_cons] at hn hlen
    obtain ⟨n, rfl⟩ : ∃ j, n = j + 2 := Nat.exists_eq_add_of_le' (by omega)
    have hblock := block_accepts (ih n (by omega) rfl).2.1
    rw [stmt]
    exact ⟨rfl, .kind (.advance_bind (.eat_bind (condition_accepts hf h (by omega) hblock)))⟩
  | count h hb ih =>
    intro n hn _
    have hlen := h.length
    simp only [List.length_cons] at hn hlen
    obtain ⟨n, rfl⟩ : ∃ j, n = j + 2 := Nat.exists_eq_add_of_le' (by omega)
    exact ⟨rfl, stmt_count h (block_accepts (ih n (by omega) rfl).2.1) (by omega)⟩
  | choice hf h hb ha ih iha =>
    intro n hn hd
    have hlen := h.length
    have hblen := hb.length
    simp only [List.length_cons] at hn hlen hblen
    obtain ⟨n, rfl⟩ : ∃ j, n = j + 2 := Nat.exists_eq_add_of_le' (by omega)
    have hblock := block_accepts (ih n (by omega) rfl).2.1
    rw [stmt]
    refine ⟨rfl, .kind (.advance_bind (.eat_bind (condition_accepts hf h (by omega) ?_)))⟩
    exact hblock.bind fun _ _ => iha (n + 1) (by omega) hd
  | done =>
    intro n hn hb
    obtain ⟨n, rfl⟩ : ∃ j, n = j + 1 := Nat.exists_eq_add_of_le' (by omega)
    rw [stmts, body]
    refine ⟨by rw [hb]; rfl, .sees ?_, .kind ?_⟩
    · rw [hb]
      exact .pure trivial
    · rw [hb]
      exact .pure trivial
  | next hs hl ihs ihl =>
    intro n hn hc
    have hlen := hs.length
    simp only [Clause.least] at hlen
    obtain ⟨n, rfl⟩ : ∃ j, n = j + 1 := Nat.exists_eq_add_of_le' (by omega)
    obtain ⟨hb, hstmts, hbody⟩ := ihl n (by omega) hc
    obtain ⟨ha, hstmt⟩ := ihs n (by omega) hb
    refine ⟨Parser.ensues_of_opensStmt ha, ?_, ?_⟩
    · rw [stmts]
      refine .sees_other (fun h => by rw [h] at ha; cases ha) ?_
      exact hstmt.bind fun _ _ => hstmts
    · rw [body]
      refine .kind ?_
      rw [if_neg (by rintro (h | h) <;> rw [h] at ha <;> cases ha)]
      exact hstmt.bind fun _ _ => hbody
  | @neither a =>
    intro n hn ha
    obtain ⟨n, rfl⟩ : ∃ j, n = j + 1 := Nat.exists_eq_add_of_le' (by omega)
    rw [alternatives]
    refine .kind ?_
    have hr : Accepts (pure ()) a a := .pure trivial
    revert ha
    cases front a <;> intro ha <;> first | exact hr | cases ha
  | elseif h hb ha ih iha =>
    intro n hn hd
    have hlen := h.length
    have hblen := hb.length
    simp only [List.length_cons] at hn hlen hblen
    obtain ⟨n, rfl⟩ : ∃ j, n = j + 2 := Nat.exists_eq_add_of_le' (by omega)
    rw [alternatives]
    refine .kind (.advance_bind (.eat_bind ?_))
    refine (expr_accepts h rfl (by omega)).bind fun _ _ => .eat_bind ?_
    exact (block_accepts (ih n (by omega) rfl).2.1).bind fun _ _ => iha (n + 1) (by omega) hd
  | otherwise hb ih =>
    intro n hn hd
    simp only [List.length_cons] at hn
    obtain ⟨n, rfl⟩ : ∃ j, n = j + 2 := Nat.exists_eq_add_of_le' (by omega)
    rw [alternatives]
    exact .kind (.advance_bind (block_accepts (ih n (by omega) rfl).2.1))

theorem fields_accepts (h : Fields .recognized a b) (hb : front b = .rbrace)
    (hn : 4 * a.length + 4 ≤ n) : Accepts (fields n) a b := by
  induction h generalizing n with
  | done =>
    obtain ⟨n, rfl⟩ : ∃ j, n = j + 1 := Nat.exists_eq_add_of_le' (by omega)
    rw [fields]
    refine .sees ?_
    rw [hb]
    exact .pure trivial
  | next ht _ ih =>
    have hlen := ht.length
    simp only [List.length_cons] at hlen
    obtain ⟨n, rfl⟩ : ∃ j, n = j + 1 := Nat.exists_eq_add_of_le' (by omega)
    rw [fields]
    refine .sees_other (fun h => ?_)
      ((dataType_accepts ht rfl (by omega)).bind fun _ _ => .eat_bind (.eat_bind ?_))
    · obtain hk | hk | hk := ht.opens <;> rw [h] at hk <;> cases hk
    · exact ih hb (by omega)

theorem structDef_accepts (h : Fields .recognized a (.rbrace :: b)) (hn : 4 * a.length + 4 ≤ n) :
    Accepts (structDef n) (.structKw :: .id :: .lbrace :: a) b := by
  refine .eat_bind (.eat_bind (.eat_bind ?_))
  exact (fields_accepts h rfl hn).bind fun _ _ => .eat trivial

theorem moreParameters_accepts (h : MoreParameters .recognized a b) (hb : front b = .rparen)
    (hn : 4 * a.length + 4 ≤ n) : Accepts (moreParameters n) a b := by
  induction h generalizing n with
  | done =>
    obtain ⟨n, rfl⟩ : ∃ j, n = j + 1 := Nat.exists_eq_add_of_le' (by omega)
    rw [moreParameters]
    exact .sees_other (by rw [hb]; decide) (.pure trivial)
  | next ht _ ih =>
    have hlen := ht.length
    simp only [List.length_cons] at hlen hn
    obtain ⟨n, rfl⟩ : ∃ j, n = j + 1 := Nat.exists_eq_add_of_le' (by omega)
    rw [moreParameters]
    refine .sees_next (.advance_bind ?_)
    exact (dataType_accepts ht rfl (by omega)).bind fun _ _ => .eat_bind (ih hb (by omega))

theorem parameters_accepts (h : Parameters .recognized a b) (hb : front b = .rparen)
    (hn : 4 * a.length + 4 ≤ n) : Accepts (parameters n) a b := by
  rw [parameters]
  cases h with
  | none =>
    refine .sees ?_
    rw [hb]
    exact .pure trivial
  | some ht hm =>
    have hlen := ht.length
    simp only [List.length_cons] at hlen
    refine .sees_other (fun h => ?_) ((dataType_accepts ht rfl (by omega)).bind fun _ _ => ?_)
    · obtain hk | hk | hk := ht.opens <;> rw [h] at hk <;> cases hk
    · exact .eat_bind (moreParameters_accepts hm hb (by omega))

theorem funDef_accepts (hr : Results .recognized a (.id :: .lparen :: b))
    (hp : Parameters .recognized b (.rparen :: .lbrace :: c))
    (hb : Accepts (body n) c (.rbrace :: d)) (hn : 4 * a.length + 4 ≤ n) :
    Accepts (funDef n) a d := by
  have hlen := hr.length
  simp only [List.length_cons] at hlen
  have htail : Accepts (do
      eat .id; eat .lparen; parameters n; expect .rparen .parametersEnd; eat .lbrace; body n
      expect .rbrace .bodyEnd) (.id :: .lparen :: b) d := by
    refine .eat_bind (.eat_bind ((parameters_accepts hp rfl (by omega)).bind fun _ _ => ?_))
    refine (Passes.expect (P := fun _ => True) trivial).bind fun _ _ => .eat_bind ?_
    exact hb.bind fun _ _ => .expect trivial
  rw [funDef]
  refine .kind ?_
  cases hr with
  | value hk ht =>
    have htype := (dataType_accepts (n := n) ht rfl (by omega)).bind fun _ _ => htail
    revert hk
    cases front a <;> intro hk <;> first | exact htype | cases hk
  | nothing => exact .advance_bind htail

theorem definitions_accepts (h : Definitions .recognized a b) (hb : front b = .eos)
    (hn : 4 * a.length + 6 ≤ n) : Accepts (definitions n) a b := by
  induction h generalizing n with
  | done =>
    obtain ⟨n, rfl⟩ : ∃ j, n = j + 1 := Nat.exists_eq_add_of_le' (by omega)
    rw [definitions]
    refine .kind ?_
    rw [hb]
    exact .pure trivial
  | @next a b _ hd _ ih =>
    have hlen := hd.length
    obtain ⟨n, rfl⟩ : ∃ j, n = j + 1 := Nat.exists_eq_add_of_le' (by omega)
    have hrest := ih hb (n := n) (by omega)
    rw [definitions]
    refine .kind ?_
    cases hd with
    | struct hf =>
      simp only [List.length_cons] at hn
      exact (structDef_accepts hf (by omega)).bind fun _ _ => hrest
    | function hr hp hb =>
      have hrlen := hr.length
      have hplen := hp.length
      simp only [List.length_cons] at hrlen hplen
      have hbody := (composes_built hb n (by omega) rfl).2.2
      have hfun := (funDef_accepts hr hp hbody (by omega)).bind fun _ _ => hrest
      have hopen := hr.opens
      revert hopen
      cases front a <;> intro hopen <;> first | exact hfun | cases hopen

theorem program_accepts {s : Feed} {line column : Nat}
    (h : IsProgram .recognized (kinds s.ahead)) (hend : s.ending = .marks line column) :
    ∃ s', program s = .ok () s' ∧ s'.current.map Token.kind = some .eos := by
  obtain ⟨current, l, c, rs, ending⟩ := s
  have hlen : (kinds rs).length = rs.length := List.length_map _
  obtain ⟨_, rs', hdefs, hrs', -⟩ := definitions_accepts (n := 16 * (rs.length + 2)) h rfl
    (by rw [hlen]; omega) line column rs rfl
  obtain rfl : rs' = [] := List.map_eq_nil_iff.mp hrs'
  subst hend
  refine ⟨⟨some ⟨.eos, "", line, column + 1⟩, line, column + 1, [], .marks line (column + 2)⟩, ?_, rfl⟩
  change (advance >>= fun _ => definitions (16 * (rs.length + 2)) >>= fun _ => eat .eos) _ = _
  rw [bind_of_ok (Parser.advance_first current l c line column rs), bind_of_ok hdefs]
  rfl

/-- The recognizer is complete: it accepts every program of the grammar and ends on an end mark,
from any feed that holds the program's tokens, and from any source whose tokens, comments aside,
are these. -/
theorem program_complete (ks : List Kind) (h : IsProgram .standard ks) :
    (∀ (s : Feed) (line column : Nat), s.ending = .marks line column → kinds s.ahead = ks →
      ∃ s', program s = .ok () s' ∧ s'.current.map Token.kind = some .eos) ∧
    ∀ source : Source, (Lexer.ofSource source).tokens.failure = none →
      (Feed.significant (Lexer.ofSource source).tokens.tokens).map Token.kind = ks ++ [.eos] →
      ∃ s', program (Feed.ofSource source) = .ok () s' ∧ s'.current.map Token.kind = some .eos := by
  replace h : IsProgram .recognized ks := h.mono Dialect.standard_within_recognized
  refine ⟨fun s line column hend hs => program_accepts (hs ▸ h) hend, fun source hfail hks => ?_⟩
  obtain ⟨t, line, column, -, hend, htokens⟩ :=
    Feed.gather_listing ((Lexer.ofSource source).rest.length + 1) none (Lexer.ofSource source) hfail
  rw [Lexer.tokens, htokens, List.map_append, List.map_map] at hks
  refine program_accepts (s := Feed.ofSource source) ?_ hend
  rw [← (List.append_inj' hks rfl).1] at h
  exact h

/-- The kinds of `void f(array int a) {a[g(0)] = g(1, a[2]);}`. -/
def indexing : List Kind :=
  [.voidType, .id, .lparen, .arrayKw, .intType, .id, .rparen, .lbrace, .id, .lbracket, .id, .lparen,
    .intVal, .rparen, .rbracket, .assign, .id, .lparen, .intVal, .comma, .id, .lbracket, .intVal,
    .rbracket, .rparen, .semicolon, .rbrace]

theorem program_complete_indexing :
    IsProgram .standard indexing ∧
      ∃ s', program (Feed.ofSource (.ofText "void f(array int a) \x7ba[g(0)] = g(1, a[2]);\x7d")) =
        .ok () s' ∧ s'.current.map Token.kind = some .eos := by
  have h : IsProgram .standard indexing :=
    .next (.function .nothing (.some (.array rfl) .done)
      (.next (.assign
        ⟨_, .index (.operand (.call rfl (.arguments (.operand (.literal rfl)) .noOthers))), .noSelectors⟩
        (.operand (.call rfl (.arguments (.operand (.literal rfl))
          (.others (.operand (.path (.index (.operand (.literal rfl))) .noSelectors)) .noOthers)))))
        .done)) .done
  exact ⟨h, (program_complete indexing h).2 _ (by decide +kernel) (by decide +kernel)⟩

end StackLang.Recognizer
