import StackLang.Proofs.Recognition

namespace StackLang.Parser

open Parse Token Grammar

variable {a b c : List Kind} {n : Nat}

/-- An operand is a path if and only if its first token is a name. -/
def Heads (t : Term) (k : Kind) : Prop :=
  (k = .id → ∃ r l, t = .path (r :: l)) ∧ (k ≠ .id → ∀ l, t ≠ .path l)

/-- Success, whatever the result is. -/
abbrev Succeeds {α : Type} (p : Parse α) (a b : List Kind) : Prop := Passes p a b fun _ => True

theorem operation_stop (t : Term) (h : stops (front a)) :
    Passes (operation (n + 1) t) a a (· = .operand t) := by
  rw [operation]
  refine .look fun u hu => ?_
  rw [if_neg (by rw [hu, isOperator_of_stops h]; decide)]
  exact .pure rfl

theorem operation_go {op : Kind} {P : Expr → Prop} (t : Term) (hop : op.isOperator)
    (h : Passes (expr n) a b P) :
    Passes (operation (n + 1) t) (op :: a) b
      fun e => ∃ o r, e = .mk (some false) t (some o) (some r) ∧ P r := by
  rw [operation]
  refine .look fun u hu => ?_
  rw [if_pos (by rw [hu]; exact hop)]
  exact .advance_bind (h.bind fun r hr => .pure ⟨u, r, rfl, hr⟩)

theorem expr_of_operand {Q : Expr → Prop} {P : Term → Prop} (ha : opensOperand (front a))
    (ho : Passes (operand n) a b P) (h : ∀ t, P t → Passes (operation n t) b c Q) :
    Passes (expr (n + 1)) a c Q := by
  have hr : Passes (operand n >>= operation n) a c Q := ho.bind h
  rw [expr]
  refine .kind ?_
  revert ha
  cases front a <;> intro ha <;> first | exact hr | cases ha

theorem heads_other {t : Term} {k : Kind} (hk : k ≠ .id) (ht : ∀ l, t ≠ .path l) : Heads t k :=
  ⟨fun h => (hk h).elim, fun _ => ht⟩

theorem heads_path {k : Kind} (hk : k = .id) (r : Ref) (l : List Ref) : Heads (.path (r :: l)) k :=
  ⟨fun _ => ⟨r, l, rfl⟩, fun h => (h hk).elim⟩

theorem expr_of_group {Q : Expr → Prop} (hi : Succeeds (expr n) a (.rparen :: b))
    (h : ∀ t, Heads t .lparen → Passes (operation n t) b c Q) :
    Passes (expr (n + 1)) (.lparen :: a) c Q := by
  rw [expr]
  refine .kind (.advance_bind (hi.bind fun e _ => ?_))
  refine (Passes.expect (P := fun _ => True) trivial).bind fun _ _ => h _ ?_
  exact heads_other (by decide) fun _ => Term.noConfusion

theorem operand_of_literal {k : Kind} (hk : k.isLiteral) :
    Passes (operand (n + 1)) (k :: a) a fun t => Heads t k := by
  have hr : Passes (look >>= fun t => advance >>= fun _ => pure (Term.literal t)) (k :: a) a
      fun t => Heads t k := by
    refine .look fun t _ => .advance_bind (.pure (heads_other ?_ fun _ => Term.noConfusion))
    rintro rfl
    cases hk
  rw [operand]
  refine .kind ?_
  revert hr
  cases k <;> first | exact id | cases hk

theorem index_absent (h : front a ≠ .lbracket) : Succeeds (index (n + 1)) a a := by
  rw [index]
  exact .sees_other h (.pure trivial)

theorem index_present (h : Succeeds (expr n) a (.rbracket :: b)) :
    Succeeds (index (n + 1)) (.lbracket :: a) b := by
  rw [index]
  exact .sees_next (.advance_bind (h.bind fun _ _ => .eat_bind (.pure trivial)))

theorem selectors_absent (h : front a ≠ .dot) : Succeeds (selectors (n + 1)) a a := by
  rw [selectors]
  exact .sees_other h (.pure trivial)

theorem selectors_present (hi : Succeeds (index n) a b) (h : Succeeds (selectors n) b c) :
    Succeeds (selectors (n + 1)) (.dot :: .id :: a) c := by
  rw [selectors]
  refine .sees_next (.advance_bind (.take_bind fun _ => hi.bind fun _ _ => ?_))
  exact h.bind fun _ _ => .pure trivial

theorem path_passes (name : Token) (hi : Succeeds (index n) a b) (h : Succeeds (selectors n) b c) :
    Passes (path (n + 1) name) a c fun l => ∃ r l', l = r :: l' := by
  rw [path]
  exact hi.bind fun _ _ => h.bind fun _ _ => .pure ⟨_, _, rfl⟩

theorem operand_of_path (h : ∀ name, Passes (path n name) a b fun l => ∃ r l', l = r :: l') :
    Passes (operand (n + 1)) (.id :: a) b fun t => Heads t .id := by
  rw [operand]
  refine .kind (.take_bind fun t => (h t).bind fun l hl => ?_)
  obtain ⟨r, l', rfl⟩ := hl
  exact .pure (heads_path rfl r l')

theorem moreArguments_absent (h : front a ≠ .comma) : Succeeds (moreArguments (n + 1)) a a := by
  rw [moreArguments]
  exact .sees_other h (.pure trivial)

theorem moreArguments_present (he : Succeeds (expr n) a b) (h : Succeeds (moreArguments n) b c) :
    Succeeds (moreArguments (n + 1)) (.comma :: a) c := by
  rw [moreArguments]
  exact .sees_next (.advance_bind (he.bind fun _ _ => h.bind fun _ _ => .pure trivial))

/-- What a creation reads behind the type. -/
def content (n : Nat) (type : Token) : Parse Term := do
  match ← kind with
  | .lparen =>
    advance
    if ← sees .rparen then
      advance
      return .create type none (some [])
    let first ← expr n
    let others ← moreArguments n
    eat .rparen
    return .create type none (some (first :: others))
  | .lbracket => return .create type (← index n) none
  | _ => return .create type none (some [])

theorem operand_of_creation (hn : Naming .parsed a b)
    (h : ∀ type, Passes (content n type) b c fun t => ∀ l, t ≠ .path l) :
    Passes (operand (n + 2)) (.newKw :: a) c fun t => Heads t .newKw := by
  replace h (type : Token) : Passes (content n type) b c fun t => Heads t .newKw :=
    (h type).weaken fun _ ht => heads_other (by decide) ht
  rw [operand]
  refine .kind ?_
  change Passes (creation (n + 1)) _ _ _
  rw [creation]
  refine .eat_bind (.look fun type htype => ?_)
  cases hn with
  | type hk =>
    rw [if_pos (namesType_iff.mp (by rw [htype]; exact hk))]
    exact .advance_bind (h type)
  | none _ hk =>
    rw [if_neg (by rw [htype, ← namesType_iff, hk]; decide)]
    exact h type

/-- How the parser takes a phrase. Every token pays for four steps of the descent; an operand
comes with the operation behind it. -/
def Taken : Part → List Kind → List Kind → Prop
  | .expr, a, b => ∀ n, 4 * a.length ≤ n → stops (front b) →
      Passes (expr n) a b fun e => Heads e.first (front (bare a))
  | .value, a, b => ∀ n c Q, 4 * a.length ≤ n + 1 → trails (front b) →
      (∀ t, Heads t (front a) → Passes (operation n t) b c Q) → Passes (expr (n + 1)) a c Q
  | .content, a, b => ∀ n type, 4 * a.length + 1 ≤ n →
      Passes (content n type) a b fun t => ∀ l, t ≠ .path l
  | .arguments, a, b => ∀ n, 4 * a.length + 1 ≤ n → front b = .rparen →
      (front a = .rparen ∧ a = b) ∨ opensArgument (front a) ∧ ∃ c, closes (front c) ∧
        Succeeds (expr n) a c ∧ Succeeds (moreArguments n) c b
  | .others, a, b => ∀ n, 4 * a.length + 1 ≤ n → front b = .rparen →
      closes (front a) ∧ Succeeds (moreArguments n) a b
  | .index, a, b => ∀ n, 4 * a.length + 1 ≤ n → front b ≠ .lbracket → Succeeds (index n) a b
  | .selectors, a, b => ∀ n, 4 * a.length + 1 ≤ n → trails (front b) →
      front a ≠ .lbracket ∧ Succeeds (selectors n) a b

/-- An operand shows what it is by its first token, which is no negation. -/
theorem opens_of_value (h : Derives .parsed .value a b) :
    opensArgument (front a) ∧ front a ≠ .notOp := by
  cases h with
  | @literal _ k hk =>
    rw [front_cons]
    cases k <;> first | exact ⟨rfl, by decide⟩ | cases hk
  | group | creation | path => exact ⟨rfl, by rw [front_cons]; decide⟩
  | call hc => exact absurd hc Bool.false_ne_true

theorem opens_of_expr (h : Derives .parsed .expr a b) : opensArgument (front a) := by
  cases h with
  | operand h | operation h => exact (opens_of_value h).1
  | negation => rfl
  | omitted ho => exact absurd ho Bool.false_ne_true

theorem bare_of_front (h : front a ≠ .notOp) : bare a = a := by
  cases a with
  | nil => rfl
  | cons k a => rw [bare, List.dropWhile_cons_of_neg (by simpa using h)]

theorem derives_taken {part : Part} (h : Derives .parsed part a b) : Taken part a b := by
  induction h with
  | @operand a b h ih =>
    intro n hn hb
    have hlen := h.length
    simp only [Part.least] at hlen
    obtain ⟨n, rfl⟩ : ∃ j, n = j + 2 := Nat.exists_eq_add_of_le' (by omega)
    rw [bare_of_front (opens_of_value h).2]
    exact ih (n + 1) b _ (by omega) (trails_of_stops hb) fun t ht =>
      (operation_stop t hb).weaken fun e he => by rw [he]; exact ht
  | @operation a b c op h hop hr ih ihr =>
    intro n hn hc
    have hlen := h.length
    simp only [Part.least, List.length_cons] at hlen
    obtain ⟨n, rfl⟩ : ∃ j, n = j + 2 := Nat.exists_eq_add_of_le' (by omega)
    rw [bare_of_front (opens_of_value h).2]
    refine ih (n + 1) c _ (by omega) (trails_of_isOperator hop) fun t ht =>
      (operation_go t hop (ihr n (by omega) hc)).weaken fun e he => ?_
    obtain ⟨o, r, rfl, -⟩ := he
    exact ht
  | negation h ih =>
    intro n hn hb
    simp only [List.length_cons] at hn
    obtain ⟨n, rfl⟩ : ∃ j, n = j + 1 := Nat.exists_eq_add_of_le' (by omega)
    rw [expr]
    refine .kind (.advance_bind ((ih n (by omega) hb).bind fun e he => .pure ?_))
    cases e
    exact he
  | omitted ho => exact absurd ho Bool.false_ne_true
  | literal hk =>
    intro n c Q hn _ h
    simp only [List.length_cons] at hn
    obtain ⟨n, rfl⟩ : ∃ j, n = j + 1 := Nat.exists_eq_add_of_le' (by omega)
    exact expr_of_operand (by simp [opensOperand, hk]) (operand_of_literal hk) h
  | group h ih =>
    intro n c Q hn _ hc
    simp only [List.length_cons] at hn
    exact expr_of_group ((ih n (by omega) rfl).weaken fun _ _ => trivial) hc
  | creation hname h ih =>
    intro n c Q hn _ hc
    have hlen := hname.length
    simp only [List.length_cons] at hn
    obtain ⟨n, rfl⟩ : ∃ j, n = j + 2 := Nat.exists_eq_add_of_le' (by omega)
    exact expr_of_operand rfl (operand_of_creation hname fun type => ih n type (by omega)) hc
  | path hi hs ihi ihs =>
    intro n c Q hn hb hc
    have hlen := hi.length
    simp only [Part.least, List.length_cons] at hlen hn
    obtain ⟨n, rfl⟩ : ∃ j, n = j + 2 := Nat.exists_eq_add_of_le' (by omega)
    obtain ⟨hfront, hsel⟩ := ihs n (by omega) hb
    exact expr_of_operand rfl
      (operand_of_path fun name => path_passes name (ihi n (by omega) hfront) hsel) hc
  | call hc => exact absurd hc Bool.false_ne_true
  | record h ih =>
    intro n type hn
    simp only [List.length_cons] at hn
    refine .kind (.advance_bind ?_)
    obtain ⟨-, rfl⟩ | ⟨ha, c, -, he, hmore⟩ := ih n (by omega) rfl
    · exact .sees_next (.advance_bind (.pure fun _ => Term.noConfusion))
    · refine .sees_other (fun hfront => by rw [hfront] at ha; cases ha) ?_
      refine he.bind fun _ _ => hmore.bind fun _ _ => .eat_bind (.pure fun _ => Term.noConfusion)
  | array h ih =>
    intro n type hn
    simp only [List.length_cons] at hn
    obtain ⟨n, rfl⟩ : ∃ j, n = j + 1 := Nat.exists_eq_add_of_le' (by omega)
    have hindex := index_present ((ih n (by omega) rfl).weaken fun _ _ => trivial)
    exact .kind (hindex.bind fun _ _ => .pure fun _ => Term.noConfusion)
  | @noContent a _ hparen hbracket =>
    intro n type _
    have hr : Passes (pure (Term.create type none (some []))) a a fun t => ∀ l, t ≠ .path l :=
      .pure fun _ => Term.noConfusion
    refine .kind ?_
    revert hparen hbracket
    cases front a <;> intro hparen hbracket <;>
      first | exact hr | exact (hparen rfl).elim | exact (hbracket rfl).elim
  | noArguments =>
    intro n _ ha
    exact Or.inl ⟨ha, rfl⟩
  | arguments he ho ihe iho =>
    intro n hn hc
    have hlen := he.length
    simp only [Part.least] at hlen
    obtain ⟨hb, hmore⟩ := iho n (by omega) hc
    exact Or.inr ⟨opens_of_expr he, _, hb,
      (ihe n (by omega) (stops_of_closes hb)).weaken fun _ _ => trivial, hmore⟩
  | noOthers =>
    intro n hn ha
    obtain ⟨n, rfl⟩ : ∃ j, n = j + 1 := Nat.exists_eq_add_of_le' (by omega)
    exact ⟨by rw [ha]; rfl, moreArguments_absent (by rw [ha]; decide)⟩
  | others he ho ihe iho =>
    intro n hn hc
    have hlen := he.length
    simp only [Part.least, List.length_cons] at hlen hn
    obtain ⟨n, rfl⟩ : ∃ j, n = j + 1 := Nat.exists_eq_add_of_le' (by omega)
    obtain ⟨hb, hmore⟩ := iho n (by omega) hc
    exact ⟨rfl, moreArguments_present
      ((ihe n (by omega) (stops_of_closes hb)).weaken fun _ _ => trivial) hmore⟩
  | noIndex =>
    intro n hn ha
    obtain ⟨n, rfl⟩ : ∃ j, n = j + 1 := Nat.exists_eq_add_of_le' (by omega)
    exact index_absent ha
  | index h ih =>
    intro n hn _
    simp only [List.length_cons] at hn
    obtain ⟨n, rfl⟩ : ∃ j, n = j + 1 := Nat.exists_eq_add_of_le' (by omega)
    exact index_present ((ih n (by omega) rfl).weaken fun _ _ => trivial)
  | noSelectors =>
    intro n hn ha
    obtain ⟨n, rfl⟩ : ∃ j, n = j + 1 := Nat.exists_eq_add_of_le' (by omega)
    exact ⟨(trails_iff.mp ha).2, selectors_absent (trails_iff.mp ha).1⟩
  | selectors hi hs ihi ihs =>
    intro n hn hc
    have hlen := hi.length
    simp only [Part.least, List.length_cons] at hlen hn
    obtain ⟨n, rfl⟩ : ∃ j, n = j + 1 := Nat.exists_eq_add_of_le' (by omega)
    obtain ⟨hfront, hsel⟩ := ihs n (by omega) hc
    exact ⟨by rw [front_cons]; decide, selectors_present (ihi n (by omega) hfront) hsel⟩

theorem expr_passes (h : Derives .parsed .expr a b) (hb : stops (front b))
    (hn : 4 * a.length ≤ n) : Passes (expr n) a b fun e => Heads e.first (front (bare a)) :=
  derives_taken h n hn hb

theorem trail_pass (name : Token) (h : Trail .parsed a b) (hb : trails (front b))
    (hn : 4 * a.length + 2 ≤ n) : Succeeds (path n name) a b := by
  obtain ⟨c, hi, hs⟩ := h
  have hlen := hi.length
  simp only [Part.least] at hlen
  obtain ⟨n, rfl⟩ : ∃ j, n = j + 1 := Nat.exists_eq_add_of_le' (by omega)
  obtain ⟨hc, hsel⟩ := derives_taken hs n (by omega) hb
  exact (path_passes name (derives_taken hi n (by omega) hc) hsel).weaken fun _ _ => trivial

theorem callee_passes {e : Expr} (h : ∃ r l, e.first = .path (r :: l)) :
    Succeeds (callee e) a a := by
  obtain ⟨r, l, h⟩ := h
  rw [callee, h]
  exact .pure trivial

theorem arguments_passes (h : Passed .parsed a b) (hn : 4 * a.length + 1 ≤ n) :
    Succeeds (arguments n) a b := by
  induction h generalizing n with
  | @list a b h =>
    simp only [List.length_cons] at hn
    obtain ⟨n, rfl⟩ : ∃ j, n = j + 1 := Nat.exists_eq_add_of_le' (by omega)
    have hend (l : List Expr) : Succeeds (do expect .rparen .callEnd; return some l)
        (.rparen :: b) b :=
      (Passes.expect (P := fun _ => True) trivial).bind fun _ _ => .pure trivial
    rw [arguments]
    refine .sees_next (.advance_bind (.kind ?_))
    obtain ⟨ha, rfl⟩ | ⟨ha, c, hc, he, hmore⟩ := derives_taken h n (by omega) rfl
    · exact hend []
    · rw [if_pos ha]
      refine he.bind fun e _ => .sees_other (fun hf => by rw [hf] at hc; cases hc) ?_
      exact hmore.bind fun l _ => hend (e :: l)
  | @call a b c _ hf h hp ih =>
    have hlen := h.length
    simp only [List.length_cons, Part.least] at hn hlen
    obtain ⟨n, rfl⟩ : ∃ j, n = j + 1 := Nat.exists_eq_add_of_le' (by omega)
    rw [arguments]
    refine .sees_next (.advance_bind (.kind ?_))
    rw [if_pos (opens_of_expr h)]
    obtain ⟨b, rfl⟩ := hp.cons
    refine (expr_passes h rfl (by omega)).bind fun e he => ?_
    refine .sees_next ((callee_passes (he.1 hf)).bind fun name _ => ?_)
    refine (ih (by omega)).bind fun inner _ => ?_
    exact (Passes.expect (P := fun _ => True) trivial).bind fun _ _ => .pure trivial

theorem dataType_passes (h : Typed .parsed a b) : Succeeds dataType a b := by
  cases h with
  | @plain _ k hk =>
    refine .look fun t ht => ?_
    have hr : Succeeds (advance >>= fun _ => pure (⟨false, some t⟩ : DataType)) (k :: b) b :=
      .advance_bind (.pure trivial)
    rw [ht, front_cons]
    revert hr
    cases k <;> first | exact id | cases hk
  | array hk =>
    refine .look fun t ht => ?_
    rw [ht]
    refine .advance_bind (.look fun e he => ?_)
    rw [if_pos (namesType_iff.mp (by rw [he]; exact hk))]
    exact .advance_bind (.pure trivial)
  | nested hi | item hi => exact absurd hi Bool.false_ne_true

theorem declared_of_type {named : Option Token} (hk : begins (front a))
    (h : Typed .parsed a (.id :: b)) : Succeeds (declared named) a b := by
  refine .look fun t ht => ?_
  rw [if_pos (by rw [ht]; simpa [begins] using hk)]
  exact (dataType_passes h).bind fun _ _ => .take_bind fun _ => .pure trivial

theorem declared_of_name {named : Option Token} : Succeeds (declared named) (.id :: a) a := by
  refine .look fun t ht => ?_
  rw [ht, front_cons, if_neg (by decide), if_pos rfl]
  exact .advance_bind (.pure trivial)

/-- Nothing is declared where neither a type nor a name stands. -/
theorem declared_of_nothing {named : Option Token} (ha : opensType (front a) = false) :
    Succeeds (declared named) a a := by
  have hid : front a ≠ .id := fun h => by rw [h] at ha; cases ha
  have hbegin : ¬ begins (front a) := fun h => by rw [opensType_of_begins h] at ha; cases ha
  refine .look fun t ht => ?_
  rw [ht, if_neg (by simpa [begins] using hbegin), if_neg hid]
  exact .pure trivial

theorem declaration_passes {named : Option Token} (hv : Succeeds (declared named) a b)
    (h : Initialized .parsed b (.semicolon :: c)) (hn : 4 * b.length ≤ n) :
    Succeeds (declaration n named) a (.semicolon :: c) := by
  rw [declaration]
  refine hv.bind fun var _ => ?_
  cases h with
  | none => exact .sees_other (by rw [front_cons]; decide) (.pure trivial)
  | some h =>
    simp only [List.length_cons] at hn
    refine .sees_next (.advance_bind ?_)
    cases h with
    | plain h =>
      refine (expr_passes h rfl (by omega)).bind fun e _ => ?_
      exact .sees_other (by rw [front_cons]; decide) (.pure trivial)
    | call _ hf h hp =>
      have hlen := h.length
      simp only [Part.least] at hlen
      obtain ⟨d, rfl⟩ := hp.cons
      refine (expr_passes h rfl (by omega)).bind fun e he => .sees_next ?_
      refine (callee_passes (he.1 hf)).bind fun name _ => ?_
      exact (arguments_passes hp (by omega)).bind fun _ _ => .pure trivial

theorem counter_passes (hv : Counter .parsed a b) (h : Initialized .parsed b (.semicolon :: c))
    (hn : 4 * a.length ≤ n) : Succeeds (declaration n none) a (.semicolon :: c) := by
  have hlen := hv.length
  refine declaration_passes ?_ h (by omega)
  cases hv with
  | typed hk ht => exact declared_of_type hk ht
  | name => exact declared_of_name
  | none =>
    refine declared_of_nothing ?_
    cases h <;> rfl
  | item hi => exact absurd hi Bool.false_ne_true

theorem assignment_passes (name : Token) (hp : Trail .parsed a (.assign :: b))
    (h : Derives .parsed .expr b c) (hc : closes (front c)) (hn : 4 * a.length + 2 ≤ n) :
    Succeeds (assignment n name) a c := by
  have hlen := hp.length
  simp only [List.length_cons] at hlen
  refine (trail_pass name hp rfl hn).bind fun _ _ => .eat_bind ?_
  exact (expr_passes h (stops_of_closes hc) (by omega)).bind fun _ _ => .pure trivial

/-- Negations in front of an expression change neither its operands nor its operator. -/
theorem expr_of_bare {Q : Expr → Prop} (hQ : ∀ e, Q e → Q e.negate)
    (h : ∀ n, 4 * (bare a).length ≤ n → Passes (expr n) (bare a) b Q) (hn : 4 * a.length ≤ n) :
    Passes (expr n) a b Q := by
  induction a generalizing n with
  | nil => exact h n hn
  | cons k a ih =>
    by_cases hk : k = .notOp
    · subst hk
      simp only [List.length_cons] at hn
      obtain ⟨n, rfl⟩ : ∃ j, n = j + 1 := Nat.exists_eq_add_of_le' (by omega)
      rw [expr]
      exact .kind (.advance_bind ((ih h (by omega)).bind fun e he => .pure (hQ e he)))
    · rw [bare_of_front (a := k :: a) hk] at h
      exact h n hn

theorem expr_alone (hf : front (bare a) = .id) (h : Derives .parsed .value (bare a) (.lparen :: b))
    (hn : 4 * a.length ≤ n) :
    Passes (expr n) a (.lparen :: b) fun e => e.op = none ∧ ∃ r l, e.first = .path (r :: l) := by
  have hlen := h.length
  simp only [Part.least] at hlen
  refine expr_of_bare (fun e he => by cases e; exact he) (fun n hn => ?_) hn
  obtain ⟨n, rfl⟩ : ∃ j, n = j + 2 := Nat.exists_eq_add_of_le' (by omega)
  refine derives_taken h (n + 1) _ _ (by omega) rfl fun t ht => ?_
  refine (operation_stop t rfl).weaken fun e he => ?_
  rw [he]
  exact ⟨rfl, ht.1 hf⟩

theorem expr_applied {op : Kind} (h : Derives .parsed .value (bare a) (op :: b))
    (hop : op.isOperator) (hf : front (bare b) = .id) (hr : Derives .parsed .expr b (.lparen :: c))
    (hn : 4 * a.length ≤ n) :
    Passes (expr n) a (.lparen :: c) fun e => Heads e.first (front (bare a)) ∧
      e.op.isNone = false ∧ ∃ r, e.rest = some r ∧ ∃ s l, r.first = .path (s :: l) := by
  have hlen := h.length
  simp only [Part.least, List.length_cons] at hlen
  refine expr_of_bare (fun e he => by cases e; exact he) (fun n hn => ?_) hn
  obtain ⟨n, rfl⟩ : ∃ j, n = j + 2 := Nat.exists_eq_add_of_le' (by omega)
  refine derives_taken h (n + 1) _ _ (by omega) (trails_of_isOperator hop) fun t ht => ?_
  refine (operation_go t hop (expr_passes hr rfl (by omega))).weaken fun e he => ?_
  obtain ⟨o, r, rfl, hfirst⟩ := he
  exact ⟨ht, rfl, r, rfl, hfirst.1 hf⟩

theorem callInRest_passes {e : Expr} (h : ∃ r, e.rest = some r ∧ ∃ s l, r.first = .path (s :: l))
    (hp : Passed .parsed a b) (hn : 4 * a.length + 1 ≤ n) : Succeeds (callInRest n e) a b := by
  obtain ⟨r, hr, hfirst⟩ := h
  rw [callInRest, hr]
  refine (callee_passes hfirst).bind fun _ _ => ?_
  exact (arguments_passes hp hn).bind fun _ _ => .pure trivial

theorem condition_passes (h : Counted .parsed a (.semicolon :: b)) (hn : 4 * a.length ≤ n) :
    Succeeds (condition n) a (.semicolon :: b) := by
  have hbare := length_bare a
  rw [condition]
  cases h with
  | plain h =>
    refine (expr_passes h rfl hn).bind fun e _ => ?_
    exact .sees_other (by rw [front_cons]; decide) (.pure trivial)
  | call _ hf h hp =>
    have hlen := h.length
    simp only [Part.least] at hlen
    obtain ⟨c, rfl⟩ := hp.cons
    refine (expr_alone hf h hn).bind fun e he => .sees_next ?_
    obtain ⟨hop, hfirst⟩ := he
    rw [if_pos rfl, if_pos (by rw [hop]; rfl)]
    refine (callee_passes hfirst).bind fun _ _ => ?_
    exact (arguments_passes hp (by omega)).bind fun _ _ => .pure trivial
  | last _ h hop hf hr hp =>
    have hlen := h.length
    have hrlen := hr.length
    simp only [Part.least, List.length_cons] at hlen hrlen
    obtain ⟨c, rfl⟩ := hp.cons
    refine (expr_applied h hop hf hr hn).bind fun e he => .sees_next ?_
    obtain ⟨-, hsome, hrest⟩ := he
    rw [if_pos rfl, if_neg (by rw [hsome]; decide)]
    exact callInRest_passes hrest hp (by omega)

theorem arguments_absent (h : front a ≠ .lparen) : Succeeds (arguments (n + 1)) a a := by
  rw [arguments]
  exact .sees_other h (.pure trivial)

theorem Trailing.opens (h : Trailing .parsed a b) (hb : closes (front b)) : front a ≠ .lparen := by
  intro ha
  cases h with
  | done => rw [ha] at hb; cases hb
  | next hop =>
    rw [front_cons] at ha
    rw [ha] at hop
    cases hop

theorem returnedCalls_passes (e : Expr) (h : Trailing .parsed a b) (hb : closes (front b))
    (hn : 4 * a.length + 1 ≤ n) : Succeeds (returnedCalls n e) a b := by
  induction h generalizing n e with
  | done =>
    obtain ⟨n, rfl⟩ : ∃ j, n = j + 1 := Nat.exists_eq_add_of_le' (by omega)
    rw [returnedCalls]
    refine .look fun t ht => ?_
    rw [if_neg (by rw [ht, isOperator_of_stops (stops_of_closes hb)]; decide)]
    exact .pure trivial
  | @next a b c op k hop hp htrail ih =>
    simp only [List.length_cons] at hn
    obtain ⟨n, rfl⟩ : ∃ j, n = j + 2 := Nat.exists_eq_add_of_le' (by omega)
    rw [returnedCalls]
    refine .look fun t ht => ?_
    rw [if_pos (by rw [ht]; exact hop)]
    refine .advance_bind (.look fun name _ => .advance_bind ?_)
    obtain rfl | hp := hp
    · exact (arguments_absent (Trailing.opens htrail hb)).bind fun _ _ => ih _ hb (by omega)
    · have hlen := hp.length
      exact (arguments_passes hp (by omega)).bind fun _ _ => ih _ hb (by omega)

theorem returned_passes (h : Returned .parsed a (.semicolon :: b)) (hn : 4 * a.length ≤ n) :
    Succeeds (returned n) a (.semicolon :: b) := by
  have hbare := length_bare a
  rw [returned]
  cases h with
  | plain h =>
    refine (expr_passes h rfl hn).bind fun e _ => ?_
    split
    · exact .sees_other (by rw [front_cons]; decide) (.pure trivial)
    · exact .pure trivial
  | call _ hf h hp ht =>
    have hlen := h.length
    have hplen := hp.length
    simp only [Part.least] at hlen
    obtain ⟨c, rfl⟩ := hp.cons
    refine (expr_alone hf h hn).bind fun e he => ?_
    obtain ⟨hop, r, l, hfirst⟩ := he
    rw [hfirst]
    refine .sees_next ?_
    rw [if_pos rfl, if_pos (by rw [hop]; rfl)]
    refine (callee_passes ⟨r, l, hfirst⟩).bind fun _ _ => ?_
    refine (arguments_passes hp (by omega)).bind fun _ _ => ?_
    exact returnedCalls_passes _ ht rfl (by omega)
  | last _ hf h hop hfr hr hp =>
    have hlen := h.length
    have hrlen := hr.length
    simp only [Part.least, List.length_cons] at hlen hrlen
    obtain ⟨c, rfl⟩ := hp.cons
    refine (expr_applied h hop hfr hr hn).bind fun e he => ?_
    obtain ⟨hfirst, hsome, hrest⟩ := he
    obtain ⟨r, l, hfirst⟩ := hfirst.1 hf
    rw [hfirst]
    refine .sees_next ?_
    rw [if_pos rfl, if_neg (by rw [hsome]; decide)]
    exact callInRest_passes hrest hp (by omega)

theorem block_passes (h : Succeeds (stmts n) a (.rbrace :: b)) :
    Succeeds (block (n + 1)) (.lbrace :: a) b := by
  rw [block]
  exact .eat_bind (h.bind fun _ _ => .eat_bind (.pure trivial))

theorem stmt_of_type (hk : begins (front a)) (h : Succeeds (declaration n none) a (.semicolon :: b)) :
    Succeeds (stmt (n + 1)) a b := by
  have hr : Succeeds (do let d ← declaration n none; eat .semicolon; return Stmt.decl d) a b :=
    h.bind fun _ _ => .eat_bind (.pure trivial)
  rw [stmt]
  refine .kind ?_
  revert hk
  cases front a <;> intro hk <;> first | exact hr | cases hk

/-- A declaration behind a name, which shows by what does not go on with an assignment or call. -/
theorem stmt_of_name (hk : opensType (front a) ∨ front a = .semicolon)
    (h : ∀ name, Succeeds (declaration n name) a (.semicolon :: b)) :
    Succeeds (stmt (n + 1)) (.id :: a) b := by
  rw [stmt]
  refine .kind (.take_bind fun name => .kind ?_)
  have hr : Succeeds (do
      let d ← declaration n (some name)
      let s ← pure (Stmt.decl d)
      eat .semicolon
      return s) a b := (h (some name)).bind fun _ _ => .eat_bind (.pure trivial)
  revert hk
  cases front a <;> intro hk <;> first | exact hr | (obtain hk | hk := hk <;> cases hk)

theorem stmt_of_assign (hp : Trail .parsed a (.assign :: b))
    (hv : Derives .parsed .expr b (.semicolon :: c)) (hn : 4 * a.length + 4 ≤ n) :
    Succeeds (stmt n) (.id :: a) c := by
  obtain ⟨n, rfl⟩ : ∃ j, n = j + 1 := Nat.exists_eq_add_of_le' (by omega)
  rw [stmt]
  refine .kind (.take_bind fun name => .kind ?_)
  have hr : Succeeds (do
      let d ← assignment n name
      let s ← pure (Stmt.assign d)
      eat .semicolon
      return s) a c :=
    (assignment_passes name hp hv rfl (by omega)).bind fun _ _ => .eat_bind (.pure trivial)
  obtain ha | ha | ha := hp.cases
  · rw [ha] at hr ⊢
    exact hr
  · rw [ha]
    exact hr
  · rw [ha]
    exact hr

theorem stmt_of_call (h : Passed .parsed a (.semicolon :: b)) (hn : 4 * a.length + 4 ≤ n) :
    Succeeds (stmt n) (.id :: a) b := by
  obtain ⟨n, rfl⟩ : ∃ j, n = j + 1 := Nat.exists_eq_add_of_le' (by omega)
  rw [stmt]
  refine .kind (.take_bind fun name => .kind ?_)
  obtain ⟨c, rfl⟩ := h.cons
  exact (arguments_passes h (by omega)).bind fun _ _ => .eat_bind (.pure trivial)

/-- The step of a counting loop has a token where its name stands. -/
theorem stepped_cons (h : Stepped .parsed a b) : ∃ k, a = k :: b := by
  cases h with
  | name | other => exact ⟨_, rfl⟩
  | none hi => exact absurd hi Bool.false_ne_true

theorem stmt_of_count (h : Counts .parsed a (.rparen :: b)) (hb : Succeeds (block n) b c)
    (hn : 4 * a.length ≤ n) : Succeeds (stmt (n + 1)) (.forKw :: .lparen :: a) c := by
  cases h with
  | intro hv hi hc hs hp he =>
    have hvlen := hv.length
    have hilen := hi.length
    have hclen := hc.length
    have hslen := hs.length
    simp only [List.length_cons] at hilen hclen
    rw [stmt]
    refine .kind (.advance_bind (.eat_bind ?_))
    refine (counter_passes hv hi hn).bind fun _ _ => .eat_bind ?_
    refine (condition_passes hc (by omega)).bind fun _ _ => .eat_bind (.look fun name _ => ?_)
    obtain ⟨k, rfl⟩ := stepped_cons hs
    simp only [List.length_cons] at hclen
    refine .advance_bind ((assignment_passes name hp he rfl (by omega)).bind fun _ _ => ?_)
    exact .eat_bind (hb.bind fun _ _ => .pure trivial)

theorem condition_in_head {α : Type} {rest : Expr → Parse α} {wanted : Expectation}
    (ha : front a ≠ .rparen) (h : Derives .parsed .expr a (.rparen :: b)) (hn : 4 * a.length ≤ n)
    (hr : ∀ e, Succeeds (rest e) b c) :
    Succeeds (do
      if ← sees .rparen then reject wanted
      let e ← expr n
      eat .rparen
      rest e) a c :=
  .sees_other ha ((expr_passes h rfl hn).bind fun e _ => .eat_bind (hr e))

/-- How the parser takes a clause. -/
def Built : Clause → List Kind → List Kind → Prop
  | .stmt, a, b => ∀ n, 4 * a.length ≤ n → ensues (front b) →
      opensStmt (front a) ∧ Succeeds (stmt n) a b
  | .stmts, a, b => ∀ n, 4 * a.length + 1 ≤ n → front b = .rbrace →
      ensues (front a) ∧ Succeeds (stmts n) a b ∧ Succeeds (body n) a b
  | .alternatives, a, b => ∀ n, 4 * a.length + 1 ≤ n → ensues (front b) →
      Succeeds (alternatives n) a b

theorem composes_built {clause : Clause} (h : Composes .parsed clause a b) : Built clause a b := by
  induction h with
  | @decl a b c hk ht hi =>
    intro n hn _
    have hlen := ht.length
    simp only [List.length_cons] at hlen
    obtain ⟨n, rfl⟩ : ∃ j, n = j + 1 := Nat.exists_eq_add_of_le' (by omega)
    refine ⟨opensStmt_of_opensType hk, ?_⟩
    by_cases hb : begins (front a)
    · exact stmt_of_type hb (declaration_passes (declared_of_type hb ht) hi (by omega))
    · cases ht with
      | @plain _ k hname =>
        obtain rfl := eq_id_of_namesType hname (Bool.eq_false_iff.mpr hb)
        exact stmt_of_name (Or.inl rfl) fun _ => declaration_passes declared_of_name hi (by omega)
      | array => exact (hb rfl).elim
      | nested hi | item hi => exact absurd hi Bool.false_ne_true
  | redeclare _ hk ht hi =>
    intro n hn _
    have hlen := ht.length
    simp only [List.length_cons] at hn hlen
    obtain ⟨n, rfl⟩ : ∃ j, n = j + 1 := Nat.exists_eq_add_of_le' (by omega)
    exact ⟨rfl, stmt_of_name (Or.inl (opensType_of_begins hk)) fun _ =>
      declaration_passes (declared_of_type hk ht) hi (by omega)⟩
  | idle =>
    intro n hn _
    simp only [List.length_cons] at hn
    obtain ⟨n, rfl⟩ : ∃ j, n = j + 1 := Nat.exists_eq_add_of_le' (by omega)
    exact ⟨rfl, stmt_of_name (Or.inr rfl) fun _ => declaration_passes (declared_of_nothing rfl) .none
      (by simp only [List.length_cons]; omega)⟩
  | item hi => exact absurd hi Bool.false_ne_true
  | assign hp hv =>
    intro n hn _
    exact ⟨rfl, stmt_of_assign hp hv hn⟩
  | call h =>
    intro n hn _
    exact ⟨rfl, stmt_of_call h hn⟩
  | ret h =>
    intro n hn _
    simp only [List.length_cons] at hn
    obtain ⟨n, rfl⟩ : ∃ j, n = j + 1 := Nat.exists_eq_add_of_le' (by omega)
    rw [stmt]
    refine ⟨rfl, .kind (.advance_bind ?_)⟩
    exact (returned_passes h (by omega)).bind fun _ _ => .eat_bind (.pure trivial)
  | loop hf h hb ih =>
    intro n hn _
    have hlen := h.length
    simp only [List.length_cons] at hn hlen
    obtain ⟨n, rfl⟩ : ∃ j, n = j + 2 := Nat.exists_eq_add_of_le' (by omega)
    have hblock := block_passes (ih n (by omega) rfl).2.1
    rw [stmt]
    refine ⟨rfl, .kind (.advance_bind (.eat_bind (condition_in_head hf h (by omega) fun _ => ?_)))⟩
    exact hblock.bind fun _ _ => .pure trivial
  | count h hb ih =>
    intro n hn _
    have hlen := h.length
    simp only [List.length_cons] at hn hlen
    obtain ⟨n, rfl⟩ : ∃ j, n = j + 2 := Nat.exists_eq_add_of_le' (by omega)
    exact ⟨rfl, stmt_of_count h (block_passes (ih n (by omega) rfl).2.1) (by omega)⟩
  | choice hf h hb ha ih iha =>
    intro n hn hd
    have hlen := h.length
    have hblen := hb.length
    simp only [List.length_cons] at hn hlen hblen
    obtain ⟨n, rfl⟩ : ∃ j, n = j + 2 := Nat.exists_eq_add_of_le' (by omega)
    have hblock := block_passes (ih n (by omega) rfl).2.1
    rw [stmt]
    refine ⟨rfl, .kind (.advance_bind (.eat_bind (condition_in_head hf h (by omega) fun _ => ?_)))⟩
    exact hblock.bind fun _ _ => (iha (n + 1) (by omega) hd).bind fun _ _ => .pure trivial
  | done =>
    intro n hn hb
    obtain ⟨n, rfl⟩ : ∃ j, n = j + 1 := Nat.exists_eq_add_of_le' (by omega)
    rw [stmts, body]
    refine ⟨by rw [hb]; rfl, .sees ?_, .kind ?_⟩
    · rw [hb]
      exact .pure trivial
    · rw [hb]
      exact .pure trivial
  | next hs hl ihs ihl =>
    intro n hn hc
    have hlen := hs.length
    simp only [Clause.least] at hlen
    obtain ⟨n, rfl⟩ : ∃ j, n = j + 1 := Nat.exists_eq_add_of_le' (by omega)
    obtain ⟨hb, hstmts, hbody⟩ := ihl n (by omega) hc
    obtain ⟨ha, hstmt⟩ := ihs n (by omega) hb
    refine ⟨ensues_of_opensStmt ha, ?_, ?_⟩
    · rw [stmts]
      refine .sees_other (fun h => by rw [h] at ha; cases ha) ?_
      exact hstmt.bind fun _ _ => hstmts.bind fun _ _ => .pure trivial
    · rw [body]
      refine .kind ?_
      rw [if_neg (by rintro (h | h) <;> rw [h] at ha <;> cases ha)]
      exact hstmt.bind fun _ _ => hbody.bind fun _ _ => .pure trivial
  | @neither a =>
    intro n hn ha
    obtain ⟨n, rfl⟩ : ∃ j, n = j + 1 := Nat.exists_eq_add_of_le' (by omega)
    rw [alternatives]
    refine .kind ?_
    have hr : Succeeds (pure (([], []) : List Branch × List Stmt)) a a := .pure trivial
    revert ha
    cases front a <;> intro ha <;> first | exact hr | cases ha
  | elseif h hb ha ih iha =>
    intro n hn hd
    have hlen := h.length
    have hblen := hb.length
    simp only [List.length_cons] at hn hlen hblen
    obtain ⟨n, rfl⟩ : ∃ j, n = j + 2 := Nat.exists_eq_add_of_le' (by omega)
    rw [alternatives]
    refine .kind (.advance_bind (.eat_bind ?_))
    refine (expr_passes h rfl (by omega)).bind fun _ _ => .eat_bind ?_
    refine (block_passes (ih n (by omega) rfl).2.1).bind fun _ _ => ?_
    exact (iha (n + 1) (by omega) hd).bind fun _ _ => .pure trivial
  | otherwise hb ih =>
    intro n hn hd
    simp only [List.length_cons] at hn
    obtain ⟨n, rfl⟩ : ∃ j, n = j + 2 := Nat.exists_eq_add_of_le' (by omega)
    rw [alternatives]
    refine .kind (.advance_bind ?_)
    exact (block_passes (ih n (by omega) rfl).2.1).bind fun _ _ => .pure trivial

theorem opensType_of_typed (h : Typed .parsed a b) : opensType (front a) := by
  cases h with
  | plain hk => rw [front_cons, opensType, hk, Bool.true_or]
  | array => rfl
  | nested hi | item hi => exact absurd hi Bool.false_ne_true

theorem fields_pass (h : Fields .parsed a b) (hb : front b = .rbrace) (hn : a.length + 1 ≤ n) :
    Succeeds (fields n) a b := by
  induction h generalizing n with
  | done =>
    obtain ⟨n, rfl⟩ : ∃ j, n = j + 1 := Nat.exists_eq_add_of_le' (by omega)
    rw [fields]
    refine .sees ?_
    rw [hb]
    exact .pure trivial
  | next ht _ ih =>
    have hlen := ht.length
    have hopen := opensType_of_typed ht
    simp only [List.length_cons] at hlen
    obtain ⟨n, rfl⟩ : ∃ j, n = j + 1 := Nat.exists_eq_add_of_le' (by omega)
    rw [fields]
    refine .sees_other (fun h => by rw [h] at hopen; cases hopen) ?_
    refine (dataType_passes ht).bind fun _ _ => .take_bind fun _ => .eat_bind ?_
    exact (ih hb (by omega)).bind fun _ _ => .pure trivial

theorem structDef_passes (h : Fields .parsed a (.rbrace :: b)) (hn : a.length + 1 ≤ n) :
    Succeeds (structDef n) (.structKw :: .id :: .lbrace :: a) b := by
  refine .eat_bind (.take_bind fun _ => .eat_bind ?_)
  exact (fields_pass h rfl hn).bind fun _ _ => .eat_bind (.pure trivial)

theorem parameter_passes (h : Typed .parsed a (.id :: b)) : Succeeds parameter a b :=
  (dataType_passes h).bind fun _ _ => .take_bind fun _ => .pure trivial

theorem moreParameters_pass (h : MoreParameters .parsed a b) (hb : front b = .rparen)
    (hn : a.length + 1 ≤ n) : Succeeds (moreParameters n) a b := by
  induction h generalizing n with
  | done =>
    obtain ⟨n, rfl⟩ : ∃ j, n = j + 1 := Nat.exists_eq_add_of_le' (by omega)
    rw [moreParameters]
    exact .sees_other (by rw [hb]; decide) (.pure trivial)
  | next ht _ ih =>
    have hlen := ht.length
    simp only [List.length_cons] at hlen hn
    obtain ⟨n, rfl⟩ : ∃ j, n = j + 1 := Nat.exists_eq_add_of_le' (by omega)
    rw [moreParameters]
    refine .sees_next (.advance_bind ((parameter_passes ht).bind fun _ _ => ?_))
    exact (ih hb (by omega)).bind fun _ _ => .pure trivial

theorem parameters_pass (h : Parameters .parsed a b) (hb : front b = .rparen)
    (hn : a.length + 1 ≤ n) : Succeeds (parameters n) a b := by
  rw [parameters]
  cases h with
  | none =>
    refine .sees ?_
    rw [hb]
    exact .pure trivial
  | some ht hm =>
    have hlen := ht.length
    have hopen := opensType_of_typed ht
    simp only [List.length_cons] at hlen
    refine .sees_other (fun h => by rw [h] at hopen; cases hopen) ?_
    refine (parameter_passes ht).bind fun _ _ => ?_
    exact (moreParameters_pass hm hb (by omega)).bind fun _ _ => .pure trivial

theorem returnType_passes (h : Results .parsed a b) : Succeeds returnType a b := by
  rw [returnType]
  refine .kind ?_
  cases h with
  | value hk ht =>
    have hr := dataType_passes ht
    revert hk
    cases front a <;> intro hk <;> first | exact hr | cases hk
  | nothing =>
    change Succeeds (dataType >>= fun type => advance >>= fun _ => pure type) _ _
    rw [dataType, bind_assoc]
    refine .look fun t ht => ?_
    rw [ht]
    exact .advance_bind (.pure trivial)

theorem funDef_passes (hr : Results .parsed a (.id :: .lparen :: b))
    (hp : Parameters .parsed b (.rparen :: .lbrace :: c)) {d : List Kind}
    (hb : Succeeds (body n) c (.rbrace :: d)) (hn : b.length + 1 ≤ n) :
    Succeeds (funDef n) a d := by
  rw [funDef]
  refine (returnType_passes hr).bind fun _ _ => .take_bind fun _ => .eat_bind ?_
  refine (parameters_pass hp rfl hn).bind fun _ _ => ?_
  refine (Passes.expect (P := fun _ => True) trivial).bind fun _ _ => .eat_bind ?_
  refine hb.bind fun _ _ => ?_
  exact (Passes.expect (P := fun _ => True) trivial).bind fun _ _ => .pure trivial

theorem definitions_pass (h : Definitions .parsed a b) (hb : front b = .eos)
    (hn : 4 * a.length + 2 ≤ n) : Succeeds (definitions n) a b := by
  induction h generalizing n with
  | done =>
    obtain ⟨n, rfl⟩ : ∃ j, n = j + 1 := Nat.exists_eq_add_of_le' (by omega)
    rw [definitions]
    refine .kind ?_
    rw [hb]
    exact .pure trivial
  | @next a b _ hd _ ih =>
    have hlen := hd.length
    obtain ⟨n, rfl⟩ : ∃ j, n = j + 1 := Nat.exists_eq_add_of_le' (by omega)
    have hrest := ih hb (n := n) (by omega)
    rw [definitions]
    refine .kind ?_
    cases hd with
    | struct hf =>
      simp only [List.length_cons] at hn
      exact (structDef_passes hf (by omega)).bind fun _ _ => hrest.bind fun _ _ => .pure trivial
    | function hr hp hb =>
      have hrlen := hr.length
      have hplen := hp.length
      simp only [List.length_cons] at hrlen hplen
      have hbody := (composes_built hb n (by omega) rfl).2.2
      have hfun : Succeeds (do
          let d ← funDef n
          let p ← definitions n
          return { p with functions := d :: p.functions }) a _ :=
        (funDef_passes hr hp hbody (by omega)).bind fun _ _ => hrest.bind fun _ _ => .pure trivial
      have hopen := hr.opens
      revert hopen
      cases front a <;> intro hopen <;> first | exact hfun | cases hopen

theorem program_passes {s : Feed} {line column : Nat} (h : IsProgram .parsed (kinds s.ahead))
    (hend : s.ending = .marks line column) : ∃ p s', program s = .ok p s' := by
  obtain ⟨current, l, c, rs, ending⟩ := s
  have hlen : (kinds rs).length = rs.length := List.length_map _
  obtain ⟨p, rs', hdefs, hrs', -⟩ := definitions_pass (n := 16 * (rs.length + 2)) h rfl
    (by rw [hlen]; omega) line column rs rfl
  obtain rfl : rs' = [] := List.map_eq_nil_iff.mp hrs'
  subst hend
  refine ⟨p, ⟨some ⟨.eos, "", line, column + 1⟩, line, column + 1, [], .marks line (column + 2)⟩, ?_⟩
  change (advance >>= fun _ => definitions (16 * (rs.length + 2)) >>= fun p => eat .eos >>= fun _ =>
    Pure.pure p) _ = _
  rw [bind_of_ok (advance_first current l c line column rs), bind_of_ok hdefs]
  rfl

end StackLang.Parser
