import StackLang.Proofs.Reads

namespace StackLang.Parser

open Parse

variable {follow : Token.Kind → Prop} {ms ns : List Mark}

/-- What stands behind an expression. -/
def closes : Token.Kind → Bool
  | .rparen | .rbracket | .semicolon | .comma => true
  | _ => false

/-- What may stand behind a path: nothing that makes it longer. -/
def trails (k : Token.Kind) : Bool := k != .dot && k != .lbracket

theorem trails_iff {k : Token.Kind} : trails k ↔ k ≠ .dot ∧ k ≠ .lbracket := by
  rw [trails, Bool.and_eq_true, bne_iff_ne, bne_iff_ne]

/-- What stands behind an expression: the arguments of a call too. -/
def stops (k : Token.Kind) : Bool := closes k || k == .lparen

theorem isOperator_of_stops {k : Token.Kind} (h : stops k) : k.isOperator = false := by
  cases k <;> first | rfl | cases h

theorem trails_of_stops {k : Token.Kind} (h : stops k) : trails k := by
  cases k <;> first | rfl | cases h

theorem stops_of_closes {k : Token.Kind} (h : closes k) : stops k := by
  rw [stops, h, Bool.true_or]

theorem trails_of_isOperator {k : Token.Kind} (h : k.isOperator) : trails k := by
  cases k <;> first | rfl | cases h

theorem beq_of_test {test : Token.Kind → Bool} {k j : Token.Kind} (h : test k)
    (hj : test j = false) : (k == j) = false := by
  rw [beq_eq_false_iff_ne]
  rintro rfl
  rw [h] at hj
  cases hj

theorem namesType_iff {k : Token.Kind} : k.namesType ↔ k = .id ∨ k.isBaseType := by
  rw [Token.Kind.namesType, Bool.or_eq_true, beq_iff_eq]

theorem operation_end {n : Nat} (t : Term) :
    Reads (stops ·) (operation (n + 1) t) [] (.mk (some false) t none none) := by
  rw [operation]
  refine .look_nil fun u hu => ?_
  rw [if_neg (by rw [isOperator_of_stops hu]; decide)]
  exact .pure _

theorem operation_more {n : Nat} {t : Term} {op : Token} {r : Expr} (hop : op.kind.isOperator)
    (h : Reads (stops ·) (expr n) ms r) :
    Reads (stops ·) (operation (n + 1) t) (.held op :: ms)
      (.mk (some false) t (some op) (some r)) := by
  rw [operation]
  refine .look_held ?_
  rw [if_pos hop]
  exact .cons (.advance _) (.last h (.pure _))

/-- Tokens that begin an operand other than a group. -/
def opensOperand (k : Token.Kind) : Bool := k.isLiteral || k == .newKw || k == .id

theorem expr_operand {n : Nat} {m : Mark} {e : Expr} (hm : opensOperand m.kind)
    (h : Reads follow (operand n >>= operation n) (m :: ms) e) :
    Reads follow (expr (n + 1)) (m :: ms) e := by
  rw [expr]
  refine .kind fun k hk => ?_
  have h' := h.weaken (fun j (hj : j = k) => hj ▸ hk)
  revert hm
  simp only [lead]
  cases m.kind <;> intro hm <;> first | exact h' | cases hm

theorem expr_group {n : Nat} {e inner : Expr} (hi : Reads (stops ·) (expr n) ms inner)
    (h : Reads follow (operation n (.group inner)) ns e) :
    Reads follow (expr (n + 1)) (inParens ms ++ ns) e := by
  rw [expr, inParens_append]
  refine .kind fun k hk => .cons (.advance _) ?_
  exact hi.bind (.cons (.expect rfl) (h.weaken fun j (hj : j = k) => hj ▸ hk)) fun _ _ => rfl

theorem expr_negation {b : Bool} {first : Term} {op : Option Token} {rest : Option Expr}
    (h : ∀ n, 4 * ms.length ≤ n → Reads (stops ·) (expr n) ms (.mk (some false) first op rest))
    (n : Nat) (hn : 4 * ((if some b = some true then [Mark.sign .notOp] else []) ++ ms).length ≤ n) :
    Reads (stops ·) (expr n) ((if some b = some true then [Mark.sign .notOp] else []) ++ ms)
      (.mk (some b) first op rest) := by
  cases b with
  | false => exact h n hn
  | true =>
    obtain ⟨n, rfl⟩ : ∃ n', n = n' + 1 := ⟨n - 1, by simp at hn; omega⟩
    rw [expr]
    refine .kind fun k hk => .cons (.advance _)
      (.last (a := .mk (some false) first op rest) ?_ (.pure _))
    exact (h n (by simp at hn; omega)).weaken fun j (hj : j = k) => hj ▸ hk

theorem operand_literal {n : Nat} {t : Token} (ht : t.kind.isLiteral) :
    Reads follow (operand (n + 1)) [.held t] (.literal t) := by
  rw [operand]
  refine .kind fun k _ => ?_
  have h : Reads (· = k) (look >>= fun t => advance >>= fun _ => Pure.pure (Term.literal t))
      [.held t] (.literal t) := .look_held (.cons (.advance _) (.pure _))
  revert ht
  simp only [lead, Mark.kind]
  cases t.kind <;> intro ht <;> first | exact h | cases ht

theorem index_none {n : Nat} : Reads (· ≠ .lbracket) (index (n + 1)) [] none := by
  rw [index]
  exact .sees false (fun _ hk => beq_false_of_ne hk) (.pure _)

theorem index_some {n : Nat} {e : Expr} (h : Reads (stops ·) (expr n) ms e) :
    Reads follow (index (n + 1)) (inBrackets ms) (some e) := by
  rw [index]
  refine .sees true (fun _ _ => rfl) (.cons (.advance _) ?_)
  exact h.bind (.last .eat (.pure _)) fun _ _ => rfl

theorem lead_selectorMarks {k : Token.Kind} (refs : List Ref) (h : trails k) :
    lead k (selectorMarks refs) ≠ .lbracket := by
  cases refs with
  | nil => rintro rfl; cases h
  | cons r refs => rw [selectorMarks, lead]; decide

theorem selectors_nil {n : Nat} : Reads (trails ·) (selectors (n + 1)) [] [] := by
  rw [selectors]
  exact .sees false (fun k hk => beq_of_test hk rfl) (.pure _)

theorem selectors_cons {n : Nat} {name : Token} {i : Option Expr} {refs : List Ref}
    (hname : name.kind = .id) (hi : Reads (· ≠ .lbracket) (index n) (indexMarks i) i)
    (hrefs : Reads (trails ·) (selectors n) (selectorMarks refs) refs) :
    Reads (trails ·) (selectors (n + 1)) (selectorMarks (.mk name i :: refs))
      (.mk name i :: refs) := by
  rw [selectors, selectorMarks, Ref.marks, List.cons_append]
  refine .sees true (fun _ _ => rfl) (.cons (.advance _) (.cons (.take hname) ?_))
  exact hi.bind (.last hrefs (.pure _)) fun _ => lead_selectorMarks refs

theorem path_reads {n : Nat} (name : Token) {i : Option Expr} {refs : List Ref}
    (hi : Reads (· ≠ .lbracket) (index n) (indexMarks i) i)
    (hrefs : Reads (trails ·) (selectors n) (selectorMarks refs) refs) :
    Reads (trails ·) (path (n + 1) name) (indexMarks i ++ selectorMarks refs)
      (.mk name i :: refs) := by
  rw [path]
  exact hi.bind (.last hrefs (.pure _)) fun _ => lead_selectorMarks refs

theorem moreArguments_nil {n : Nat} : Reads (· = .rparen) (moreArguments (n + 1)) [] [] := by
  rw [moreArguments]
  exact .sees false (fun k hk => hk ▸ rfl) (.pure _)

theorem lead_moreMarks (l : List Expr) : closes (lead .rparen (moreMarks l)) := by
  cases l <;> rfl

theorem moreArguments_cons {n : Nat} {e : Expr} {l : List Expr}
    (he : Reads (stops ·) (expr n) e.marks e)
    (hl : Reads (· = .rparen) (moreArguments n) (moreMarks l) l) :
    Reads (· = .rparen) (moreArguments (n + 1)) (moreMarks (e :: l)) (e :: l) := by
  rw [moreArguments, moreMarks]
  refine .sees true (fun _ _ => rfl) (.cons (.advance _) ?_)
  exact he.bind (.last hl (.pure _)) fun _ hk => hk ▸ stops_of_closes (lead_moreMarks l)

/-- The type that is named by the start of a creation. -/
theorem created_type {β : Type} {type : Token} {f : Token → Parse β} {b : β}
    (htype : type.kind.namesType) (h : Reads follow (f type) ms b) :
    Reads follow (do
      eat .newKw
      let t ← look
      if t.kind = .id ∨ t.kind.isBaseType then advance
      f t) (.sign .newKw :: .held type :: ms) b := by
  refine .cons .eat (.look_held ?_)
  dsimp only
  rw [if_pos (namesType_iff.mp htype)]
  exact .cons (.advance _) h

theorem creation_brackets {n : Nat} {type : Token} {e : Expr} (htype : type.kind.namesType)
    (h : Reads (stops ·) (expr n) ms e) :
    Reads follow (creation (n + 2)) (.sign .newKw :: .held type :: inBrackets ms)
      (.create type (some e) none) := by
  rw [creation]
  exact created_type htype (.kind fun k _ => .last (index_some h) (.pure _))

theorem creation_nil {n : Nat} {type : Token} (htype : type.kind.namesType) :
    Reads follow (creation (n + 1)) (.sign .newKw :: .held type :: inParens [])
      (.create type none (some [])) := by
  rw [creation]
  refine created_type htype (.kind fun k _ => .cons (.advance _) ?_)
  exact .sees true (fun _ _ => rfl) (.last (.advance _) (.pure _))

theorem creation_cons {n : Nat} {type : Token} {e : Expr} {l : List Expr}
    (htype : type.kind.namesType) (hopen : ∀ k, (lead k e.marks == .rparen) = false)
    (he : Reads (stops ·) (expr n) e.marks e)
    (hl : Reads (· = .rparen) (moreArguments n) (moreMarks l) l) :
    Reads follow (creation (n + 1)) (.sign .newKw :: .held type :: inParens (argumentMarks (e :: l)))
      (.create type none (some (e :: l))) := by
  rw [creation]
  refine created_type htype (.kind fun k _ => .cons (.advance _) ?_)
  rw [argumentMarks, List.append_assoc]
  refine .sees false (fun k _ => by rw [lead_append]; exact hopen _) ?_
  refine he.bind (hl.bind (.last .eat (.pure _)) fun _ _ => rfl) fun k _ => ?_
  rw [lead_append]
  exact stops_of_closes (lead_moreMarks l)

theorem operand_create {n : Nat} {t : Term} (h : Reads follow (creation n) (.sign .newKw :: ms) t) :
    Reads follow (operand (n + 1)) (.sign .newKw :: ms) t := by
  rw [operand]
  exact .kind fun k hk => h.weaken fun j (hj : j = k) => hj ▸ hk

theorem operand_path {n : Nat} {name : Token} {i : Option Expr} {refs : List Ref}
    (hname : name.kind = .id) (hi : Reads (· ≠ .lbracket) (index n) (indexMarks i) i)
    (hrefs : Reads (trails ·) (selectors n) (selectorMarks refs) refs) :
    Reads (trails ·) (operand (n + 2)) (pathMarks (.mk name i :: refs))
      (.path (.mk name i :: refs)) := by
  rw [operand, pathMarks, Ref.marks, List.cons_append]
  refine .kind fun k hk => ?_
  have h : Reads (· = k) (take .id >>= fun t => path (n + 1) t >>= fun p => Pure.pure (Term.path p))
      (.held name :: (indexMarks i ++ selectorMarks refs)) (.path (.mk name i :: refs)) :=
    .cons (.take hname)
      (.last ((path_reads name hi hrefs).weaken fun j (hj : j = k) => hj ▸ hk) (.pure _))
  rw [lead, Mark.kind, hname]
  exact h

theorem length_marks_pos {t : Term} (h : t.regular) : 1 ≤ t.marks.length := by
  cases t with
  | literal t => simp [Term.marks]
  | create type size args => simp [Term.marks]
  | path refs =>
    cases refs with
    | nil => cases h
    | cons r refs => cases r; simp [Term.marks, pathMarks, Ref.marks]
  | call callee args => cases h
  | group e => simp [Term.marks, inParens]

/-- What an expression starts with. -/
def opens (k : Token.Kind) : Bool := opensOperand k || k == .lparen || k == .notOp

theorem opens_lead_term {t : Term} (h : t.regular) (k : Token.Kind) : opens (lead k t.marks) := by
  cases t with
  | literal t =>
    have ht : t.kind.isLiteral := h
    simp only [Term.marks, lead, Mark.kind, opens, opensOperand, ht, Bool.true_or]
  | create type size args => rfl
  | path refs =>
    cases refs with
    | nil => cases h
    | cons r refs =>
      cases r with
      | mk name i =>
        have hname : name.kind = .id := by simp [Term.regular, regularRefs] at h; exact h.1.1
        rw [Term.marks, pathMarks, Ref.marks, List.cons_append, lead, Mark.kind, hname]
        rfl
  | call callee args => cases h
  | group e => rfl

theorem opens_lead {e : Expr} (h : e.regular) (k : Token.Kind) : opens (lead k e.marks) := by
  cases e with
  | mk negated first op rest =>
    simp only [Expr.regular, Bool.and_eq_true] at h
    obtain ⟨⟨⟨⟨-, hfirst⟩, -⟩, -⟩, -⟩ := h
    rw [Expr.marks]
    split
    · rfl
    · rw [List.nil_append, lead_append]
      exact opens_lead_term hfirst _

mutual

theorem expr_reads : ∀ (e : Expr) (n : Nat), e.regular → 4 * e.marks.length ≤ n →
    Reads (stops ·) (expr n) e.marks e
  | .mk none _ _ _, _, he, _ => by cases he
  | .mk (some b) first none none, n, he, hn => by
    have hfirst : first.regular := by simpa [Expr.regular, regularIfAny] using he
    refine expr_negation (fun n hn => ?_) n hn
    have hlen : 4 * first.marks.length ≤ n := by simpa [restMarks] using hn
    have hpos := length_marks_pos hfirst
    obtain ⟨n, rfl⟩ : ∃ j, n = j + 2 := Nat.exists_eq_add_of_le' (by omega)
    exact first_reads first (n + 1) _ _ hfirst hlen (operation_end first)
      fun k hk => trails_of_stops hk
  | .mk (some b) first (some op) (some r), n, he, hn => by
    obtain ⟨⟨hfirst, hop⟩, hr⟩ : (first.regular ∧ op.kind.isOperator) ∧ r.regular := by
      simpa [Expr.regular, regularIfAny] using he
    refine expr_negation (fun n hn => ?_) n hn
    have hlen : 4 * (first.marks.length + (r.marks.length + 1)) ≤ n := by
      simpa [restMarks] using hn
    obtain ⟨n, rfl⟩ : ∃ j, n = j + 2 := Nat.exists_eq_add_of_le' (by omega)
    exact first_reads first (n + 1) _ _ hfirst (by omega)
      (operation_more hop (expr_reads r n hr (by omega))) fun _ _ => trails_of_isOperator hop
  | .mk (some b) first none (some r), _, he, _ => by simp [Expr.regular] at he
  | .mk (some b) first (some op) none, _, he, _ => by simp [Expr.regular] at he

/-- An expression is read once its first operand and what follows this are. -/
theorem first_reads : ∀ (t : Term) (n : Nat) (tail : List Mark) (e : Expr), t.regular →
    4 * t.marks.length ≤ n + 1 → Reads (stops ·) (operation n t) tail e →
    (∀ k, stops k → trails (lead k tail)) → Reads (stops ·) (expr (n + 1)) (t.marks ++ tail) e
  | .literal t, n, tail, e, ht, hn, htail, _ => by
    have hlen : 4 ≤ n + 1 := hn
    have hkind : t.kind.isLiteral := ht
    obtain ⟨n, rfl⟩ : ∃ j, n = j + 1 := Nat.exists_eq_add_of_le' (by omega)
    refine expr_operand ?_ (.cons (operand_literal ht) htail)
    simp only [Mark.kind, opensOperand, hkind, Bool.true_or]
  | .group inner, n, tail, e, ht, hn, htail, _ => by
    refine expr_group (expr_reads inner n ht ?_) htail
    simp [Term.marks, inParens] at hn
    omega
  | .create type (some size) none, n, tail, e, ht, hn, htail, _ => by
    obtain ⟨htype, hsize⟩ : type.kind.namesType ∧ size.regular := by
      simpa [Term.regular, regularIfAny, regularList] using ht
    have hlen : 4 * (size.marks.length + 4) ≤ n + 1 := by
      simpa [Term.marks, indexMarks, listMarks, inBrackets] using hn
    obtain ⟨n, rfl⟩ : ∃ j, n = j + 3 := Nat.exists_eq_add_of_le' (by omega)
    have h : Reads (fun _ => True) (creation (n + 2)) _ _ :=
      creation_brackets htype (expr_reads size n hsize (by omega))
    rw [Term.marks, indexMarks, listMarks, List.append_nil]
    exact expr_operand rfl ((operand_create h).append htail)
  | .create type none (some []), n, tail, e, ht, hn, htail, _ => by
    have htype : type.kind.namesType := by
      simpa [Term.regular, regularIfAny, regularList, regularExprs] using ht
    have hlen : 4 * 4 ≤ n + 1 := hn
    obtain ⟨n, rfl⟩ : ∃ j, n = j + 2 := Nat.exists_eq_add_of_le' (by omega)
    have h : Reads (fun _ => True) (creation (n + 1)) _ _ := creation_nil htype
    exact expr_operand rfl ((operand_create h).append htail)
  | .create type none (some (a :: l)), n, tail, e, ht, hn, htail, _ => by
    obtain ⟨htype, ha, hl⟩ : type.kind.namesType ∧ a.regular ∧ regularExprs l := by
      simpa [Term.regular, regularIfAny, regularList, regularExprs] using ht
    have hlen : 4 * (a.marks.length + (moreMarks l).length + 4) ≤ n + 1 := by
      simpa [Term.marks, indexMarks, listMarks, argumentMarks, inParens, Nat.add_assoc] using hn
    obtain ⟨n, rfl⟩ : ∃ j, n = j + 2 := Nat.exists_eq_add_of_le' (by omega)
    have h : Reads (fun _ => True) (creation (n + 1)) _ _ := creation_cons htype
      (fun k => beq_of_test (opens_lead ha k) rfl)
      (expr_reads a n ha (by omega)) (moreArguments_reads l n hl (by omega))
    exact expr_operand rfl ((operand_create h).append htail)
  | .create type none none, _, _, _, ht, _, _, _ => by simp [Term.regular] at ht
  | .create type (some size) (some l), _, _, _, ht, _, _, _ => by simp [Term.regular] at ht
  | .path [], _, _, _, ht, _, _, _ => by cases ht
  | .path (.mk name i :: refs), n, tail, e, ht, hn, htail, hlead => by
    obtain ⟨⟨hname, hi⟩, hrefs⟩ : (name.kind = .id ∧ regularIfAny i) ∧ regularRefs refs := by
      simpa [Term.regular, regularRefs] using ht
    have hlen : 4 * ((indexMarks i).length + (selectorMarks refs).length + 1) ≤ n + 1 := by
      simpa [Term.marks, pathMarks, Ref.marks] using hn
    obtain ⟨n, rfl⟩ : ∃ j, n = j + 2 := Nat.exists_eq_add_of_le' (by omega)
    have h := operand_path hname (index_reads i n hi (by omega))
      (selectors_reads refs n hrefs (by omega))
    exact expr_operand (by simp [Mark.kind, hname, opensOperand]) (h.bind htail hlead)
  | .call _ _, _, _, _, ht, _, _, _ => by cases ht

theorem index_reads : ∀ (i : Option Expr) (n : Nat), regularIfAny i →
    4 * (indexMarks i).length + 1 ≤ n → Reads (· ≠ .lbracket) (index n) (indexMarks i) i
  | none, n, _, hn => by
    obtain ⟨n, rfl⟩ : ∃ j, n = j + 1 := Nat.exists_eq_add_of_le' (by omega)
    exact index_none
  | some e, n, hi, hn => by
    have hlen : 4 * (e.marks.length + 2) + 1 ≤ n := by simpa [indexMarks, inBrackets] using hn
    obtain ⟨n, rfl⟩ : ∃ j, n = j + 1 := Nat.exists_eq_add_of_le' (by omega)
    exact index_some (expr_reads e n hi (by omega))

theorem selectors_reads : ∀ (refs : List Ref) (n : Nat), regularRefs refs →
    4 * (selectorMarks refs).length + 1 ≤ n →
    Reads (trails ·) (selectors n) (selectorMarks refs) refs
  | [], n, _, hn => by
    obtain ⟨n, rfl⟩ : ∃ j, n = j + 1 := Nat.exists_eq_add_of_le' (by omega)
    exact selectors_nil
  | .mk name i :: refs, n, hr, hn => by
    obtain ⟨⟨hname, hi⟩, hrefs⟩ : (name.kind = .id ∧ regularIfAny i) ∧ regularRefs refs := by
      simpa [regularRefs] using hr
    have hlen : 4 * ((indexMarks i).length + (selectorMarks refs).length + 2) + 1 ≤ n := by
      simpa [selectorMarks, Ref.marks] using hn
    obtain ⟨n, rfl⟩ : ∃ j, n = j + 1 := Nat.exists_eq_add_of_le' (by omega)
    exact selectors_cons hname (index_reads i n hi (by omega))
      (selectors_reads refs n hrefs (by omega))

theorem moreArguments_reads : ∀ (l : List Expr) (n : Nat), regularExprs l →
    4 * (moreMarks l).length + 1 ≤ n →
    Reads (· = .rparen) (moreArguments n) (moreMarks l) l
  | [], n, _, hn => by
    obtain ⟨n, rfl⟩ : ∃ j, n = j + 1 := Nat.exists_eq_add_of_le' (by omega)
    exact moreArguments_nil
  | e :: l, n, h, hn => by
    obtain ⟨he, hl⟩ : e.regular ∧ regularExprs l := by simpa [regularExprs] using h
    have hlen : 4 * (e.marks.length + (moreMarks l).length + 1) + 1 ≤ n := by
      simpa [moreMarks] using hn
    obtain ⟨n, rfl⟩ : ∃ j, n = j + 1 := Nat.exists_eq_add_of_le' (by omega)
    exact moreArguments_cons (expr_reads e n he (by omega)) (moreArguments_reads l n hl (by omega))

end

theorem opensArgument_of_opens {k : Token.Kind} (h : opens k) : opensArgument k := by
  cases k <;> first | rfl | cases h

theorem arguments_reads : ∀ (l : List Expr) (n : Nat), regularExprs l →
    4 * (argumentMarks l).length + 2 ≤ n →
    Reads follow (arguments n) (inParens (argumentMarks l)) (some l)
  | [], n, _, hn => by
    obtain ⟨n, rfl⟩ : ∃ j, n = j + 1 := Nat.exists_eq_add_of_le' (by omega)
    rw [arguments]
    simp only [pure_bind]
    refine .sees true (fun _ _ => rfl) (.cons (.advance _) (.kind fun k _ => ?_))
    exact .last (.expect rfl) (.pure _)
  | e :: l, n, h, hn => by
    obtain ⟨he, hl⟩ : e.regular ∧ regularExprs l := by simpa [regularExprs] using h
    have hlen : 4 * (e.marks.length + (moreMarks l).length) + 2 ≤ n := by
      simpa [argumentMarks] using hn
    obtain ⟨n, rfl⟩ : ∃ j, n = j + 1 := Nat.exists_eq_add_of_le' (by omega)
    rw [arguments]
    simp only [pure_bind]
    refine .sees true (fun _ _ => rfl) (.cons (.advance _) (.kind fun k _ => ?_))
    rw [argumentMarks, List.append_assoc, lead_append,
      if_pos (opensArgument_of_opens (opens_lead he _))]
    refine (expr_reads e n he (by omega)).bind (.sees false (fun k _ => ?_) ?_) fun k _ => ?_
    · rw [lead_append]
      exact beq_of_test (lead_moreMarks l) rfl
    · exact (moreArguments_reads l n hl (by omega)).bind (.last (.expect rfl) (.pure _)) fun _ _ => rfl
    · rw [lead_append]
      exact stops_of_closes (lead_moreMarks l)

end StackLang.Parser
