import StackLang.Printer
import StackLang.Proofs.Faithful
import StackLang.Proofs.Relabeling
import StackLang.Proofs.Rereading

namespace StackLang.Printer

open Text Lexer

variable {α : Type} {w w' : Write} {ms ns : List Mark} {A B C : List Char → Prop}

/-- Nothing is supposed about a text. -/
abbrev Any : List Char → Prop := fun _ => True

/-- What a token may stand in front of: a sign that bounds it, or a space with no digit behind. -/
def Stops (r : List Char) : Prop :=
  AtBound r ∧ r ≠ [] ∧ ∀ d ∈ (pastBlank r).head?, isDigit d = false

theorem stops_cons {c : Char} {r : List Char} (h : c ∈ [';', ')', ',']) : Stops (c :: r) := by
  have hbound : c ∈ [' ', ';', ')', ','] := List.mem_cons_of_mem ' ' h
  have hout : [';', ')', ','].all fun c => !isBlank c && !isDigit c := by decide
  obtain ⟨hblank, hdigit⟩ : isBlank c = false ∧ isDigit c = false := by
    simpa using List.all_eq_true.1 hout c h
  refine ⟨atBound_cons hbound, List.cons_ne_nil c r, fun d hd => ?_⟩
  rw [pastBlank, if_neg (by rw [hblank]; decide)] at hd
  cases hd
  exact hdigit

theorem stops_space {r : List Char} (h : ∀ d ∈ r.head?, isDigit d = false) : Stops (' ' :: r) :=
  ⟨atBound_cons List.mem_cons_self, List.cons_ne_nil _ r, h⟩

/-- Writing succeeds, and what is written is read as tokens that the marks tell, none of them a
comment. It is written in front of a text for which `C` holds, and `A` holds for the two together. -/
def Prints (w : Write) (ms : List Mark) (C A : List Char → Prop) : Prop :=
  ∃ (text : List Char) (l : List Token), Fits ms l ∧ (∀ t ∈ l, t.kind ≠ .comment) ∧
    (∀ s, w s = .ok () (s ++ String.ofList text)) ∧
    ∀ r, C r → A (text ++ r) ∧ ∀ l', Lexes r l' → Lexes (text ++ r) (l ++ l')

theorem ne_comment {k : Token.Kind} (h : k.isPart) : k ≠ .comment := by
  rintro rfl
  cases h

namespace Prints

theorem pure : Prints (pure ()) [] A A := by
  refine ⟨[], [], .nil, List.forall_mem_nil _, fun s => ?_, fun r hr => ⟨hr, fun l' => id⟩⟩
  rw [String.ofList_nil, String.append_empty]
  rfl

theorem seq {f : Unit → Write} (h : Prints w ms B A) (h' : Prints (f ()) ns C B) :
    Prints (w >>= f) (ms ++ ns) C A := by
  obtain ⟨text, l, hl, hkinds, hrun, htext⟩ := h
  obtain ⟨text', l', hl', hkinds', hrun', htext'⟩ := h'
  refine ⟨text ++ text', l ++ l', List.rel_append hl hl', ?_, fun s => ?_, fun r hr => ?_⟩
  · exact List.forall_mem_append.2 ⟨hkinds, hkinds'⟩
  · simp only [bind, EStateM.bind, hrun, hrun', String.append_assoc, ← String.ofList_append]
  · obtain ⟨hB, hr'⟩ := htext' r hr
    obtain ⟨hA, hread⟩ := htext (text' ++ r) hB
    simp only [List.append_assoc]
    exact ⟨hA, fun l'' hl'' => hread _ (hr' l'' hl'')⟩

theorem weaken {A' C' : List Char → Prop} (h : Prints w ms C A) (hC : ∀ r, C' r → C r)
    (hA : ∀ r, A r → A' r) : Prints w ms C' A' := by
  obtain ⟨text, l, hl, hkinds, hrun, htext⟩ := h
  refine ⟨text, l, hl, hkinds, hrun, fun r hr => ?_⟩
  obtain ⟨htold, hread⟩ := htext r (hC r hr)
  exact ⟨hA _ htold, hread⟩

theorem emit {s : String} (l : List Token) (hl : Fits ms l ∧ ∀ t ∈ l, t.kind ≠ .comment)
    (hA : ∀ r, C r → A (s.toList ++ r))
    (h : ∀ r l', C r → Lexes r l' → Lexes (s.toList ++ r) (l ++ l')) :
    Prints (Write.emit s) ms C A := by
  refine ⟨s.toList, l, hl.1, hl.2, fun t => ?_, fun r hr => ⟨hA r hr, fun l' => h r l' hr⟩⟩
  rw [String.ofList_toList]
  rfl

/-- A text that holds one token of the tree. -/
theorem emit_held {s : String} {t : Token} (ht : t.kind.isPart) (hA : ∀ r, C r → A (s.toList ++ r))
    (h : ∀ r l', C r → Lexes r l' → Lexes (s.toList ++ r) (t :: l')) :
    Prints (Write.emit s) [.held t] C A :=
  .emit [t] ⟨.cons (beq_self_eq_true t) .nil, List.forall_mem_singleton.2 (ne_comment ht)⟩ hA h

theorem seq_nil {f : Unit → Write} (h : Prints w ms B A) (h' : Prints (f ()) [] C B) :
    Prints (w >>= f) ms C A := by
  have hseq := h.seq h'
  rwa [List.append_nil] at hseq

theorem assoc {f g : Unit → Write} (h : Prints (w >>= f >>= g) ms C A) :
    Prints (w >>= fun x => f x >>= g) ms C A := by
  rwa [bind_assoc] at h

/-- A part that is written only in some cases. -/
theorem optional {c : Prop} [Decidable c] {f : Unit → Write} (h : Prints w ms Any Any)
    (h' : Prints (f ()) ns C Any) :
    Prints (if c then w >>= f else f ()) ((if c then ms else []) ++ ns) C Any := by
  by_cases hc : c
  · rw [if_pos hc, if_pos hc]
    exact (h.weaken (fun _ _ => trivial) fun _ => id).seq h'
  · rw [if_neg hc, if_neg hc]
    exact h'

theorem forM {l : List α} {g : α → Write} {m : α → List Mark}
    (h : ∀ a ∈ l, Prints (g a) (m a) Any Any) : Prints (l.forM g) (l.flatMap m) Any Any := by
  induction l with
  | nil => exact pure
  | cons a l ih =>
    obtain ⟨ha, hl⟩ := List.forall_mem_cons.1 h
    exact ha.seq (ih hl)

end Prints

section Texts

variable {r : List Char} {l : List Token} {k : Token.Kind} {t : Token}

theorem lexes_blank {c : Char} (hc : isBlank c) (h : Lexes r l) : Lexes (c :: r) l :=
  h.padded (.cons hc (.refl r))

theorem lexes_blanks {blanks : List Char} (hblanks : blanks.all isBlank) (h : Lexes r l) :
    Lexes (blanks ++ r) l :=
  h.padded ⟨blanks, hblanks, rfl⟩

theorem lexes_symbol {c : Char} {own : Bool} (hc : symbol? c = some (k, own)) (h : Lexes r l) :
    Lexes (c :: r) (⟨k, c.toString, 0, 0⟩ :: l) := by
  refine .cons (takes_symbol hc) ?_ h
  unfold symbol? at hc
  split at hc <;> cases hc <;> exact Token.Kind.noConfusion

theorem lexes_word {w : String} (hw : Token.reserved? w = some k) (hword : wholeWord w.toList)
    (hr : EndsWord r) (h : Lexes r l) : Lexes (w.toList ++ r) (⟨k, w, 0, 0⟩ :: l) := by
  refine .cons ?_ (Token.kind_of_reserved hw).2 h
  have htakes := takes_word hword hr
  rwa [hw] at htakes

theorem lexes_held (hk : t.kind.isPart) (ht : Legible t.kind t.lexeme)
    (hr : AtBound r ∨ t.kind = .id ∧ r.head? = some '(') (h : Lexes r l) :
    Lexes (Token.spelling t.kind t.lexeme.toList ++ r) (t :: l) := by
  refine .cons (ht.again r hr) ?_ h
  intro heos
  rw [heos] at hk
  cases hk

theorem spelling_of_ne {k : Token.Kind} (h : k ≠ .stringVal) (cs : List Char) :
    Token.spelling k cs = cs := by
  rw [Token.spelling, if_neg h]

end Texts

theorem prints_blanks {s : String} (h : s.toList.all isBlank) : Prints (Write.emit s) [] Any Any :=
  .emit [] ⟨.nil, List.forall_mem_nil _⟩ (fun _ _ => trivial) fun _ _ _ hl => lexes_blanks h hl

theorem prints_newline : Prints (Write.emit ("" ++ "\n")) [] Any Any := prints_blanks (by decide)

theorem prints_not : Prints (Write.emit "not ") [.sign .notOp] Any Any := by
  refine .emit [⟨.notOp, "not", 0, 0⟩] (by decide) (fun _ _ => trivial) fun r l _ hl => ?_
  have hr : EndsWord (' ' :: r) := endsWord_of_atBound (atBound_cons (by decide))
  exact lexes_word (w := "not") rfl (by decide +kernel) hr (lexes_blank rfl hl)

theorem prints_lparen : Prints (Write.emit "(") [.sign .lparen] Any Any :=
  .emit [⟨.lparen, "(", 0, 0⟩] (by decide) (fun _ _ => trivial) fun _ _ _ hl =>
    lexes_symbol (c := '(') rfl hl

theorem prints_rparen : Prints (Write.emit ")") [.sign .rparen] Stops Stops :=
  .emit [⟨.rparen, ")", 0, 0⟩] (by decide) (fun _ _ => stops_cons (by decide)) fun _ _ hr hl =>
    .cons (takes_rparen hr.2.2) (by decide) hl

theorem prints_assign : Prints (Write.emit " = ") [.sign .assign] Any Stops := by
  refine .emit [⟨.assign, "=", 0, 0⟩] (by decide) (fun _ _ => stops_space ?_) fun r l _ hl => ?_
  · rintro d ⟨⟩
    rfl
  · have hsign : Takes ('=' :: ' ' :: r) .assign "=" (' ' :: r) := takes_assign (by simp)
    exact lexes_blank rfl (.cons hsign (by decide) (lexes_blank rfl hl))

theorem prints_head {w : String} {k : Token.Kind} (hw : Token.reserved? w = some k)
    (hword : wholeWord w.toList) (hk : k ≠ .comment) :
    Prints (Write.emit (w ++ " (")) [.sign k, .sign .lparen] Any Any := by
  refine .emit [⟨k, w, 0, 0⟩, ⟨.lparen, "(", 0, 0⟩] ⟨?_, ?_⟩ (fun _ _ => trivial) fun r l _ hl => ?_
  · exact .cons (beq_self_eq_true k) (by decide)
  · simp [hk]
  · have hr : EndsWord (' ' :: '(' :: r) := endsWord_of_atBound (atBound_cons (by decide))
    rw [String.toList_append, List.append_assoc]
    exact lexes_word hw hword hr (lexes_blank rfl (lexes_symbol (c := '(') rfl hl))

theorem prints_return : Prints (Write.emit "return ") [.sign .returnKw] Any Any := by
  refine .emit [⟨.returnKw, "return", 0, 0⟩] (by decide) (fun _ _ => trivial) fun r l _ hl => ?_
  have hr : EndsWord (' ' :: r) := endsWord_of_atBound (atBound_cons (by decide))
  exact lexes_word (w := "return") rfl (by decide +kernel) hr (lexes_blank rfl hl)

theorem prints_opening :
    Prints (Write.emit (")" ++ opening)) [.sign .rparen, .sign .lbrace] Any Stops := by
  refine .emit [⟨.rparen, ")", 0, 0⟩, ⟨.lbrace, "\x7b", 0, 0⟩] (by decide)
    (fun _ _ => stops_cons (by decide)) fun r l _ hl => ?_
  refine .cons (takes_rparen ?_) (by decide)
    (lexes_blank rfl (lexes_symbol (c := '\x7b') rfl (lexes_blank rfl hl)))
  rintro d ⟨⟩
  rfl

theorem prints_closing {pad tail : String} (hpad : pad.toList.all isBlank)
    (htail : tail.toList.all isBlank) :
    Prints (Write.emit (pad ++ closing ++ tail)) [.sign .rbrace] Any Any := by
  refine .emit [⟨.rbrace, "\x7d", 0, 0⟩] (by decide) (fun _ _ => trivial) fun r l _ hl => ?_
  have hclosing : closing.toList = ['\x7d'] := rfl
  rw [String.toList_append, String.toList_append, List.append_assoc, List.append_assoc, hclosing]
  have hbehind : Lexes (tail.toList ++ r) l := lexes_blanks htail hl
  exact lexes_blanks hpad (lexes_symbol (c := '\x7d') rfl hbehind)

theorem prints_brace {pad : String} (hpad : pad.toList.all isBlank) :
    Prints (Write.emit (pad ++ closing)) [.sign .rbrace] Any Any := by
  have h : Prints (Write.emit (pad ++ closing ++ "")) [.sign .rbrace] Any Any :=
    prints_closing hpad (by decide)
  rwa [String.append_empty] at h

theorem prints_lastBrace : Prints (Write.emit ("" ++ closing ++ "\n")) [.sign .rbrace] Any Any :=
  prints_closing (by decide) (by decide)

theorem prints_semicolon {tail : String} (htail : tail.toList.all isBlank) :
    Prints (Write.emit (";" ++ tail)) [.sign .semicolon] Any Stops := by
  have hsign : ";".toList = [';'] := rfl
  refine .emit [⟨.semicolon, ";", 0, 0⟩] (by decide) (fun r _ => ?_) fun r l _ hl => ?_
  · rw [String.toList_append, List.append_assoc, hsign]
    exact stops_cons (by decide)
  · rw [String.toList_append, List.append_assoc, hsign]
    have hbehind : Lexes (tail.toList ++ r) l := lexes_blanks htail hl
    exact .cons takes_semicolon (by decide) hbehind

theorem prints_comma : Prints (Write.emit ", ") [.sign .comma] Any Stops :=
  .emit [⟨.comma, ",", 0, 0⟩] (by decide) (fun _ _ => stops_cons (by decide)) fun _ _ _ hl =>
    lexes_symbol (c := ',') rfl (lexes_blank rfl hl)

/-- Operators and the words of types are written as they are. -/
theorem isPart_unquoted {k : Token.Kind} (h : k.isOperator ∨ k.namesType ∨ k = .voidType) :
    k.isPart ∧ k ≠ .stringVal := by
  constructor
  · obtain h | h | h := h <;> simp [Token.Kind.isPart, h]
  · rintro rfl
    revert h
    decide

section Tokens

variable {t : Token} (ht : Legible t.kind t.lexeme)

include ht

theorem prints_literal (hk : t.kind.isLiteral) : Prints (literal t) [.held t] Stops Any := by
  have hpart : t.kind.isPart := by simp [Token.Kind.isPart, hk]
  have hread (r : List Char) (hr : Stops r) (l : List Token) (hl : Lexes r l) :
      Lexes (Token.spelling t.kind t.lexeme.toList ++ r) (t :: l) :=
    lexes_held hpart ht (.inl hr.1) hl
  refine ⟨Token.spelling t.kind t.lexeme.toList, [t], .cons (beq_self_eq_true t) .nil,
    List.forall_mem_singleton.2 (ne_comment hpart), fun s => ?_, fun r hr => ⟨trivial, hread r hr⟩⟩
  rw [literal, Token.spelling]
  by_cases hstring : t.kind = .stringVal
  · rw [if_pos hstring, if_pos hstring]
    change EStateM.Result.ok () (s ++ "\"" ++ t.lexeme ++ "\"") = _
    congr 1
    apply String.toList_injective
    simp
  · rw [if_neg hstring, if_neg hstring, String.ofList_toList]
    rfl

theorem prints_name (hk : t.kind = .id) : Prints (Write.emit t.lexeme) [.held t] Stops Any := by
  have hpart : t.kind.isPart := by rw [hk]; rfl
  refine .emit_held hpart (fun _ _ => trivial) fun r l hr hl => ?_
  have hlexes := lexes_held hpart ht (.inl hr.1) hl
  rwa [spelling_of_ne (by rw [hk]; decide)] at hlexes

/-- A name in front of what stands in parentheses, with blanks before it. -/
theorem prints_callee (hk : t.kind = .id) {pad : String} (hpad : pad.toList.all isBlank)
    (hA : ∀ r, A ((pad ++ t.lexeme ++ "(").toList ++ r)) :
    Prints (Write.emit (pad ++ t.lexeme ++ "(")) [.held t, .sign .lparen] Any A := by
  have hpart : t.kind.isPart := by rw [hk]; rfl
  have hsign : "(".toList = ['('] := rfl
  refine .emit [t, ⟨.lparen, "(", 0, 0⟩] ⟨?_, ?_⟩ (fun r _ => hA r) fun r l _ hl => ?_
  · exact .cons (beq_self_eq_true t) (by decide)
  · simp [ne_comment hpart]
  · have hlexes := lexes_held hpart ht (.inr ⟨hk, rfl⟩) (lexes_symbol (c := '(') rfl hl)
    rw [spelling_of_ne (by rw [hk]; decide)] at hlexes
    rw [String.toList_append, String.toList_append, List.append_assoc, List.append_assoc, hsign]
    exact lexes_blanks hpad hlexes

theorem lexes_spaced_token (hk : t.kind.isPart) (hne : t.kind ≠ .stringVal) {r : List Char}
    {l : List Token} (hl : Lexes r l) : Lexes (t.lexeme.toList ++ ' ' :: r) (t :: l) := by
  have hbound : AtBound (' ' :: r) := atBound_cons List.mem_cons_self
  have hlexes := lexes_held hk ht (.inl hbound) (lexes_blank (c := ' ') rfl hl)
  rwa [spelling_of_ne hne] at hlexes

theorem prints_operator (hk : t.kind.isOperator) :
    Prints (Write.emit (" " ++ t.lexeme ++ " ")) [.held t] Any Stops := by
  obtain ⟨hpart, hne⟩ := isPart_unquoted (.inl hk)
  have hspace : " ".toList = [' '] := rfl
  refine .emit_held hpart (fun r _ => ?_) fun r l _ hl => ?_
  · rw [String.toList_append, String.toList_append, List.append_assoc, List.append_assoc, hspace]
    refine stops_space fun d hd => ?_
    have hhead := ht.head hk
    cases hw : t.lexeme.toList with
    | nil =>
      -- Without a text of the operator the next character is the second space.
      rw [hw] at hd
      cases hd
      rfl
    | cons c cs =>
      rw [hw] at hd hhead
      cases hd
      exact hhead d rfl
  · rw [String.toList_append, String.toList_append, List.append_assoc, List.append_assoc, hspace]
    exact lexes_blank (c := ' ') rfl (lexes_spaced_token ht hpart hne hl)

theorem prints_target (hk : t.kind = .id) :
    Prints (Write.emit (t.lexeme ++ " = ")) [.held t, .sign .assign] Any Any := by
  obtain ⟨hpart, hne⟩ := isPart_unquoted (k := t.kind) (.inr (.inl (by rw [hk]; rfl)))
  have hsign : " = ".toList = [' ', '=', ' '] := rfl
  refine .emit [t, ⟨.assign, "=", 0, 0⟩] ⟨?_, ?_⟩ (fun _ _ => trivial) fun r l _ hl => ?_
  · exact .cons (beq_self_eq_true t) (by decide)
  · simp [ne_comment hpart]
  · have hassign : Takes ('=' :: ' ' :: r) .assign "=" (' ' :: r) := takes_assign (by simp)
    rw [String.toList_append, List.append_assoc, hsign]
    exact lexes_spaced_token ht hpart hne (.cons hassign (by decide) (lexes_blank rfl hl))

theorem prints_returns (hk : t.kind.namesType ∨ t.kind = .voidType) :
    Prints (dataType ⟨false, some t⟩) [.held t] (fun r => r.head? = some ' ') Any := by
  obtain ⟨hpart, hne⟩ := isPart_unquoted (.inr hk)
  have hspace : " ".toList = [' '] := rfl
  change Prints (if t.lexeme = "void" then Write.emit "void" else Write.emit (t.lexeme ++ " ")) _ _ _
  by_cases hvoid : t.lexeme = "void"
  · -- Only the space before the name of the function ends this word.
    rw [if_pos hvoid, ← hvoid]
    refine .emit_held hpart (fun _ _ => trivial) fun r l hr hl => ?_
    have hbound : AtBound r := by
      intro c hc
      rw [hr] at hc
      cases hc
      decide
    have hlexes := lexes_held hpart ht (.inl hbound) hl
    rwa [spelling_of_ne hne] at hlexes
  · rw [if_neg hvoid]
    refine .emit_held hpart (fun _ _ => trivial) fun r l _ hl => ?_
    rw [String.toList_append, List.append_assoc, hspace]
    exact lexes_spaced_token ht hpart hne hl

/-- Only the word for no result is spelled like it. -/
theorem lexeme_ne_void (hk : t.kind.namesType) : t.lexeme ≠ "void" := by
  intro hvoid
  obtain ⟨-, hne⟩ := isPart_unquoted (.inr (.inl hk))
  have hbound : AtBound [' '] := atBound_cons List.mem_cons_self
  have htakes := ht.again [' '] (.inl hbound)
  rw [spelling_of_ne hne, hvoid] at htakes
  have hword : Takes ("void".toList ++ [' ']) .voidType "void" [' '] :=
    takes_word (w := "void") (by decide +kernel) (endsWord_of_atBound hbound)
  rw [htakes.kind_unique hword] at hk
  cases hk

theorem prints_type (hk : t.kind.namesType) :
    Prints (dataType ⟨false, some t⟩) [.held t] Any Any := by
  obtain ⟨hpart, hne⟩ := isPart_unquoted (.inr (.inl hk))
  have hspace : " ".toList = [' '] := rfl
  change Prints (if t.lexeme = "void" then Write.emit "void" else Write.emit (t.lexeme ++ " ")) _ _ _
  rw [if_neg (lexeme_ne_void ht hk)]
  refine .emit_held hpart (fun _ _ => trivial) fun r l _ hl => ?_
  rw [String.toList_append, List.append_assoc, hspace]
  exact lexes_spaced_token ht hpart hne hl

theorem prints_structHead (hk : t.kind = .id) :
    Prints (Write.emit ("struct " ++ t.lexeme ++ opening)) [.sign .structKw, .held t, .sign .lbrace]
      Any Any := by
  obtain ⟨hpart, hne⟩ := isPart_unquoted (k := t.kind) (.inr (.inl (by rw [hk]; rfl)))
  have hword : "struct ".toList = "struct".toList ++ [' '] := rfl
  have hsign : opening.toList = [' ', '\x7b', '\n'] := rfl
  refine .emit [⟨.structKw, "struct", 0, 0⟩, t, ⟨.lbrace, "\x7b", 0, 0⟩] ⟨?_, ?_⟩
    (fun _ _ => trivial) fun r l _ hl => ?_
  · exact .cons (by decide) (.cons (beq_self_eq_true t) (by decide))
  · simp [ne_comment hpart]
  · have hbrace : Lexes ('\x7b' :: '\n' :: r) (⟨.lbrace, "\x7b", 0, 0⟩ :: l) :=
      lexes_symbol rfl (lexes_blank rfl hl)
    have hname := lexes_spaced_token ht hpart hne hbrace
    rw [String.toList_append, String.toList_append, hword, hsign]
    simp only [List.append_assoc, List.cons_append, List.nil_append]
    exact lexes_word (w := "struct") rfl (by decide +kernel)
      (endsWord_of_atBound (atBound_cons (by decide))) (lexes_blank rfl hname)

end Tokens

/-- Tokens that stay the same can be read again from what is printed for them. A tree that stays
the same has only such tokens. -/
def KeepsLegible (f : Token → Token) : Prop :=
  ∀ t, f t = t → t.kind.isPart → Legible t.kind t.lexeme

section Expressions

variable {negated : Option Bool} {first : Term}

theorem prints_alone (h : Prints (term first) ms Stops Any) :
    Prints (expr (.mk negated first none none))
      ((if negated = some true then [.sign .notOp] else []) ++ (ms ++ [])) Stops Any := by
  rw [expr]
  exact .optional prints_not (h.seq .pure)

theorem prints_operation {op : Token} {rest : Expr} (hfirst : Prints (term first) ms Stops Any)
    (hop : op.kind.isOperator) (hlegible : Legible op.kind op.lexeme)
    (hrest : Prints (expr rest) ns Stops Any) :
    Prints (expr (.mk negated first (some op) (some rest)))
      ((if negated = some true then [.sign .notOp] else []) ++ (ms ++ (.held op :: ns))) Stops Any := by
  rw [expr]
  exact .optional prints_not (hfirst.seq
    (((prints_operator hlegible hop).weaken (fun _ _ => trivial) fun _ => id).seq hrest))

theorem prints_group {e : Expr} (h : Prints (expr e) ms Stops Any) :
    Prints (term (.group e)) (inParens ms) Stops Any := by
  rw [term]
  exact prints_lparen.seq (h.seq prints_rparen)

theorem prints_call {name : Token} {l : List Expr} (hname : name.kind = .id)
    (hlegible : Legible name.kind name.lexeme) (hl : Prints (arguments l) ms Stops Any) :
    Prints (term (.call name (some l))) (.held name :: inParens ms) Stops Any := by
  have hhead : Prints (Write.emit ("" ++ name.lexeme ++ "(")) [.held name, .sign .lparen] Any Any :=
    prints_callee hlegible hname rfl fun _ => trivial
  rw [String.empty_append] at hhead
  rw [term]
  exact hhead.seq (hl.seq prints_rparen)

theorem prints_argument {e : Expr} (h : Prints (expr e) ms Stops Any) :
    Prints (arguments [e]) ((if e.negated = some true then [.sign .notOp] else []) ++ (ms ++ []))
      Stops Any := by
  rw [arguments, arguments]
  exact .optional prints_not (h.seq .pure)

variable {f : Token → Token} (hf : KeepsLegible f)

include hf

mutual

theorem prints_simple : ∀ e : Expr, e.simple → e.relabel f = e →
    Prints (expr e) e.written Stops Any
  | .mk negated first none none, he, hkept => by
    obtain ⟨-, hfirst⟩ : negated.isSome ∧ first.simple := by
      simpa [Expr.simple, simpleIfAny] using he
    simp only [Expr.relabel, Expr.mk.injEq] at hkept
    rw [Expr.written]
    exact prints_alone (prints_simpleTerm first hfirst hkept.2.1)
  | .mk negated first (some op) (some rest), he, hkept => by
    obtain ⟨⟨⟨-, hfirst⟩, hop⟩, hrest⟩ : ((negated.isSome ∧ first.simple) ∧ op.kind.isOperator) ∧
        rest.simple := by simpa [Expr.simple, simpleIfAny] using he
    simp only [Expr.relabel, Expr.mk.injEq, Option.map_some, relabelIfAny, Option.some.injEq]
      at hkept
    have hpart : op.kind.isPart := by simp [Token.Kind.isPart, hop]
    rw [Expr.written]
    exact prints_operation (prints_simpleTerm first hfirst hkept.2.1) hop
      (hf op hkept.2.2.1 hpart) (prints_simple rest hrest hkept.2.2.2)
  | .mk negated first none (some rest), he, _ => by simp [Expr.simple] at he
  | .mk negated first (some op) none, he, _ => by simp [Expr.simple] at he

theorem prints_simpleTerm : ∀ t : Term, t.simple → t.relabel f = t →
    Prints (term t) t.written Stops Any
  | .literal t, ht, hkept => by
    have hk : t.kind.isLiteral := ht
    have hpart : t.kind.isPart := by simp [Token.Kind.isPart, hk]
    simp only [Term.relabel, Term.literal.injEq] at hkept
    rw [term]
    exact prints_literal (hf t hkept hpart) hk
  | .path refs, ht, hkept => by
    obtain ⟨name, rfl, hname⟩ := Term.eq_of_simple_path ht
    simp only [Term.relabel, relabelRefs, relabelIfAny, Term.path.injEq, List.cons.injEq,
      Ref.mk.injEq, and_true] at hkept
    rw [term]
    exact (prints_name (hf name hkept (by rw [hname]; rfl)) hname).seq .pure
  | .group e, ht, hkept => by
    simp only [Term.relabel, Term.group.injEq] at hkept
    exact prints_group (prints_simple e ht hkept)
  | .create _ _ _, ht, _ => by cases ht
  | .call _ _, ht, _ => by cases ht

end

mutual

theorem prints_passes : ∀ e : Expr, e.passes → e.relabel f = e →
    Prints (expr e) e.written Stops Any
  | .mk negated first none none, he, hkept => by
    obtain ⟨-, hfirst⟩ : negated.isSome ∧ first.passes := by simpa [Expr.passes] using he
    simp only [Expr.relabel, Expr.mk.injEq] at hkept
    rw [Expr.written]
    exact prints_alone (prints_passesTerm first hfirst hkept.2.1)
  | .mk negated first (some op) rest, he, hkept => prints_simple hf _ he hkept
  | .mk negated first none (some rest), he, hkept => prints_simple hf _ he hkept

theorem prints_passesTerm : ∀ t : Term, t.passes → t.relabel f = t →
    Prints (term t) t.written Stops Any
  | .call name (some []), ht, hkept => by
    have hname : name.kind = .id := by simpa [Term.passes, passesList, passesAlone] using ht
    simp only [Term.relabel, Term.call.injEq] at hkept
    rw [Term.written, writtenList, writtenArguments]
    refine prints_call hname (hf name hkept.1 (by rw [hname]; rfl)) ?_
    rw [arguments]
    exact Prints.pure.weaken (fun _ _ => trivial) fun _ => id
  | .call name (some [e]), ht, hkept => by
    obtain ⟨hname, he⟩ : name.kind = .id ∧ e.passes := by
      simpa [Term.passes, passesList, passesAlone] using ht
    simp only [Term.relabel, relabelList, relabelExprs, Term.call.injEq, Option.some.injEq,
      List.cons.injEq, and_true] at hkept
    rw [Term.written, writtenList, writtenArguments, writtenArguments]
    exact prints_call hname (hf name hkept.1 (by rw [hname]; rfl))
      (prints_argument (prints_passes e he hkept.2))
  | .call name (some (_ :: _ :: _)), ht, _ => by simp [Term.passes, passesList, passesAlone] at ht
  | .call name none, ht, _ => by simp [Term.passes, passesList] at ht
  | .literal t, ht, hkept => prints_simpleTerm hf (.literal t) ht hkept
  | .path refs, ht, hkept => prints_simpleTerm hf (.path refs) ht hkept
  | .group e, ht, hkept => prints_simpleTerm hf (.group e) ht hkept
  | .create _ _ _, ht, _ => by cases ht

end

theorem prints_endsInCall {e : Expr} {test : Term → Bool}
    (htest : ∀ t : Term, test t → t.relabel f = t → Prints (term t) t.written Stops Any)
    (he : e.endsInCall test) (hkept : e.relabel f = e) : Prints (expr e) e.written Stops Any := by
  obtain ⟨b, first, op, name, l, rfl, hfirst, hop, hname, hl⟩ := Expr.endsInCall_cases he
  have hpart : op.kind.isPart := by simp [Token.Kind.isPart, hop]
  have hcall : (Expr.operand (.call name (some l))).passes := by
    simp [Expr.operand, Expr.passes, Term.passes, passesList, hname, hl]
  simp only [Expr.relabel, Expr.mk.injEq, Option.map_some, relabelIfAny, Option.some.injEq]
    at hkept
  rw [Expr.written]
  exact prints_operation (htest first hfirst hkept.2.1) hop (hf op hkept.2.2.1 hpart)
    (prints_passes hf _ hcall hkept.2.2.2)

theorem prints_named (t : Term) (ht : t.named) (hkept : t.relabel f = t) :
    Prints (term t) t.written Stops Any := by
  obtain ⟨name, rfl, hsimple⟩ | ⟨name, l, rfl, hname, hl⟩ := Term.named_cases ht
  · exact prints_simpleTerm hf _ hsimple hkept
  · exact prints_passesTerm hf _ (by simp [Term.passes, passesList, hname, hl]) hkept

end Expressions

section Statements

/-- A block behind what stands in parentheses. -/
theorem prints_guarded {head inner body close : Write} {m : Mark}
    (hhead : Prints head [m, .sign .lparen] Any A) (hinner : Prints inner ms Stops Any)
    (hbody : Prints body ns Any Any) (hclose : Prints close [.sign .rbrace] Any Any) :
    Prints (do head; inner; Write.emit (")" ++ opening); body; close)
      (m :: (inParens ms ++ inBraces ns)) Any A := by
  have hmarks : m :: (inParens ms ++ inBraces ns) = [m, .sign .lparen] ++ (ms ++
      ([.sign .rparen, .sign .lbrace] ++ (ns ++ [.sign .rbrace]))) := by simp [inParens, inBraces]
  rw [hmarks]
  exact hhead.seq (hinner.seq (prints_opening.seq (hbody.seq hclose)))

variable {f : Token → Token} (hf : KeepsLegible f)

include hf

theorem prints_varDef {d : VarDef} (hd : d.faithful) (hkept : d.relabel f = d) :
    Prints (varDef d) d.marks Stops Any := by
  obtain ⟨t, name, rfl, ht, hname⟩ := VarDef.eq_of_faithful hd
  simp only [VarDef.relabel, DataType.relabel, Option.map_some, VarDef.mk.injEq, Option.some.injEq,
    DataType.mk.injEq, true_and] at hkept
  exact (prints_type (hf t hkept.1 (isPart_unquoted (.inr (.inl ht))).1) ht).seq
    (prints_name (hf name hkept.2 (by rw [hname]; rfl)) hname)

theorem prints_varDecl {d : VarDecl} (hd : d.faithful) (hkept : d.relabel f = d) :
    Prints (varDecl d) d.written Stops Any := by
  obtain ⟨var, init⟩ := d
  obtain ⟨e, rfl, hvar, he, hwritten⟩ := VarDecl.eq_of_faithful hd
  simp only [VarDecl.relabel, relabelIfAny, VarDecl.mk.injEq, Option.some.injEq] at hkept
  rw [hwritten]
  exact (prints_varDef hf hvar hkept.1).seq
    ((prints_assign.weaken (fun _ _ => trivial) fun _ => id).seq (prints_passes hf e he hkept.2))

theorem prints_assignment {a : Assign} (ha : a.faithful) (hkept : a.relabel f = a) :
    Prints (assign a) a.marks Stops Any := by
  obtain ⟨name, e, rfl, hname, he⟩ := Assign.eq_of_faithful ha
  simp only [Assign.relabel, relabelRefs, relabelIfAny, Assign.mk.injEq, List.cons.injEq,
    Ref.mk.injEq, and_true] at hkept
  rw [Assign.marks, ← e.written_of_simple he]
  have htarget := prints_target (hf name hkept.1 (by rw [hname]; rfl)) hname
  exact (htarget.seq .pure).seq (prints_simple hf e he hkept.2)

end Statements

mutual

theorem prints_line {f : Token → Token} (hf : KeepsLegible f) {pad : String}
    (hpad : pad.toList.all isBlank) : ∀ s : Stmt, s.faithful → s.relabel f = s →
    Prints (stmt pad s >>= fun _ => Write.emit (terminator s ++ "\n")) s.written Any Any
  | .ret e, hs, hkept => by
    have he : e.passes ∨ e.endsInCall Term.named := (Bool.or_eq_true _ _).mp hs
    have hkept' : e.relabel f = e := by simpa [Stmt.relabel] using hkept
    have hexpr : Prints (expr e) e.written Stops Any := by
      obtain he | he := he
      · exact prints_passes hf e he hkept'
      · exact prints_endsInCall hf (prints_named hf) he hkept'
    exact (prints_return.seq hexpr).seq (prints_semicolon (by decide))
  | .decl d, hs, hkept => by
    have hkept' : d.relabel f = d := by simpa [Stmt.relabel] using hkept
    exact (prints_varDecl hf hs hkept').seq (prints_semicolon (by decide))
  | .assign a, hs, hkept => by
    have hkept' : a.relabel f = a := by simpa [Stmt.relabel] using hkept
    exact (prints_assignment hf hs hkept').seq (prints_semicolon (by decide))
  | .loop c body, hs, hkept => by
    obtain ⟨hc, hbody⟩ : c.simple ∧ faithfulStmts body := by simpa [Stmt.faithful] using hs
    simp only [Stmt.relabel, Stmt.loop.injEq] at hkept
    rw [stmt, Stmt.written, ← c.written_of_simple hc]
    exact (prints_guarded (prints_head (w := "while") rfl (by decide +kernel) (by decide))
      (prints_simple hf c hc hkept.1) (prints_block hf hpad body hbody hkept.2)
      (prints_brace hpad)).seq_nil prints_newline
  | .count init c step body, hs, hkept => by
    obtain ⟨⟨⟨⟨hinit, -⟩, hc⟩, hstep⟩, hbody⟩ : (((init.faithful ∧
        init.var.type.any DataType.begins) ∧ (c.passes || c.endsInCall Term.simple)) ∧
        step.faithful) ∧ faithfulStmts body := by
      simpa only [Stmt.faithful, Bool.and_eq_true] using hs
    simp only [Stmt.relabel, Stmt.count.injEq] at hkept
    have hexpr : Prints (expr c) c.written Stops Any := by
      obtain hc | hc := (Bool.or_eq_true _ _).mp hc
      · exact prints_passes hf c hc hkept.2.1
      · exact prints_endsInCall hf (prints_simpleTerm hf) hc hkept.2.1
    have hsemicolon : Prints (Write.emit (";" ++ " ")) [.sign .semicolon] Any Stops :=
      prints_semicolon (by decide)
    have hinner : Prints (do varDecl init; Write.emit "; "; expr c; Write.emit "; "; assign step)
        (init.written ++ (.sign .semicolon :: (c.written ++ (.sign .semicolon :: step.marks))))
        Stops Any :=
      (prints_varDecl hf hinit hkept.1).seq (hsemicolon.seq (hexpr.seq (hsemicolon.seq
        (prints_assignment hf hstep hkept.2.2.1))))
    have hguarded := prints_guarded (prints_head (w := "for") rfl (by decide +kernel) (by decide))
      hinner (prints_block hf hpad body hbody hkept.2.2.2) (prints_brace hpad)
    -- In the statement the parts between the parentheses stand in one sequence with the rest.
    simp only [bind_assoc] at hguarded
    rw [stmt, Stmt.written]
    exact hguarded.seq_nil prints_newline
  | .choice (.mk c body) others otherwise, hs, hkept => by
    obtain ⟨⟨⟨hc, hbody⟩, hothers⟩, hotherwise⟩ : ((c.simple ∧ faithfulStmts body) ∧
        others = []) ∧ otherwise = [] := by simpa [Stmt.faithful] using hs
    subst hothers hotherwise
    simp only [Stmt.relabel, Branch.relabel, Stmt.choice.injEq, Branch.mk.injEq] at hkept
    rw [stmt, Stmt.written, ← c.written_of_simple hc]
    refine (prints_guarded (prints_head (w := "if") rfl (by decide +kernel) (by decide))
      (prints_simple hf c hc hkept.1.1) (prints_block hf hpad body hbody hkept.1.2)
      ?_).seq_nil prints_newline
    rw [branches, alternatives]
    exact (prints_closing hpad (by decide)).seq_nil (.seq .pure .pure)
  | .call name args, hs, hkept => by
    have hkept' : (Term.call name args).relabel f = .call name args := by
      simpa [Stmt.relabel, Term.relabel] using hkept
    exact (prints_passesTerm hf _ hs hkept').seq (prints_semicolon (by decide))
  | .expr _, hs, _ => by cases hs

theorem prints_block {f : Token → Token} (hf : KeepsLegible f) {pad : String}
    (hpad : pad.toList.all isBlank) : ∀ l : List Stmt, faithfulStmts l → relabelStmts f l = l →
    Prints (block pad l) (writtenStmts l) Any Any
  | [], _, _ => by
    rw [block]
    exact .pure
  | s :: l, h, hkept => by
    obtain ⟨hs, hl⟩ : s.faithful ∧ faithfulStmts l := by simpa [faithfulStmts] using h
    simp only [relabelStmts, List.cons.injEq] at hkept
    have hpads : (pad ++ pad).toList.all isBlank := by
      rw [String.toList_append, List.all_append, hpad]
      rfl
    rw [block, writtenStmts]
    exact (prints_blanks hpads).seq
      (.assoc ((prints_line hf hpad s hs hkept.1).seq (prints_block hf hpad l hl hkept.2)))

end

section Definitions

variable {f : Token → Token} (hf : KeepsLegible f)

include hf

theorem prints_body {l : List Stmt} (hl : faithfulStmts l) (hkept : relabelStmts f l = l) :
    Prints (l.forM fun s => do
      Write.emit "  "
      stmt "  " s
      Write.emit (terminator s ++ "\n")) (writtenStmts l) Any Any := by
  induction l with
  | nil => exact .pure
  | cons s l ih =>
    obtain ⟨hs, hrest⟩ : s.faithful ∧ faithfulStmts l := by simpa [faithfulStmts] using hl
    simp only [relabelStmts, List.cons.injEq] at hkept
    exact ((prints_blanks (by decide)).seq (prints_line hf (by decide) s hs hkept.1)).seq
      (ih hrest hkept.2)

theorem prints_fields {l : List VarDef} (hl : l.all VarDef.faithful)
    (hkept : l.map (VarDef.relabel f) = l) :
    Prints (l.forM fun d => do
      Write.emit "  "
      varDef d
      Write.emit ";\n") (fieldMarks l) Any Any := by
  induction l with
  | nil => exact .pure
  | cons d l ih =>
    obtain ⟨hd, hrest⟩ : d.faithful ∧ l.all VarDef.faithful := by simpa using hl
    simp only [List.map_cons, List.cons.injEq] at hkept
    have hend : Prints (Write.emit (";" ++ "\n")) [.sign .semicolon] Any Stops :=
      prints_semicolon (by decide)
    rw [fieldMarks, List.append_cons]
    exact ((prints_blanks (by decide)).seq ((prints_varDef hf hd hkept.1).seq hend)).seq
      (ih hrest hkept.2)

theorem prints_parameters {l : List VarDef} (hl : l.all VarDef.faithful)
    (hkept : l.map (VarDef.relabel f) = l) :
    Prints (Write.separated ", " varDef l) (parameterMarks l) Stops Any := by
  induction l with
  | nil => exact Prints.pure.weaken (fun _ _ => trivial) fun _ => id
  | cons d l ih =>
    obtain ⟨hd, hrest⟩ : d.faithful ∧ l.all VarDef.faithful := by simpa using hl
    simp only [List.map_cons, List.cons.injEq] at hkept
    have hvar := prints_varDef hf hd hkept.1
    cases l with
    | nil =>
      rw [parameterMarks, moreParameterMarks, List.append_nil]
      exact hvar
    | cons d' l => exact hvar.seq (prints_comma.seq (ih hrest hkept.2))

theorem prints_structDef {d : StructDef} (hd : d.faithful) (hkept : d.relabel f = d) :
    Prints (structDef d) d.marks Any Any := by
  obtain ⟨name, fields⟩ := d
  obtain ⟨hname, hfields⟩ : name.kind = .id ∧ fields.all VarDef.faithful := by
    simpa only [StructDef.faithful, Bool.and_eq_true, beq_iff_eq] using hd
  simp only [StructDef.relabel, StructDef.mk.injEq] at hkept
  have hhead := prints_structHead (hf name hkept.1 (by rw [hname]; rfl)) hname
  exact hhead.seq ((prints_fields hf hfields hkept.2).seq prints_lastBrace)

theorem prints_result {type : DataType} (h : type.regular ∨ type.isVoid)
    (harray : type.isArray = false) (hkept : type.relabel f = type) :
    Prints (dataType type) type.marks (fun r => r.head? = some ' ') Any := by
  obtain ⟨isArray, _ | t⟩ := type
  · simp [DataType.regular, DataType.isVoid] at h
  · cases harray
    have hk : t.kind.namesType ∨ t.kind = .voidType := by
      simpa [DataType.regular, DataType.isVoid] using h
    simp only [DataType.relabel, Option.map_some, DataType.mk.injEq, Option.some.injEq,
      true_and] at hkept
    exact prints_returns (hf t hkept (isPart_unquoted (.inr hk)).1) hk

theorem prints_funDef {d : FunDef} (hd : d.faithful) (hkept : d.relabel f = d) :
    Prints (funDef d) d.written Any Any := by
  obtain ⟨returns, name, params, body⟩ := d
  obtain ⟨⟨⟨⟨hreturns, harray⟩, hname⟩, hparams⟩, hbody⟩ : ((((returns.regular ∨ returns.isVoid) ∧
      returns.isArray = false) ∧ name.kind = .id) ∧ params.all VarDef.faithful) ∧
      faithfulStmts body := by
    simpa only [FunDef.faithful, Bool.and_eq_true, Bool.or_eq_true, beq_iff_eq, Bool.not_eq_true']
      using hd
  simp only [FunDef.relabel, FunDef.mk.injEq] at hkept
  have hresult := prints_result hf hreturns harray hkept.1
  have hhead : Prints (Write.emit (" " ++ name.lexeme ++ "(")) [.held name, .sign .lparen] Any
      fun r => r.head? = some ' ' :=
    prints_callee (hf name hkept.2.1 (by rw [hname]; rfl)) hname (by decide) fun r => by simp
  exact hresult.seq (prints_guarded hhead (prints_parameters hf hparams hkept.2.2.1)
    (prints_body hf hbody hkept.2.2.2) prints_lastBrace)

/-- A program of which the printer loses nothing is printed to its marks. -/
theorem prints_program {p : Program} (hp : p.faithful) (hkept : p.relabel f = p) :
    Prints (program p) p.written Any Any := by
  obtain ⟨structs, functions⟩ := p
  obtain ⟨hstructs, hfunctions⟩ : structs.all StructDef.faithful ∧
      functions.all FunDef.faithful := by
    simpa only [Program.faithful, Bool.and_eq_true] using hp
  simp only [Program.relabel, Program.mk.injEq] at hkept
  refine Prints.seq (.forM fun d hd => ?_) (.forM fun d hd => ?_)
  · have hd' : d.relabel f = d := List.map_inj_left.1 (hkept.1.trans (List.map_id _).symm) d hd
    exact (prints_structDef hf (List.all_eq_true.1 hstructs d hd) hd').seq_nil prints_newline
  · have hd' : d.relabel f = d := List.map_inj_left.1 (hkept.2.trans (List.map_id _).symm) d hd
    exact (prints_funDef hf (List.all_eq_true.1 hfunctions d hd) hd').seq_nil prints_newline

end Definitions

end StackLang.Printer
