import StackLang.Proofs.Entry
import StackLang.Proofs.Reprinting

namespace StackLang

open Text Generator Machine

def spoken (s : List Char) : List Char := if trim s = [] then [' '] else trim s

theorem trim_eq_self_iff {s : List Char} : trim s = s ↔
    (∀ c ∈ s.head?, isBlank c = false) ∧ ∀ c ∈ s.getLast?, isBlank c = false := by
  constructor
  · intro h
    rw [← h]
    exact ⟨Lexer.isBlank_head?_trim s, Lexer.isBlank_getLast?_trim s⟩
  · intro h
    exact Lexer.trim_eq_self h.1 h.2

theorem spoken_eq_self_iff {s : List Char} : spoken s = s ↔
    s = [' '] ∨ s.head?.any (!isBlank ·) ∧ s.getLast?.any (!isBlank ·) := by
  have hends : trim s = s ∧ s ≠ [] ↔ s.head?.any (!isBlank ·) ∧ s.getLast?.any (!isBlank ·) := by
    rw [trim_eq_self_iff]
    cases s with
    | nil => simp
    | cons c s => simp [List.getLast?_cons]
  rw [← hends, spoken]
  by_cases htrim : trim s = []
  · rw [if_pos htrim, htrim]
    constructor
    · intro h
      exact .inl h.symm
    · rintro (h | ⟨h, hne⟩)
      · exact h.symm
      · exact (hne h.symm).elim
  · rw [if_neg htrim]
    constructor
    · intro h
      exact .inr ⟨h, fun hs => htrim (h.trans hs)⟩
    · rintro (rfl | h)
      · exact (htrim rfl).elim
      · exact h.1

namespace Generator

theorem unescape_eq_self (escape replacement : Char) {s : List Char} (h : '\\' ∉ s) :
    unescape escape replacement s = s := by
  induction s with
  | nil => rfl
  | cons c s ih =>
    have hc : c ≠ '\\' := fun hc => h (hc ▸ List.mem_cons_self)
    have hs := ih fun hs => h (List.mem_cons_of_mem c hs)
    unfold unescape
    split
    · rename_i heq
      exact (hc (List.cons.inj heq).1).elim
    · rename_i heq
      cases heq
      rw [hs]
    · rename_i heq
      cases heq

theorem literalText_trim {s : List Char} (h : '\\' ∉ s) :
    literalText (String.ofList (trim s)) = String.ofList (spoken s) := by
  have htrim : '\\' ∉ trim s := fun hmem =>
    h ((List.dropWhile_sublist _).subset ((Lexer.trim_begins s).subset hmem))
  rw [literalText, spoken, String.toList_ofList, unescape_eq_self 'n' '\n' htrim,
    unescape_eq_self 't' '\t' htrim]
  by_cases hnil : trim s = []
  · rw [if_pos hnil, hnil]
    rfl
  · rw [if_neg hnil, if_neg]
    simpa using hnil

end Generator

def uttering (literal : String) : String := "void main() \x7bprint(" ++ literal ++ ");\x7d"

def utteringTokens (kind : Token.Kind) (w : String) : List Token :=
  [⟨.voidType, "void", 0, 0⟩, ⟨.id, "main", 0, 0⟩, ⟨.lparen, "(", 0, 0⟩, ⟨.rparen, ")", 0, 0⟩,
    ⟨.lbrace, "\x7b", 0, 0⟩, ⟨.id, "print", 0, 0⟩, ⟨.lparen, "(", 0, 0⟩, ⟨kind, w, 0, 0⟩,
    ⟨.rparen, ")", 0, 0⟩, ⟨.semicolon, ";", 0, 0⟩, ⟨.rbrace, "\x7d", 0, 0⟩]

theorem toList_uttering (literal : String) : (uttering literal).toList =
    "void".toList ++ ' ' :: ("main".toList ++ '(' :: ')' :: ' ' :: '\x7b' :: ("print".toList ++
      '(' :: (literal.toList ++ [')', ';', '\x7d']))) := by
  have hfront : "void main() \x7bprint(".toList = "void".toList ++ ' ' :: ("main".toList ++
      '(' :: ')' :: ' ' :: '\x7b' :: ("print".toList ++ ['('])) := by decide +kernel
  have hback : ");\x7d".toList = [')', ';', '\x7d'] := by decide +kernel
  unfold uttering
  rw [String.toList_append, String.toList_append, hfront, hback]
  simp only [List.append_assoc, List.cons_append, List.nil_append]

open Lexer in
theorem lexes_uttering {literal w : String} {kind : Token.Kind} (hkind : kind ≠ .eos)
    (h : ∀ r, Takes (literal.toList ++ ')' :: r) kind w (')' :: r)) :
    Lexes (uttering literal).toList (utteringTokens kind w) := by
  have hends {c : Char} {r : List Char} (hc : inWord c = false) : EndsWord (c :: r) := by
    rintro _ ⟨⟩
    exact hc
  rw [toList_uttering]
  apply Lexes.cons (takes_word (w := "void") (by decide) (hends rfl)) (by decide)
  apply Lexes.padded _ (.cons rfl (.refl _))
  apply Lexes.cons (takes_word (w := "main") (by decide) (hends rfl)) (by decide)
  apply Lexes.cons (takes_symbol rfl) (by decide)
  apply Lexes.cons (takes_rparen (by rintro _ ⟨⟩; rfl)) (by decide)
  apply Lexes.padded _ (.cons rfl (.refl _))
  apply Lexes.cons (takes_symbol rfl) (by decide)
  apply Lexes.cons (takes_word (w := "print") (by decide) (hends rfl)) (by decide)
  apply Lexes.cons (takes_symbol rfl) (by decide)
  apply Lexes.cons (h _) hkind
  apply Lexes.cons (takes_rparen (by rintro _ ⟨⟩; rfl)) (by decide)
  apply Lexes.cons takes_semicolon (by decide)
  apply Lexes.cons (takes_symbol rfl) (by decide)
  exact .nil rfl

def placed (place : Nat → Nat × Nat) : List Token → List Token
  | [] => []
  | t :: l => ⟨t.kind, t.lexeme, (place 0).1, (place 0).2⟩ :: placed (fun i => place (i + 1)) l

theorem exists_placed {ts l : List Token} (h : ts.map Token.unplaced = l.map Token.unplaced) :
    ∃ place, ts = placed place l := by
  induction l generalizing ts with
  | nil => exact ⟨fun _ => (0, 0), List.map_eq_nil_iff.1 h⟩
  | cons t l ih =>
    obtain ⟨u, ts, rfl, hu, hts⟩ := List.map_eq_cons_iff.1 h
    obtain ⟨place, rfl⟩ := ih hts
    injection hu with hkind hlexeme
    refine ⟨fun i => i.casesOn (u.line, u.column) place, ?_⟩
    rw [placed, ← hkind, ← hlexeme]
    rfl

/-- The tree of a source that prints a literal, with the places of the tokens. -/
def utteringTree (kind : Token.Kind) (w : String) (place : Nat → Nat × Nat) : Program :=
  let token (i : Nat) (kind : Token.Kind) (lexeme : String) : Token :=
    ⟨kind, lexeme, (place i).1, (place i).2⟩
  ⟨[], [⟨⟨false, some (token 0 .voidType "void")⟩, token 1 .id "main", [],
    [.call (token 5 .id "print") (some [.operand (.literal (token 7 kind w))])]⟩]⟩

theorem parse_uttering {literal w : String} {kind : Token.Kind} (hkind : kind.isLiteral)
    (h : ∀ r, Lexer.Takes (literal.toList ++ ')' :: r) kind w (')' :: r)) : ∃ place,
    Parser.parse (.ofText (uttering literal)) = .ok (utteringTree kind w place) := by
  have heos : kind ≠ .eos := by
    rintro rfl
    cases hkind
  have hcomment : kind ≠ .comment := by
    rintro rfl
    cases hkind
  obtain ⟨⟨line, column, hend⟩, hahead⟩ := Feed.ahead_of_lexes (lexes_uttering heos h)
    (by simp [utteringTokens, hcomment])
  obtain ⟨place, hplace⟩ := exists_placed hahead
  -- a tree is read from its own tokens, so they are put at the places where the lexer has them
  have hheld (t : Token) : (Mark.held t).fits t := beq_self_eq_true t
  have hfits : Fits (utteringTree kind w place).marks
      ((Feed.ofSource (.ofText (uttering literal))).ahead.map Reading.token) := by
    rw [hplace]
    exact .cons (hheld _) <| .cons (hheld _) <| .cons rfl <| .cons rfl <| .cons rfl <|
      .cons (hheld _) <| .cons rfl <| .cons (hheld _) <| .cons rfl <| .cons rfl <| .cons rfl .nil
  have hregular : (utteringTree kind w place).regular := by
    cases kind <;> first | rfl | cases hkind
  obtain ⟨s', hs'⟩ := Parser.program_reads hregular hend hfits
  refine ⟨place, ?_⟩
  rw [Parser.parse, EStateM.run, hs']

def saying (s : String) : String := "void main() \x7bprint(\"" ++ s ++ "\");\x7d"

theorem toList_saying (s : String) :
    (saying s).toList = (uttering ("\"" ++ s ++ "\"")).toList := by
  have hfront : "void main() \x7bprint(\"".toList = "void".toList ++ ' ' :: ("main".toList ++
      '(' :: ')' :: ' ' :: '\x7b' :: ("print".toList ++ ['(', '"'])) := by decide +kernel
  have hback : "\");\x7d".toList = ['"', ')', ';', '\x7d'] := by decide +kernel
  have hquote : "\"".toList = ['"'] := by decide +kernel
  rw [toList_uttering]
  unfold saying
  rw [String.toList_append, String.toList_append, hfront, hback]
  simp only [String.toList_append, hquote, List.append_assoc, List.cons_append, List.nil_append]

theorem saying_eq (s : String) : saying s = uttering ("\"" ++ s ++ "\"") :=
  String.toList_inj.1 (toList_saying s)

theorem parse_saying {s : String} (hquote : '"' ∉ s.toList) : ∃ place,
    Parser.parse (.ofText (saying s)) =
      .ok (utteringTree .stringVal (String.ofList (trim s.toList)) place) := by
  rw [saying_eq]
  refine parse_uttering rfl fun r => ?_
  have hquoted : ("\"" ++ s ++ "\"").toList ++ ')' :: r = '"' :: (s.toList ++ '"' :: ')' :: r) := by
    simp [String.toList_append]
  rw [hquoted]
  exact Lexer.takes_quoted hquote

theorem check_utteringTree (w : String) (place : Nat → Nat × Nat) :
    (Compiler.check (utteringTree .stringVal w place)).2 = none := rfl

/-- The main function of a program that prints a text. -/
def printer (w : String) : Template :=
  ⟨"main", 0, #[.plain (.push (.text w)), .plain .write, .plain (.push .null), .plain .ret]⟩

theorem generate_utteringTree (w : String) (place : Nat → Nat × Nat) :
    (Compiler.generate (utteringTree .stringVal w place)).2 = none ∧
      (Compiler.generate (utteringTree .stringVal w place)).1.image.get? "main" =
        some (printer (literalText w)) :=
  ⟨rfl, rfl⟩

theorem compile_saying (checked : Bool) {s : String} (hquote : '"' ∉ s.toList)
    (hescape : '\\' ∉ s.toList) : ∃ g, Compiler.compile checked (.ofText (saying s)) = (g, none) ∧
      g.image.get? "main" = some (printer (String.ofList (spoken s.toList))) := by
  obtain ⟨place, hparse⟩ := parse_saying hquote
  obtain ⟨hdone, hmain⟩ := generate_utteringTree (String.ofList (trim s.toList)) place
  have hcheck : (if checked then
      (Compiler.check (utteringTree .stringVal (String.ofList (trim s.toList)) place)).2 else none) = none := by
    rw [check_utteringTree, ite_self]
  rw [literalText_trim hescape] at hmain
  refine ⟨_, ?_, hmain⟩
  rw [Compiler.compile, hparse]
  simp only [hcheck]
  rw [← hdone]

theorem run_printer {image : Image} {w : String} (h : image.get? "main" = some (printer w))
    (fuel : Nat) (input : List Char) : run image false (fuel + 5) { Machine.empty with input } =
      .ok () { Machine.empty with input, output := w } := by
  rw [run_eq h]
  rfl

/-- The program that prints a text in quotes runs to its end. It writes the text without the blanks
at its ends, or a space if nothing else is in it, whether the program was checked or not. -/
theorem execute_saying (checked : Bool) (s : String) (hquote : '"' ∉ s.toList)
    (hescape : '\\' ∉ s.toList) (input : List Char) :
    Compiler.execute checked false (.ofText (saying s)) input =
        ({ Machine.empty with input, output := String.ofList (spoken s.toList) }, none) ∧
      (String.ofList (spoken s.toList) = s ↔
        s = " " ∨ s.toList.head?.any (!isBlank ·) ∧ s.toList.getLast?.any (!isBlank ·)) := by
  constructor
  · obtain ⟨g, hcompile, hmain⟩ := compile_saying checked hquote hescape
    -- five steps are taken, and there is patience for more
    have hpatience : Compiler.patience = 999999999999995 + 5 := by decide +kernel
    simp only [Compiler.execute, hcompile, Compiler.run, hpatience]
    exact congrArg outcome (run_printer hmain _ input)
  · have hspace : s = " " ↔ s.toList = [' '] := by
      rw [← String.toList_inj]
      rfl
    have hself : String.ofList (spoken s.toList) = s ↔ spoken s.toList = s.toList := by
      rw [← String.toList_inj, String.toList_ofList]
    rw [hself, hspace]
    exact spoken_eq_self_iff

theorem execute_saying_padded : '"' ∉ " a\tb\n".toList ∧ '\\' ∉ " a\tb\n".toList ∧
    (Compiler.execute true false (.ofText (saying " a\tb\n")) []).1.output = "a\tb" := by
  have hquote : '"' ∉ " a\tb\n".toList := by decide
  have hescape : '\\' ∉ " a\tb\n".toList := by decide
  have hspoken : String.ofList (spoken " a\tb\n".toList) = "a\tb" := by decide +kernel
  refine ⟨hquote, hescape, ?_⟩
  rw [(execute_saying true " a\tb\n" hquote hescape []).1, hspoken]

/-- Blanks at the start of a text are lost. -/
theorem execute_saying_indented : ¬∀ s : String, '"' ∉ s.toList → '\\' ∉ s.toList →
    (Compiler.execute true false (.ofText (saying s)) []).1.output = s := by
  intro h
  have hindented := h " a" (by decide) (by decide)
  revert hindented
  decide +kernel

end StackLang
