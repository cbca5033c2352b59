import Mathlib.Data.List.Chain
import Mathlib.Data.List.Infix
import StackLang.Proofs.Scanning

namespace StackLang

open Text

namespace Token

/-- The signs and operators, with the kind of token they make. -/
def signs : List (Kind × String) :=
  [(.dot, "."), (.comma, ","), (.semicolon, ";"), (.lparen, "("), (.rparen, ")"), (.lbracket, "["),
    (.rbracket, "]"), (.lbrace, "\x7b"), (.rbrace, "\x7d"), (.plus, "+"), (.minus, "-"),
    (.times, "*"), (.divide, "/"), (.assign, "="), (.equal, "=="), (.less, "<"), (.lessEq, "<="),
    (.greater, ">"), (.greaterEq, ">="), (.notEqual, "!=")]

/-- The tokens that can be written down: reserved words, identifiers that no reserved word is the
beginning of, numerals without leading zero, texts without quotes or outer blanks, and signs. -/
inductive Spellable : Kind → List Char → Prop
  | keyword {k : Kind} {w : List Char} : reserved? (String.ofList w) = some k → Spellable k w
  | identifier {c : Char} {w : List Char} : c.isAlpha → (∀ d ∈ w, d.isAlphanum ∨ d = '_') →
      (∀ u, u <+: c :: w → reserved? (String.ofList u) = none) → Spellable .id (c :: w)
  | whole {ds : List Char} : Lexer.Digits ds → Spellable .intVal ds
  | decimal {ds fs : List Char} : Lexer.Digits ds → fs ≠ [] → (∀ d ∈ fs, isDigit d) →
      Spellable .doubleVal (ds ++ '.' :: fs)
  | text {s : List Char} : '"' ∉ s → (∀ c ∈ s.head?, isBlank c = false) →
      (∀ c ∈ s.getLast?, isBlank c = false) → Spellable .stringVal s
  | sign {k : Kind} {w : String} : (k, w) ∈ signs → Spellable k w.toList

def isNumber (t : Token) : Bool := t.kind == .intVal || t.kind == .doubleVal

def text (t : Token) : String :=
  if t.kind = .stringVal then "\"" ++ t.lexeme ++ "\"" else t.lexeme

def spelling (k : Kind) (s : List Char) : List Char :=
  if k = .stringVal then '"' :: (s ++ ['"']) else s

theorem toList_text (t : Token) : t.text.toList = spelling t.kind t.lexeme.toList := by
  rw [text, spelling]
  split
  · simp
  · rfl

theorem kind_of_reserved {k : Kind} {w : String} (h : reserved? w = some k) :
    k ≠ .stringVal ∧ k ≠ .eos := by
  unfold reserved? at h
  split at h <;> cases h <;> decide

theorem Spellable.ne_eos {k : Kind} {s : List Char} (h : Spellable k s) : k ≠ .eos := by
  cases h with
  | keyword h => exact (kind_of_reserved h).2
  | sign h =>
    rintro rfl
    revert h
    simp [signs]
  | _ => decide

end Token

/-- Tokens written down with single spaces between them. -/
def spaced (l : List Token) : String := " ".intercalate (l.map Token.text)

namespace Lexer

variable {r : List Char} {k : Token.Kind} {w : String}

/-- The end of the text, a space or a sign that no token but a text goes on with. -/
def AtBound (r : List Char) : Prop := ∀ c ∈ r.head?, c ∈ [' ', ';', ')', ',']

theorem atBound_cons {c : Char} (h : c ∈ [' ', ';', ')', ',']) : AtBound (c :: r) := by
  rintro d ⟨⟩
  exact h

theorem wholeWord_of_reserved (h : Token.reserved? w = some k) :
    w = "elseif" ∨ wholeWord w.toList := by
  unfold Token.reserved? at h
  split at h <;> first | exact .inl rfl | exact .inr (by decide +kernel) | cases h

theorem isAlpha_bounds {c : Char} (h : c.isAlpha) :
    (65 ≤ c.toNat ∧ c.toNat ≤ 90) ∨ (97 ≤ c.toNat ∧ c.toNat ≤ 122) := by
  obtain hupper | hlower := Bool.or_eq_true_iff.1 h
  · exact .inl (of_decide_eq_true hupper)
  · obtain ⟨hle, hge⟩ := Bool.and_eq_true_iff.1 hlower
    exact .inr ⟨of_decide_eq_true hle, of_decide_eq_true hge⟩

theorem isLetter_of_isAlpha {c : Char} (h : c.isAlpha) : isLetter c := by
  have hc := isAlpha_bounds h
  rw [isLetter, if_pos (show c.toNat < 0x80 by omega), h]

theorem isDigit_of_isAlpha {c : Char} (h : c.isAlpha) : isDigit c = false := by
  have hc := isAlpha_bounds h
  rw [isDigit, if_pos (show c.toNat < 0x80 by omega), Char.isDigit, Bool.and_eq_false_iff,
    decide_eq_false_iff_not, decide_eq_false_iff_not]
  refine .inr fun hle => ?_
  have hhi : c.toNat ≤ 57 := hle
  omega

theorem isBlank_of_isAlpha {c : Char} (h : c.isAlpha) : isBlank c = false := by
  have hc := isAlpha_bounds h
  have hspace : (c.toNat == 0x20) = false := by
    rw [beq_eq_false_iff_ne]
    omega
  rw [isBlank, if_pos (show c.toNat < 0x80 by omega), hspace]
  simp only [Bool.false_or, Bool.or_eq_false_iff, Bool.and_eq_false_iff, decide_eq_false_iff_not]
  omega

theorem inWord_of_isAlphanum {c : Char} (h : c.isAlphanum ∨ c = '_') : inWord c := by
  obtain h | rfl := h
  · obtain h | h := Bool.or_eq_true_iff.1 h
    · exact inWord_of_isLetter (isLetter_of_isAlpha h)
    · have hlt : c.toNat < 0x80 := by
        have hhi : c.toNat ≤ 57 := of_decide_eq_true (Bool.and_eq_true_iff.1 h).2
        omega
      rw [inWord, isWordChar, isNumeral, if_pos hlt, h]
      simp
  · rfl

theorem trim_eq_self {s : List Char} (hhead : ∀ c ∈ s.head?, isBlank c = false)
    (hlast : ∀ c ∈ s.getLast?, isBlank c = false) : trim s = s := by
  have hdrop {s : List Char} (h : ∀ c ∈ s.head?, isBlank c = false) : s.dropWhile isBlank = s := by
    cases s with
    | nil => rfl
    | cons c s => rw [List.dropWhile_cons_of_neg (by simp [h c rfl])]
  rw [trim, hdrop hhead, hdrop (by simpa using hlast), List.reverse_reverse]

theorem isBlank_head?_dropWhile (s : List Char) :
    ∀ c ∈ (s.dropWhile isBlank).head?, isBlank c = false := by
  intro c hc
  have hnot := List.head?_dropWhile_not isBlank s
  rw [hc] at hnot
  simpa using hnot

theorem trim_begins (s : List Char) : trim s <+: s.dropWhile isBlank := by
  rw [trim, ← List.reverse_suffix, List.reverse_reverse]
  exact List.dropWhile_suffix _

theorem isBlank_head?_trim (s : List Char) : ∀ c ∈ (trim s).head?, isBlank c = false := by
  intro c hc
  obtain ⟨u, hu⟩ := trim_begins s
  apply isBlank_head?_dropWhile s c
  rw [← hu, List.head?_append, Option.mem_def.1 hc]
  rfl

theorem isBlank_getLast?_trim (s : List Char) : ∀ c ∈ (trim s).getLast?, isBlank c = false := by
  intro c hc
  rw [trim, List.getLast?_reverse] at hc
  exact isBlank_head?_dropWhile _ c hc

theorem takes_sign (h : (k, w) ∈ Token.signs) (hr : AtBound r)
    (hparen : k = .rparen → ∀ d ∈ (pastBlank r).head?, isDigit d = false) :
    Takes (w.toList ++ r) k w r := by
  have hne {c : Char} (hc : c ∉ [' ', ';', ')', ',']) : r.head? ≠ some c := fun h => hc (hr c h)
  simp only [Token.signs, List.mem_cons, Prod.mk.injEq, List.not_mem_nil, or_false] at h
  obtain ⟨rfl, rfl⟩ | ⟨rfl, rfl⟩ | ⟨rfl, rfl⟩ | ⟨rfl, rfl⟩ | ⟨rfl, rfl⟩ | ⟨rfl, rfl⟩ | ⟨rfl, rfl⟩ |
    ⟨rfl, rfl⟩ | ⟨rfl, rfl⟩ | ⟨rfl, rfl⟩ | ⟨rfl, rfl⟩ | ⟨rfl, rfl⟩ | ⟨rfl, rfl⟩ | ⟨rfl, rfl⟩ |
    ⟨rfl, rfl⟩ | ⟨rfl, rfl⟩ | ⟨rfl, rfl⟩ | ⟨rfl, rfl⟩ | ⟨rfl, rfl⟩ | ⟨rfl, rfl⟩ := h
  case inr.inr.inl => exact takes_semicolon
  case inr.inr.inr.inr.inl => exact takes_rparen (hparen rfl)
  all_goals first
    | exact takes_symbol rfl
    | exact takes_divide (hne (by decide))
    | exact takes_assign (hne (by decide))
    | exact takes_equal
    | exact takes_less (hne (by decide))
    | exact takes_lessEq
    | exact takes_greater (hne (by decide))
    | exact takes_greaterEq
    | exact takes_notEqual

theorem endsWord_of_atBound (hr : AtBound r) : EndsWord r := by
  intro c hc
  have hout : [' ', ';', ')', ','].all fun c => !inWord c := by decide
  simpa using List.all_eq_true.1 hout c (hr c hc)

theorem wholeWord_identifier {c : Char} {cs : List Char} (hc : c.isAlpha)
    (hcs : ∀ d ∈ cs, d.isAlphanum ∨ d = '_')
    (hfree : ∀ u, u <+: c :: cs → Token.reserved? (String.ofList u) = none) :
    wholeWord (c :: cs) := by
  simp only [wholeWord, isBlank_of_isAlpha hc, isDigit_of_isAlpha hc, isLetter_of_isAlpha hc,
    Bool.not_false, Bool.and_true, Bool.and_eq_true, List.all_eq_true, List.mem_range, beq_iff_eq,
    true_and]
  refine ⟨fun d hd => inWord_of_isAlphanum (hcs d hd), fun i _ => hfree _ ?_⟩
  exact List.cons_prefix_cons.2 ⟨rfl, List.take_prefix i cs⟩

theorem takes_spellable {s : List Char} (h : Token.Spellable k s) (hr : AtBound r)
    (hparen : k = .rparen → ∀ d ∈ (pastBlank r).head?, isDigit d = false) :
    Takes (Token.spelling k s ++ r) k (String.ofList s) r := by
  rw [Token.spelling]
  cases h with
  | keyword h =>
    rw [if_neg (Token.kind_of_reserved h).1]
    obtain heq | hword := wholeWord_of_reserved h
    · -- This word goes on behind another one.
      rw [heq] at h ⊢
      cases h
      obtain rfl : s = ['e', 'l', 's', 'e', 'i', 'f'] := by simpa using congrArg String.toList heq
      exact takes_elseif
    · have htakes := takes_word hword (endsWord_of_atBound hr)
      rwa [h, String.toList_ofList] at htakes
  | @identifier c w hc hw hfree =>
    have hword : wholeWord (String.ofList (c :: w)).toList := by
      rw [String.toList_ofList]
      exact wholeWord_identifier hc hw hfree
    have htakes := takes_word hword (endsWord_of_atBound hr)
    rwa [hfree _ List.prefix_rfl, String.toList_ofList] at htakes
  | whole h =>
    have hout : [' ', ';', ')', ','].all fun c => !inNumeral c && c != '.' := by decide
    refine takes_whole h fun c hc => ?_
    simpa using List.all_eq_true.1 hout c (hr c hc)
  | @decimal ds fs h hne hfs =>
    have hout : [' ', ';', ')', ','].all fun c => !isDigit c := by decide
    have htakes := takes_decimal h hne hfs (r := r) fun c hc => by
      simpa using List.all_eq_true.1 hout c (hr c hc)
    rwa [← List.cons_append, ← List.append_assoc] at htakes
  | text hquote hhead hlast =>
    have htakes := takes_quoted hquote (r := r)
    rw [trim_eq_self hhead hlast] at htakes
    simpa using htakes
  | sign h =>
    have hk : k ≠ .stringVal := by
      rintro rfl
      revert h
      simp [Token.signs]
    rw [if_neg hk, String.ofList_toList]
    exact takes_sign h hr hparen

theorem isDigit_head_spelling {s : List Char} (h : Token.Spellable k s) (hwhole : k ≠ .intVal)
    (hdecimal : k ≠ .doubleVal) :
    ∀ d ∈ (Token.spelling k s ++ r).head?, isDigit d = false := by
  rw [Token.spelling]
  cases h with
  | keyword h =>
    rw [if_neg (Token.kind_of_reserved h).1]
    obtain heq | hword := wholeWord_of_reserved h
    · obtain rfl : s = ['e', 'l', 's', 'e', 'i', 'f'] := by simpa using congrArg String.toList heq
      rintro d ⟨⟩
      rfl
    · rw [String.toList_ofList] at hword
      cases s with
      | nil => cases hword
      | cons c s =>
        rintro d ⟨⟩
        simp only [wholeWord, Bool.and_eq_true, Bool.not_eq_true'] at hword
        exact hword.1.1.1.2
  | identifier hc hw hfree =>
    rintro d ⟨⟩
    exact isDigit_of_isAlpha hc
  | whole => exact absurd rfl hwhole
  | decimal => exact absurd rfl hdecimal
  | text =>
    rintro d ⟨⟩
    rfl
  | @sign k w h =>
    have hsigns : ∀ x ∈ Token.signs, x.1 ≠ .stringVal ∧ ∃ c u, x.2.toList = c :: u ∧
        isDigit c = false := by
      simp [Token.signs, isDigit]
    obtain ⟨hk, c, u, hw, hc⟩ := hsigns _ h
    rw [if_neg hk, hw]
    rintro d ⟨⟩
    exact hc

theorem toList_spaced_cons_cons (t u : Token) (l : List Token) :
    (spaced (t :: u :: l)).toList = t.text.toList ++ ' ' :: (spaced (u :: l)).toList := by
  simp [spaced, String.intercalate_cons_cons]

theorem toList_spaced_cons (t : Token) (l : List Token) :
    ∃ r, (spaced (t :: l)).toList = t.text.toList ++ r := by
  cases l with
  | nil => exact ⟨[], by simp [spaced]⟩
  | cons u l => exact ⟨_, toList_spaced_cons_cons t u l⟩

theorem lexes_spaced (l : List Token) (hl : ∀ t ∈ l, Token.Spellable t.kind t.lexeme.toList)
    (hchain : l.IsChain fun t u => t.kind = .rparen → u.isNumber = false) :
    Lexes (spaced l).toList l := by
  induction l with
  | nil => exact .nil rfl
  | cons t l ih =>
    have ht := hl t List.mem_cons_self
    have htail := ih (fun u hu => hl u (List.mem_cons_of_mem t hu)) hchain.tail
    have htakes {r : List Char} (hr : AtBound r)
        (hparen : t.kind = .rparen → ∀ d ∈ (pastBlank r).head?, isDigit d = false) :
        Takes (t.text.toList ++ r) t.kind t.lexeme r := by
      have h := takes_spellable ht hr hparen
      rwa [String.ofList_toList, ← Token.toList_text] at h
    cases l with
    | nil =>
      have hone : (spaced [t]).toList = t.text.toList ++ [] := by simp [spaced]
      rw [hone]
      exact .cons (htakes (by simp [AtBound]) (by simp [pastBlank])) ht.ne_eos (.nil rfl)
    | cons u l =>
      rw [toList_spaced_cons_cons]
      refine .cons (htakes (by simp [AtBound]) fun hk => ?_) ht.ne_eos
        (htail.padded (.cons rfl (.refl _)))
      have hnumber : u.isNumber = false := (List.isChain_cons_cons.1 hchain).1 hk
      simp only [Token.isNumber, Bool.or_eq_false_iff, beq_eq_false_iff_ne] at hnumber
      obtain ⟨r, hr⟩ := toList_spaced_cons u l
      rw [pastBlank, if_pos (by rfl), hr, Token.toList_text]
      exact isDigit_head_spelling (hl u (by simp)) hnumber.1 hnumber.2

end Lexer

/-- Tokens that are written down with single spaces between them are read as the same tokens and then
the end, provided that no number follows a closing parenthesis directly. -/
theorem tokens_spaced (l : List Token) (hl : ∀ t ∈ l, Token.Spellable t.kind t.lexeme.toList)
    (hchain : l.IsChain fun t u => t.kind = .rparen → u.isNumber = false) :
    let listing := (Lexer.ofSource (.ofText (spaced l))).tokens
    listing.failure = none ∧
      listing.tokens.map Token.unplaced = l.map Token.unplaced ++ [⟨.eos, "", 0, 0⟩] :=
  Lexer.tokens_of_lexes (Lexer.lexes_spaced l hl hchain)

theorem tokens_spaced_comparison :
    let l : List Token := [⟨.whileKw, "while", 0, 0⟩, ⟨.lparen, "(", 0, 0⟩, ⟨.id, "x_1", 0, 0⟩,
      ⟨.lessEq, "<=", 0, 0⟩, ⟨.doubleVal, "10.5", 0, 0⟩, ⟨.rparen, ")", 0, 0⟩,
      ⟨.stringVal, "a b", 0, 0⟩]
    (∀ t ∈ l, Token.Spellable t.kind t.lexeme.toList) ∧
      l.IsChain (fun t u => t.kind = .rparen → u.isNumber = false) ∧
      (Lexer.ofSource (.ofText "while ( x_1 <= 10.5 ) \"a b\"")).tokens.tokens.map Token.unplaced =
        l ++ [⟨.eos, "", 0, 0⟩] := by
  intro l
  have hwritten : ∀ t ∈ l, Token.Spellable t.kind t.lexeme.toList := by
    simp only [l, List.forall_mem_cons, List.not_mem_nil, false_implies, implies_true, and_true]
    refine ⟨.keyword rfl, .sign (by decide), ?_, .sign (by decide), ?_, .sign (by decide), ?_⟩
    · refine .identifier (c := 'x') (w := ['_', '1']) rfl (by simp) fun u hu => ?_
      have hnone : ∀ u ∈ ['x', '_', '1'].inits, Token.reserved? (String.ofList u) = none := by decide
      exact hnone u ((List.mem_inits _ _).2 hu)
    · have hdecimal : Token.Spellable .doubleVal (['1', '0'] ++ '.' :: ['5']) :=
        .decimal ⟨by decide, List.all_eq_true.1 (by decide), by decide⟩ (by decide)
          (List.all_eq_true.1 (by decide))
      exact hdecimal
    · exact .text (s := ['a', ' ', 'b']) (by decide) (by simp; decide) (by simp; decide)
  have hchain : l.IsChain fun t u => t.kind = .rparen → u.isNumber = false := by
    simp only [l, List.isChain_cons_cons, List.isChain_singleton, and_true]
    decide
  exact ⟨hwritten, hchain, (tokens_spaced l hwritten hchain).2⟩

end StackLang
