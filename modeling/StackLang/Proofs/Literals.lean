import StackLang.Proofs.Generation
import StackLang.Proofs.Quotation
import StackLang.Proofs.Retention
import StackLang.Proofs.StraightLine

namespace StackLang

def Readable (l : List Token) : Prop := ∀ t ∈ l, t.Converts

namespace Generator

def Deciphers {α : Type} (x : Gen α) : Prop := ∀ g g', x g ≠ .error (.crash .badNumeral) g'

namespace Deciphers

variable {α β : Type}

protected theorem pure (a : α) : Deciphers (pure a) := by
  intro g g' h
  cases h

protected theorem throw {e : Failure} (he : e ≠ .crash .badNumeral) : Deciphers (throw e : Gen α) := by
  intro g g' h
  cases h
  exact he rfl

theorem bind {x : Gen α} {f : α → Gen β} (hx : Deciphers x) (hf : ∀ a, Deciphers (f a)) :
    Deciphers (x >>= f) := by
  intro g g' h
  simp only [Bind.bind, EStateM.bind] at h
  cases hx' : x g with
  | ok a g₁ =>
    rw [hx'] at h
    exact hf a g₁ g' h
  | error e g₁ =>
    rw [hx'] at h
    cases h
    exact hx g _ hx'

protected theorem get : Deciphers (get : Gen Generator) := by
  intro g g' h
  cases h

protected theorem modify (f : Generator → Generator) : Deciphers (modify f : Gen Unit) := by
  intro g g' h
  cases h

theorem template : Deciphers Generator.template :=
  .bind .get fun g => by
    cases g.current with
    | some t => exact .pure t
    | none => exact .throw (by simp)

theorem onCode (f : Array Instr → Array Instr) : Deciphers (Generator.onCode f) := .modify _

theorem emit (op : Op) : Deciphers (Generator.emit op) := template.bind fun _ => onCode _

theorem emitConversion (op : Op) : Deciphers (Generator.emitConversion op) := by
  unfold Generator.emitConversion
  split
  · exact (onCode _).bind fun _ => emit op
  · exact emit op

theorem literal {t : Token} (h : t.Converts) : Deciphers (literal t) := by
  have hvalue : Deciphers (literalValue t) := by
    unfold literalValue
    split
    · rename_i hkind
      cases hint : Numeral.int? t.lexeme with
      | none =>
        have hsome := h.int hkind
        rw [hint] at hsome
        cases hsome
      | some i => exact .pure _
    · rename_i hkind
      cases hdouble : Numeral.double? t.lexeme with
      | none =>
        have hsome := h.double hkind
        rw [hdouble] at hsome
        cases hsome
      | some d => exact .pure _
    · exact .pure _
    · split <;> exact .pure _
  refine hvalue.bind fun o => ?_
  cases o with
  | some v => exact emit _
  | none => exact .pure ()

theorem compositional : Compositional Deciphers 0 Token.Converts where
  pure := .pure
  throw := .throw
  bind := .bind
  get := .get
  onOffsets _ := .modify _
  emit _ := emit _
  emitConversion _ := emitConversion _
  here hf := .bind (template.bind fun _ => .pure _) fun k => hf k (Nat.zero_le k)
  patch _ _ := onCode _
  literal := literal

theorem program {p : Program} (h : Readable p.tokens) : Deciphers (program p) :=
  compositional.program p h (fun _ => .modify _) (fun _ _ => .modify _)
    (template.bind fun _ => .modify _)

end Deciphers

theorem literal_fails_iff (t : Token) (g : Generator) :
    (∃ g', literal t g = .error (.crash .badNumeral) g') ↔ ¬t.Converts := by
  constructor
  · rintro ⟨g', hfails⟩ hconverts
    exact Deciphers.literal hconverts g g' hfails
  · intro h
    obtain ⟨kind, lexeme, line, column⟩ := t
    have hnone : (kind = .intVal ∧ Numeral.int? lexeme = none) ∨
        (kind = .doubleVal ∧ Numeral.double? lexeme = none) := by
      by_contra hno
      rw [not_or, not_and, not_and] at hno
      exact h ⟨fun hk => Option.isSome_iff_ne_none.2 (hno.1 hk),
        fun hk => Option.isSome_iff_ne_none.2 (hno.2 hk)⟩
    refine ⟨g, ?_⟩
    obtain ⟨rfl, hnone⟩ | ⟨rfl, hnone⟩ := hnone <;> simp only [literal, literalValue, hnone] <;> rfl

end Generator

namespace Source

/-- A source is a text or a stream of bytes. -/
def Given (source : Source) : Prop :=
  (∃ text, source = .ofText text) ∨ ∃ bytes, source = .ofBytes bytes

theorem Given.coherent {source : Source} (h : source.Given) : source.Coherent := by
  obtain ⟨text, rfl⟩ | ⟨bytes, rfl⟩ := h
  · exact coherent_ofText text
  · exact coherent_ofBytes bytes

/-- A text in ASCII, or the bytes of one. -/
def Ascii (source : Source) : Prop :=
  ∃ text : String, isAscii text.toList ∧
    (source = .ofText text ∨ source = .ofBytes text.toUTF8.toList)

theorem Ascii.shows {source : Source} (h : source.Ascii) {x : Char} (hx : source.Exhibits x) :
    x.toNat < 0x80 := by
  obtain ⟨text, hascii, hsource⟩ := h
  have htext : source = .ofText text := by
    obtain rfl | rfl := hsource
    · rfl
    · rw [toUTF8_ascii hascii, ofBytes_ascii hascii]
      rfl
  subst htext
  obtain ⟨c, hc, hx⟩ := hx
  obtain ⟨y, hy, rfl⟩ := List.mem_map.1 hc
  obtain rfl : x = y := by
    obtain hx | hx := hx <;> cases hx <;> rfl
  exact of_decide_eq_true (List.all_eq_true.1 hascii x hy)

end Source

section Numbers

variable {source : Source} {n : Nat} {s' : Lexer} {t : Token}

theorem wellNumbered_of_next (hsource : source.Coherent)
    (h : Lexer.next (Lexer.afterCalls n (.ofSource source)) = .ok t s') : t.WellNumbered := by
  have hsuffix := Lexer.rest_afterCalls_suffix n (.ofSource source)
  exact .of_spellable fun ht => (Lexer.numbers_of_next (hsource.suffix hsuffix) h ht).written

theorem converts_of_next (hsource : source.Coherent) (hascii : source.Ascii)
    (h : Lexer.next (Lexer.afterCalls n (.ofSource source)) = .ok t s') : t.Converts ↔ t.Short := by
  have hsuffix := Lexer.rest_afterCalls_suffix n (.ofSource source)
  by_cases ht : t.isNumber
  · have hnumbers := Lexer.numbers_of_next (hsource.suffix hsuffix) h ht
    refine (wellNumbered_of_next hsource h).converts_iff fun d hd => ?_
    obtain rfl | hd := hnumbers.made d hd
    · decide
    · exact hascii.shows (hd.mono hsuffix)
  · exact Token.converts_iff_of_not ht

theorem converts_of_parse {p : Program} (hsource : source.Coherent) (hascii : source.Ascii)
    (hp : Parser.parse source = .ok p) (ht : t ∈ p.tokens) : t.Converts ↔ t.Short := by
  obtain ⟨c, hwrites, rfl, -⟩ := Parser.exists_text hp
  by_cases hnumber : t.isNumber
  · have hcarries : t.kind.carries := by
      simp only [Token.isNumber, Bool.or_eq_true, beq_iff_eq] at hnumber
      obtain hk | hk := hnumber <;> rw [hk] <;> rfl
    have hmem := c.accounts.mem (mem_carried.2 ⟨ht, hcarries⟩)
    have hgiven : t ∈ carried (Lexer.ofSource source).tokens.tokens := by
      rw [hwrites.carried_eq]
      exact mem_carried.2 ⟨hmem, hcarries⟩
    obtain ⟨n, s', hn⟩ := Lexer.exists_next_of_mem (mem_carried.1 hgiven).1
    exact converts_of_next hsource hascii hn
  · exact Token.converts_iff_of_not hnumber

end Numbers

/-- Every number that is given for a source is digits without a leading zero, with a point and more
digits for a double. In ASCII every double can be read, and a whole number unless it has more digits
than the limit; code generation fails at these numbers of a tree and at no others. -/
theorem numbers_wellFormed {source : Source} (hsource : source.Given) :
    (∀ n t s', Lexer.next (Lexer.afterCalls n (.ofSource source)) = .ok t s' → t.WellNumbered) ∧
    (source.Ascii →
      (∀ n t s', Lexer.next (Lexer.afterCalls n (.ofSource source)) = .ok t s' →
        (t.Converts ↔ t.Short)) ∧
      ∀ p, Parser.parse source = .ok p →
        (∀ t ∈ p.tokens, ∀ g, (∃ g', Generator.literal t g = .error (.crash .badNumeral) g') ↔
          ¬t.Short) ∧
        ((∀ t ∈ p.tokens, t.Short) → (Compiler.generate p).2 ≠ some (.crash .badNumeral))) := by
  have hcoherent := hsource.coherent
  refine ⟨fun n t s' h => wellNumbered_of_next hcoherent h, fun hascii => ⟨?_, fun p hp => ⟨?_, ?_⟩⟩⟩
  · exact fun n t s' h => converts_of_next hcoherent hascii h
  · intro t ht g
    rw [Generator.literal_fails_iff, converts_of_parse hcoherent hascii hp ht]
  · intro hshort hfail
    have hreadable : Readable p.tokens := fun t ht =>
      (converts_of_parse hcoherent hascii hp ht).2 (hshort t ht)
    rw [Compiler.generate] at hfail
    cases hrun : (Generator.program p).run (.ofImage .empty) with
    | ok a g =>
      rw [hrun] at hfail
      cases hfail
    | error e g =>
      rw [hrun] at hfail
      cases hfail
      exact Generator.Deciphers.program hreadable _ _ hrun

theorem numbers_wellFormed_sum :
    Token.WellNumbered ⟨.doubleVal, "2.50", 1, 1⟩ ∧
    ∃ p, Parser.parse (.ofText "void main() \x7bint x = 10 + 205;\x7d") = .ok p ∧
      (∀ t ∈ p.tokens, t.Short) ∧ (Compiler.generate p).2 ≠ some (.crash .badNumeral) := by
  constructor
  · have hnext : Lexer.next (Lexer.afterCalls 0 (.ofSource (.ofText "2.50 + 1"))) =
        .ok ⟨.doubleVal, "2.50", 1, 1⟩ ⟨.ofText "+ 1", 1, 5⟩ := rfl
    exact (numbers_wellFormed (.inl ⟨_, rfl⟩)).1 _ _ _ hnext
  · have hascii : Source.Ascii (.ofText "void main() \x7bint x = 10 + 205;\x7d") :=
      ⟨_, by decide, .inl rfl⟩
    obtain ⟨p, hp, hshort⟩ := Parser.exists_parsed
      (q := fun p => p.tokens.all fun t => t.lexeme.length ≤ Numeral.digitLimit)
      (r := Parser.parse (.ofText "void main() \x7bint x = 10 + 205;\x7d")) (by decide +kernel)
    have hshort : ∀ t ∈ p.tokens, t.Short := fun t ht _ =>
      of_decide_eq_true (List.all_eq_true.1 hshort t ht)
    exact ⟨p, hp, hshort, (((numbers_wellFormed (.inl ⟨_, rfl⟩)).2 hascii).2 p hp).2 hshort⟩

section TooLong

variable {k : Nat} (hk : Numeral.digitLimit < k)

theorem ascii_uttering_nines (k : Nat) : Source.Ascii (.ofText (uttering (Numeral.nines k))) := by
  refine ⟨_, ?_, .inl rfl⟩
  have hnines : ∀ c ∈ (Numeral.nines k).toList, c.toNat < 0x80 := by
    intro c hc
    rw [Numeral.eq_nine_of_mem hc]
    decide
  have hfront : isAscii "void main() \x7bprint(".toList := by decide
  have hback : isAscii ");\x7d".toList := by decide
  unfold uttering isAscii at *
  rw [String.toList_append, String.toList_append, List.all_append, List.all_append, hfront, hback,
    List.all_eq_true.2 fun c hc => decide_eq_true (hnines c hc)]
  rfl

include hk

theorem parse_uttering_nines : ∃ place, Parser.parse (.ofText (uttering (Numeral.nines k))) =
    .ok (utteringTree .intVal (Numeral.nines k) place) := by
  refine parse_uttering rfl fun r => ?_
  have hdigits : Lexer.Digits (Numeral.nines k).toList := by
    refine ⟨Numeral.toList_nines_ne_nil (by omega), fun c hc => ?_, fun hzero => ?_⟩
    · rw [Numeral.eq_nine_of_mem hc]
      decide
    · cases Numeral.eq_nine_of_mem (List.mem_of_mem_head? hzero)
  have htakes := Lexer.takes_whole (r := ')' :: r) hdigits (by rintro _ ⟨⟩; decide)
  rwa [String.ofList_toList] at htakes

theorem generate_utteringTree_nines (place : Nat → Nat × Nat) :
    ∃ g, Compiler.generate (utteringTree .intVal (Numeral.nines k) place) =
      (g, some (.crash .badNumeral)) := by
  have hint : Numeral.int? (Numeral.nines k) = none := by
    rw [Numeral.int?_nines (by omega), if_neg (by omega)]
  have hillegible : Token.isLegible ⟨.intVal, Numeral.nines k, (place 7).1, (place 7).2⟩ = false := by
    simp only [Token.isLegible, Token.denoted?, hint, Option.map_none, Option.isSome_none,
      Bool.and_false]
  refine generate_illegible rfl rfl (fun _ (h : Token.isLiteral _) => h) rfl ?_
  simp [line, printed?, Expr.over, Expr.operand, Term.over, hillegible]

end TooLong

/-- A source in ASCII with a number that cannot be read. -/
theorem generate_nines :
    Source.Ascii (.ofText (uttering (Numeral.nines (Numeral.digitLimit + 1)))) ∧
    ∃ p, Parser.parse (.ofText (uttering (Numeral.nines (Numeral.digitLimit + 1)))) = .ok p ∧
      (Compiler.generate p).2 = some (.crash .badNumeral) := by
  obtain ⟨place, hparse⟩ := parse_uttering_nines (k := Numeral.digitLimit + 1) (by omega)
  obtain ⟨g, hg⟩ := generate_utteringTree_nines (k := Numeral.digitLimit + 1) (by omega) place
  exact ⟨ascii_uttering_nines _, _, hparse, by rw [hg]⟩

end StackLang
