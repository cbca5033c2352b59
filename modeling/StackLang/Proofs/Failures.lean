import StackLang.Proofs.Termination

namespace StackLang

open Descent

namespace Lexer

/-- The lexer after so many calls, those that have failed included. -/
def afterCalls : Nat → Lexer → Lexer
  | 0, s => s
  | n + 1, s =>
    match s.next with
    | .ok _ s' => afterCalls n s'
    | .error _ s' => afterCalls n s'

theorem rest_afterCalls_suffix (n : Nat) (s : Lexer) : (afterCalls n s).rest <:+ s.rest := by
  induction n generalizing s with
  | zero => exact List.suffix_rfl
  | succ n ih =>
    have htidy := Tidy.next s
    rw [afterCalls]
    split
    · rename_i hnext
      rw [hnext] at htidy
      exact (ih _).trans htidy
    · rename_i hnext
      rw [hnext] at htidy
      exact (ih _).trans htidy.1

theorem next_of_plain {s : Lexer} (hs : s.rest.Plain) :
    (∃ t s', s.next = .ok t s') ∨ ∃ x s', s.next = .error (.lexical x) s' := by
  have htidy := Tidy.next s
  cases hnext : s.next with
  | ok t s' => exact .inl ⟨t, s', rfl⟩
  | error e s' =>
    rw [hnext] at htidy
    obtain ⟨x, rfl⟩ := htidy.2.of_plain hs
    exact .inr ⟨x, s', rfl⟩

end Lexer

/-- The lexer and the recognizer only complain. On any text, the lexer gives a token or reports an
error of its own, after any number of calls and even of failures, and the recognizer accepts the
text or reports the lexer's error or one of its own. -/
theorem lexer_recognizer_complain (text : String) :
    (∀ n, let s := Lexer.afterCalls n (.ofSource (.ofText text))
      (∃ t s', s.next = .ok t s') ∨
        ∃ d s' m, s.next = .error (.diagnosis d) s' ∧ d.message = "Lexer Error: " ++ m) ∧
    ((∃ s', Recognizer.program (.ofSource (.ofText text)) = .ok () s') ∨
      ∃ d s' m, Recognizer.program (.ofSource (.ofText text)) = .error (.diagnosis d) s' ∧
        (d.message = "Lexer Error: " ++ m ∨ d.message = "Parser Error: " ++ m)) := by
  constructor
  · intro n s
    have hplain : s.rest.Plain :=
      (Source.plain_ofText text).suffix (Lexer.rest_afterCalls_suffix n (.ofSource (.ofText text)))
    refine (Lexer.next_of_plain hplain).imp_right ?_
    rintro ⟨x, s', hs'⟩
    exact ⟨.lexical x, s', x.message, hs', rfl⟩
  · obtain ⟨r, l, -, hr, -, -, hfails⟩ := Recognizer.exists_runs (.ofText text)
    rw [hr]
    cases r with
    | ok a s' => exact .inl ⟨s', rfl⟩
    | error e s' =>
      obtain hfault | ⟨x, rfl⟩ := hfails e s' rfl
      · obtain ⟨x, rfl⟩ := hfault.of_plain (Source.plain_ofText text)
        exact .inr ⟨.lexical x, s', x.message, rfl, .inl rfl⟩
      · exact .inr ⟨.syntactic x, s', x.message, rfl, .inr rfl⟩

namespace Parser

theorem dataType_eq_error {s : Feed} {t : Token} (ht : s.current = some t)
    (hkind : startsType t.kind = false) : dataType s = .error (.crash .wrongKind) s := by
  simp only [dataType, Parse.look, ht, Bind.bind, EStateM.bind]
  cases h : t.kind <;> rw [h] at hkind <;> first | rfl | cases hkind

theorem callee_eq_error {e : Expr} (he : ∀ refs, e.first ≠ .path refs) (s : Feed) :
    callee e s = .error (.crash .missingPart) s := by
  unfold callee
  cases h : e.first with
  | path refs => exact (he refs h).elim
  | literal | create | call | group => rfl

/-- The parser reads a program or complains, but for two faults. It fails at a token that begins no
type where it takes the type of a field or of a parameter, and at a parenthesis behind an expression
that it takes for the callee though it starts with no path. -/
theorem program_crashes_iff (text : String) :
    ∃ r l, Runs (whole Call.definitions) (.ofSource (.ofText text)) r l ∧
      program (.ofSource (.ofText text)) = r ∧
      (∀ s, r = .error (.crash .wrongKind) s ↔
        (⟨Call.dataType .field, s⟩ ∈ l ∨ ⟨Call.dataType .parameter, s⟩ ∈ l) ∧
          ∃ t, s.current = some t ∧ startsType t.kind = false) ∧
      (∀ s, r = .error (.crash .missingPart) s ↔
        ∃ e, ⟨Call.callee e, s⟩ ∈ l ∧ (∀ refs, e.first ≠ .path refs) ∧
          ∃ t, s.current = some t ∧ t.kind = .lparen) ∧
      ∀ e s, r = .error e s → e = .crash .wrongKind ∨ e = .crash .missingPart ∨
        ∃ d m, e = .diagnosis d ∧
          (d.message = "Lexer Error: " ++ m ∨ d.message = "Parser Error: " ++ m) := by
  obtain ⟨r, l, hrun, hr, -, -, hfails⟩ := Parser.exists_runs (.ofText text)
  have hlexical {e : Failure} (h : Lexer.Faults (.ofText text) e) : ∃ x, e = .lexical x :=
    h.of_plain (Source.plain_ofText text)
  have hcrash {k : Crash} {s : Feed} (he : r = .error (.crash k) s) : ∃ v ∈ l, ∃ t,
      v.feed.current = some t ∧ v.call.needs t ∧ v.call.fails t (.crash k) := by
    obtain hfault | ⟨x, hx⟩ | hv := hfails _ s he
    · obtain ⟨x, hx⟩ := hlexical hfault
      cases hx
    · cases hx
    · exact hv
  refine ⟨r, l, hrun, hr, fun s => ⟨?_, ?_⟩, fun s => ⟨?_, ?_⟩, ?_⟩
  · intro he
    obtain ⟨⟨c, s'⟩, hv, t, ht, hneeds, hfail⟩ := hcrash he
    cases c <;> simp at hfail
    rename_i place
    cases he.symm.trans (hrun.eq_of_visit hv fun n => dataType_eq_error ht hfail)
    refine ⟨?_, t, ht, hfail⟩
    cases place with
    | field => exact .inl hv
    | parameter => exact .inr hv
    | inSight =>
      rw [hneeds rfl] at hfail
      cases hfail
  · rintro ⟨hv | hv, t, ht, hkind⟩
    · exact hrun.eq_of_visit hv fun n => dataType_eq_error ht hkind
    · exact hrun.eq_of_visit hv fun n => dataType_eq_error ht hkind
  · intro he
    obtain ⟨⟨c, s'⟩, hv, t, ht, hneeds, hfail⟩ := hcrash he
    cases c <;> simp at hfail
    rename_i e
    cases he.symm.trans (hrun.eq_of_visit hv fun n => callee_eq_error hfail s')
    exact ⟨e, hv, hfail, t, ht, hneeds.2⟩
  · rintro ⟨e, hv, he, -⟩
    exact hrun.eq_of_visit hv fun n => callee_eq_error he s
  · intro e s he
    obtain hfault | ⟨x, rfl⟩ | ⟨⟨c, s'⟩, -, t, -, -, hfail⟩ := hfails e s he
    · obtain ⟨x, rfl⟩ := hlexical hfault
      exact .inr (.inr ⟨.lexical x, x.message, rfl, .inl rfl⟩)
    · exact .inr (.inr ⟨.syntactic x, x.message, rfl, .inr rfl⟩)
    · cases c <;> simp at hfail
      · exact .inr (.inl hfail.1)
      · exact .inl hfail.1

instance (r : Except Failure Program) (e : Failure) : Decidable (r = .error e) :=
  match r with
  | .ok _ => .isFalse fun h => by cases h
  | .error f => decidable_of_iff (f = e) ⟨congrArg _, Except.error.inj⟩

theorem parse_field_call : parse (.ofText "struct S \x7b5 x;\x7d") = .error (.crash .wrongKind) ∧
    parse (.ofText "void main() \x7bint x = 1 + f(2);\x7d") = .error (.crash .missingPart) := by
  decide +kernel

end Parser

end StackLang
