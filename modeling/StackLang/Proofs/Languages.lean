import StackLang.Proofs.ParserYields
import StackLang.Proofs.RecognizerYields

namespace StackLang

open Token Grammar

namespace Feed

variable (fuel : Nat) (comment : Option Token) (s : Lexer)

theorem complete_iff {s : Feed} : s.complete ↔ ∃ line column, s.ending = .marks line column := by
  obtain ⟨current, line, column, ahead, ending⟩ := s
  cases ending with
  | marks l c => exact ⟨fun _ => ⟨l, c, rfl⟩, fun _ => rfl⟩
  | failure =>
    constructor
    · intro h
      cases h
    · rintro ⟨l, c, h⟩
      cases h

theorem eos_notMem_gather : Kind.eos ∉ Parse.kinds (gather fuel comment s).1 := by
  induction fuel generalizing comment s with
  | zero => exact List.not_mem_nil
  | succ fuel ih =>
    rw [gather]
    cases s.next with
    | error e s' => exact List.not_mem_nil
    | ok t s' =>
      simp only
      by_cases heos : t.kind = .eos
      · rw [if_pos heos]
        exact List.not_mem_nil
      · rw [if_neg heos]
        by_cases hcomment : t.kind = .comment
        · rw [if_pos hcomment]
          exact ih _ _
        · rw [if_neg hcomment]
          intro hmem
          obtain h | h := List.mem_cons.mp hmem
          · exact heos h.symm
          · exact ih _ _ h

theorem listing_of_gather {line column : Nat}
    (h : (gather fuel comment s).2 = .marks line column) :
    (Lexer.listing fuel s).failure = none := by
  induction fuel generalizing comment s with
  | zero => cases h
  | succ fuel ih =>
    rw [gather] at h
    rw [Lexer.listing]
    cases hnext : s.next with
    | error e s' =>
      rw [hnext] at h
      cases h
    | ok t s' =>
      simp only [hnext] at h ⊢
      by_cases heos : t.kind = .eos
      · rw [if_pos heos]
      · rw [if_neg heos] at h ⊢
        by_cases hcomment : t.kind = .comment
        · rw [if_pos hcomment] at h
          exact ih _ _ h
        · rw [if_neg hcomment] at h
          exact ih _ _ h

end Feed

namespace Grammar

variable {D : Dialect} {source : Source}

/-- The source can be read to its end, and its tokens, comments aside, are a program. -/
def Written (D : Dialect) (source : Source) : Prop :=
  (Lexer.ofSource source).tokens.failure = none ∧ ∃ ks, IsProgram D ks ∧
    (Feed.significant (Lexer.ofSource source).tokens.tokens).map Token.kind = ks ++ [.eos]

theorem Written.mono {E : Dialect} (h : Written D source) (w : D.Within E) : Written E source := by
  obtain ⟨hfail, ks, hks, htokens⟩ := h
  exact ⟨hfail, ks, hks.mono w, htokens⟩

theorem written_iff : Written D source ↔
    IsProgram D (Parse.kinds (Feed.ofSource source).ahead) ∧ (Feed.ofSource source).complete := by
  constructor
  · rintro ⟨hfail, ks, hks, hkinds⟩
    obtain ⟨t, line, column, -, hend, htokens⟩ := Feed.gather_listing
      ((Lexer.ofSource source).rest.length + 1) none (Lexer.ofSource source) hfail
    rw [Lexer.tokens, htokens, List.map_append, List.map_map] at hkinds
    rw [← (List.append_inj' hkinds rfl).1] at hks
    exact ⟨hks, Feed.complete_iff.mpr ⟨line, column, hend⟩⟩
  · rintro ⟨hks, hcomplete⟩
    obtain ⟨line, column, hend⟩ := Feed.complete_iff.mp hcomplete
    have hfail := Feed.listing_of_gather ((Lexer.ofSource source).rest.length + 1) none
      (Lexer.ofSource source) hend
    obtain ⟨t, _, _, ht, -, htokens⟩ := Feed.gather_listing
      ((Lexer.ofSource source).rest.length + 1) none (Lexer.ofSource source) hfail
    refine ⟨hfail, _, hks, ?_⟩
    rw [Lexer.tokens, htokens, List.map_append, List.map_map, List.map_singleton, ht]
    rfl

end Grammar

namespace Parse

variable {D : Dialect} {source : Source}

theorem faces_of_advance {s s' : Feed} (h : advance s = .ok () s') :
    Faces s' (kinds s.ahead) ∧ s'.complete = s.complete := by
  obtain ⟨current, line, column, ahead, ending⟩ := s
  cases ahead with
  | cons r rs =>
    cases h
    exact ⟨⟨rfl, rfl⟩, rfl⟩
  | nil =>
    cases ending with
    | failure => cases h
    | marks =>
      cases h
      exact ⟨⟨rfl, rfl, rfl⟩, rfl⟩

theorem eq_nil_of_front {b : List Kind} (h : b <:+ kinds (Feed.ofSource source).ahead)
    (hb : front b = .eos) : b = [] := by
  cases b with
  | nil => rfl
  | cons k b =>
    have hmem : k ∈ kinds (Feed.ofSource source).ahead := h.subset List.mem_cons_self
    rw [← front_cons k b, hb] at hmem
    exact (Feed.eos_notMem_gather ((Lexer.ofSource source).rest.length + 1) none
      (Lexer.ofSource source) hmem).elim

theorem written_of_yields {α : Type} {p : Parse α}
    (h : Yields p (kinds (Feed.ofSource source).ahead) fun _ b =>
      Definitions D (kinds (Feed.ofSource source).ahead) b ∧ front b = .eos)
    {s s' : Feed} {x : α} (hadvance : advance (Feed.ofSource source) = .ok () s)
    (hp : p s = .ok x s') : Written D source := by
  obtain ⟨hfaces, hcomplete⟩ := faces_of_advance hadvance
  obtain ⟨b, hfaces', hsuffix, hcomplete', hdefs, hb⟩ := h s s' x hfaces hp
  obtain rfl := eq_nil_of_front hsuffix hb
  exact written_iff.mpr ⟨hdefs, by rw [← hcomplete, ← hcomplete', hfaces'.2.2]⟩

end Parse

theorem Recognizer.accepts_iff (source : Source) :
    (∃ s, Recognizer.program (Feed.ofSource source) = .ok () s) ↔ Written .recognized source := by
  constructor
  · rintro ⟨s, hs⟩
    obtain ⟨_, _, hget, hs⟩ := Parse.exists_of_bind hs
    cases hget
    obtain ⟨_, s₁, hadvance, hs⟩ := Parse.exists_of_bind hs
    obtain ⟨_, s₂, hdefs, -⟩ := Parse.exists_of_bind hs
    exact Parse.written_of_yields Recognizer.definitions_yields hadvance hdefs
  · intro h
    obtain ⟨hks, hcomplete⟩ := written_iff.mp h
    obtain ⟨line, column, hend⟩ := Feed.complete_iff.mp hcomplete
    obtain ⟨s, hs, -⟩ := Recognizer.program_accepts hks hend
    exact ⟨s, hs⟩

theorem Parser.accepts_iff (source : Source) :
    (∃ p, Parser.parse source = .ok p) ↔ Written .parsed source := by
  have hparse : (∃ p, Parser.parse source = .ok p) ↔
      ∃ p s, Parser.program (Feed.ofSource source) = .ok p s := by
    rw [Parser.parse, EStateM.run]
    cases Parser.program (Feed.ofSource source) with
    | ok p s => exact ⟨fun _ => ⟨p, s, rfl⟩, fun _ => ⟨p, rfl⟩⟩
    | error e s =>
      constructor
      · rintro ⟨p, h⟩
        cases h
      · rintro ⟨p, t, h⟩
        cases h
  rw [hparse]
  constructor
  · rintro ⟨p, s, hs⟩
    obtain ⟨_, _, hget, hs⟩ := Parse.exists_of_bind hs
    cases hget
    obtain ⟨_, s₁, hadvance, hs⟩ := Parse.exists_of_bind hs
    obtain ⟨_, s₂, hdefs, -⟩ := Parse.exists_of_bind hs
    exact Parse.written_of_yields Parser.definitions_yields hadvance hdefs
  · intro h
    obtain ⟨hks, hcomplete⟩ := written_iff.mp h
    obtain ⟨line, column, hend⟩ := Feed.complete_iff.mp hcomplete
    exact Parser.program_passes hks hend

/-- The parser builds a tree of a source if and only if it is written in one dialect, the
recognizer accepts it if and only if it is written in another, and what is written without a
liberty that one of the dialects lacks is accepted by both. -/
theorem parse_recognize (source : Source) :
    ((∃ p, Parser.parse source = .ok p) ↔ Written .parsed source) ∧
    ((∃ s, Recognizer.program (Feed.ofSource source) = .ok () s) ↔ Written .recognized source) ∧
    (Written .shared source → (∃ p, Parser.parse source = .ok p) ∧
      ∃ s, Recognizer.program (Feed.ofSource source) = .ok () s) := by
  refine ⟨Parser.accepts_iff source, Recognizer.accepts_iff source, fun h => ⟨?_, ?_⟩⟩
  · exact (Parser.accepts_iff source).mpr (h.mono Dialect.shared_within_parsed)
  · exact (Recognizer.accepts_iff source).mpr (h.mono Dialect.shared_within_recognized)

theorem parse_recognize_counting :
    Written .shared (.ofText "void f() \x7bfor (int i = 0; i < 3; i = i + 1) \x7bprint(a[i]);\x7d\x7d") ∧
      ∃ p, Parser.parse
        (.ofText "void f() \x7bfor (int i = 0; i < 3; i = i + 1) \x7bprint(a[i]);\x7d\x7d") = .ok p := by
  have h : Written .shared
      (.ofText "void f() \x7bfor (int i = 0; i < 3; i = i + 1) \x7bprint(a[i]);\x7d\x7d") := by
    refine ⟨by decide +kernel, [.voidType, .id, .lparen, .rparen, .lbrace, .forKw, .lparen, .intType,
      .id, .assign, .intVal, .semicolon, .id, .less, .intVal, .semicolon, .id, .assign, .id, .plus,
      .intVal, .rparen, .lbrace, .id, .lparen, .id, .lbracket, .id, .rbracket, .rparen, .semicolon,
      .rbrace, .rbrace], ?_, by decide +kernel⟩
    have hname {a : List Kind} : Derives .shared .value (.id :: a) a := .path .noIndex .noSelectors
    refine .next (.function .nothing .none (.next (.count (.intro (.typed rfl (.plain rfl))
      (.some (.plain (.operand (.literal rfl))))
      (.plain (.operation hname rfl (.operand (.literal rfl)))) .name ⟨_, .noIndex, .noSelectors⟩
      (.operation hname rfl (.operand (.literal rfl)))) (.next (.call (.list (.arguments
      (.operand (.path (.index (.operand hname)) .noSelectors)) .noOthers))) .done)) .done)) .done
  exact ⟨h, ((parse_recognize _).2.2 h).1⟩

instance (r : Except Failure Program) : Decidable (∃ p, r = .ok p) :=
  match r with
  | .ok p => .isTrue ⟨p, rfl⟩
  | .error _ => .isFalse fun ⟨_, h⟩ => by cases h

instance (r : EStateM.Result Failure Feed Unit) : Decidable (∃ s, r = .ok () s) :=
  match r with
  | .ok _ s => .isTrue ⟨s, rfl⟩
  | .error _ _ => .isFalse fun ⟨_, h⟩ => by cases h

theorem parse_recognize_apart :
    (∃ s, Recognizer.program (Feed.ofSource (.ofText "void f() \x7bx = g();\x7d")) = .ok () s) ∧
    (¬ ∃ p, Parser.parse (.ofText "void f() \x7bx = g();\x7d") = .ok p) ∧
    (∃ p, Parser.parse (.ofText "void f() \x7breturn f() + +;\x7d") = .ok p) ∧
    ¬ ∃ s, Recognizer.program (Feed.ofSource (.ofText "void f() \x7breturn f() + +;\x7d")) =
      .ok () s := by
  decide +kernel

end StackLang
