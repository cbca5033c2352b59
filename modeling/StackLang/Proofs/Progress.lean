import StackLang.Proofs.Pacing
import StackLang.Proofs.Spacing

namespace StackLang

open Text

/-- Every unit can be seen and consumed, as in a text. -/
def Source.Plain (src : Source) : Prop := ∀ c ∈ src, c.sight.isSome ∧ c.value.isSome

namespace Source

theorem Plain.suffix {src r : Source} (h : src.Plain) (hr : r <:+ src) : r.Plain :=
  fun c hc => h c (hr.subset hc)

theorem plain_ofText (s : String) : (ofText s).Plain := by
  intro c hc
  obtain ⟨x, -, rfl⟩ := List.mem_map.1 hc
  exact ⟨rfl, rfl⟩

end Source

namespace Lexer

variable {α β : Type} {src r : Source}

/-- The lexer's failures in front of a source are complaints, unless there are units that cannot be
read. -/
def Faults (src : Source) (e : Failure) : Prop :=
  (∃ x, e = .lexical x) ∨ e = .crash .undecodable ∧ ¬src.Plain

theorem Faults.mono {e : Failure} (h : Faults r e) (hr : r <:+ src) : Faults src e :=
  h.imp_right fun he => ⟨he.1, fun hplain => he.2 (hplain.suffix hr)⟩

theorem Faults.of_plain {e : Failure} (h : Faults src e) (hsrc : src.Plain) :
    ∃ x, e = .lexical x :=
  h.resolve_right fun he => he.2 hsrc

/-- An outcome in front of a source, of which it leaves an end. -/
def Consumes (src : Source) : Outcome α → Prop
  | .ok _ s => s.rest <:+ src
  | .error e s => s.rest <:+ src ∧ Faults src e

theorem Consumes.mono {o : Outcome α} (h : Consumes r o) (hr : r <:+ src) : Consumes src o := by
  cases o with
  | ok a s => exact List.IsSuffix.trans h hr
  | error e s => exact ⟨h.1.trans hr, h.2.mono hr⟩

section Blind

variable {c : Cell} {cs : Source} {line column : Nat}

theorem consumes_of_sight (h : c.sight = none) :
    Consumes (α := α) (c :: cs) (.error (.crash .undecodable) ⟨c :: cs, line, column⟩) := by
  refine ⟨List.suffix_rfl, .inr ⟨rfl, fun hplain => ?_⟩⟩
  have hsight := (hplain c List.mem_cons_self).1
  rw [h] at hsight
  cases hsight

theorem consumes_of_value (h : c.value = none) :
    Consumes (α := α) (c :: cs) (.error (.crash .undecodable) ⟨cs, line, column⟩) := by
  refine ⟨List.suffix_cons c cs, .inr ⟨rfl, fun hplain => ?_⟩⟩
  have hvalue := (hplain c List.mem_cons_self).2
  rw [h] at hvalue
  cases hvalue

end Blind

def Tidy (x : Scan α) : Prop := ∀ s, Consumes s.rest (x s)

namespace Tidy

theorem pure {a : α} : Tidy (pure a) := fun _ => List.suffix_rfl

theorem throw {x : LexError} : Tidy (throw (.lexical x) : Scan α) :=
  fun _ => ⟨List.suffix_rfl, .inl ⟨x, rfl⟩⟩

theorem bind {x : Scan α} {f : α → Scan β} (hx : Tidy x) (hf : ∀ a, Tidy (f a)) :
    Tidy (x >>= f) := by
  intro s
  have h := hx s
  simp only [Bind.bind, EStateM.bind]
  cases hs : x s with
  | ok a s' =>
    rw [hs] at h
    exact (hf a s').mono h
  | error e s' =>
    rw [hs] at h
    exact h

theorem get : Tidy get := fun _ => List.suffix_rfl

theorem modify {f : Lexer → Lexer} (hf : ∀ s, (f s).rest = s.rest) : Tidy (modify f) := by
  intro s
  change (f s).rest <:+ s.rest
  rw [hf]

theorem ite {c : Prop} [Decidable c] {x y : Scan α} (hx : Tidy x) (hy : Tidy y) :
    Tidy (if c then x else y) := by
  split <;> assumption

theorem read : Tidy read := by
  intro s
  unfold Lexer.read
  split
  · exact List.nil_suffix
  · rename_i c cs h
    rw [h]
    split
    · exact List.suffix_cons c cs
    · exact consumes_of_value ‹_›

theorem peek : Tidy peek := by
  intro s
  unfold Lexer.peek
  split
  · exact List.suffix_rfl
  · rename_i c cs h
    split
    · exact List.suffix_rfl
    · have hs : s = ⟨c :: cs, s.line, s.column⟩ := by rw [← h]
      rw [h, hs]
      exact consumes_of_sight ‹_›

theorem peekIs {p : Char → Bool} : Tidy (peekIs p) := .bind peek fun _ => .pure

theorem drop : Tidy (discard Lexer.read) := .bind read fun _ => .pure

theorem skipBlank : Tidy skipBlank := .bind peekIs fun _ => .ite drop .pure

theorem moveToNextLine : Tidy moveToNextLine := by
  refine .bind peek fun o => ?_
  cases o with
  | none => exact .modify fun _ => rfl
  | some c => exact .ite (.bind drop fun _ => .modify fun _ => rfl) (.ite drop .pure)

theorem here {kind : Token.Kind} {lexeme : String} : Tidy (here kind lexeme) :=
  .bind get fun _ => .pure

theorem symbol {c : Char} {kind : Token.Kind} {own : Bool} : Tidy (symbol c kind own) :=
  .bind get fun _ => .bind moveToNextLine fun _ => .bind get fun _ => .pure

theorem comparison {c : Char} {alone withEqual : Token.Kind} :
    Tidy (comparison c alone withEqual) :=
  .bind peekIs fun _ => .ite (.bind drop fun _ => .bind skipBlank fun _ => here)
    (.bind skipBlank fun _ => here)

theorem less : Tidy less :=
  .bind get fun _ => .bind peekIs fun _ => .ite (.bind drop fun _ => .bind skipBlank fun _ => here)
    (.bind moveToNextLine fun _ => .pure)

theorem bang : Tidy bang := by
  refine .bind peekIs fun _ => .ite (.bind drop fun _ => ?_) .throw
  exact Tidy.bind (.modify fun _ => rfl) fun _ => .bind skipBlank fun _ => here

theorem semicolon : Tidy semicolon := by
  refine .bind get fun _ => .bind peekIs fun _ => .ite (.bind drop fun _ => ?_) ?_
  · exact Tidy.bind (.modify fun _ => rfl) fun _ => .bind get fun _ => .pure
  · exact .bind skipBlank fun _ => .bind get fun _ => .pure

theorem closing : Tidy closing := by
  refine .bind get fun _ => .bind moveToNextLine fun _ => .bind peek fun o => ?_
  cases o with
  | none => exact here
  | some d => exact .ite (.bind drop fun _ => .bind get fun _ => .pure) here

theorem collect (p : Char → Bool) (line column : Nat) :
    Consumes src (collect p line src column) := by
  induction src generalizing column with
  | nil => exact List.suffix_rfl
  | cons c cs ih =>
    unfold Lexer.collect
    split
    · exact consumes_of_sight ‹_›
    · split
      · split
        · exact consumes_of_value ‹_›
        · have h := (ih (column + 1)).mono (List.suffix_cons c cs)
          split
          · rename_i hmore
            rw [hmore] at h
            exact h
          · rename_i hmore
            rw [hmore] at h
            exact h
      · exact List.suffix_rfl

theorem readWhile {p : Char → Bool} : Tidy (readWhile p) := fun s => collect p s.line s.column

theorem commentText (line column : Nat) : Consumes src (commentText line src column) := by
  induction src generalizing column with
  | nil => exact List.suffix_rfl
  | cons c cs ih =>
    unfold Lexer.commentText
    split
    · exact consumes_of_value ‹_›
    · split
      · have hend : Tidy (do unless ← Lexer.peekIs isWordChar do discard Lexer.read
                             return [] : Scan (List Char)) :=
          .bind peekIs fun _ => .ite .pure (.bind drop fun _ => .pure)
        exact (hend ⟨cs, line + 1, 0⟩).mono (List.suffix_cons c cs)
      · have h := (ih (column + 1)).mono (List.suffix_cons c cs)
        split
        · rename_i hmore
          rw [hmore] at h
          exact h
        · rename_i hmore
          rw [hmore] at h
          exact h

theorem slash : Tidy slash :=
  .bind get fun _ => .bind peekIs fun _ => .ite
    (.bind (fun s => commentText s.line s.column) fun _ => .pure) (.bind skipBlank fun _ => here)

theorem quoted : Tidy quoted := by
  have hend (inner : List Char) (column : Nat) : Tidy (do
      let blanks ← Lexer.readWhile isBlank
      return Token.mk .stringVal (String.ofList (trim (inner ++ blanks))) (← MonadState.get).line
        column : Scan Token) := .bind readWhile fun _ => .bind get fun _ => .pure
  exact .bind get fun _ => .bind readWhile fun _ => .bind peekIs fun _ => .ite
    (.bind drop fun _ => hend _ _) (hend _ _)

theorem fraction {whole : List Char} : Tidy (fraction whole) :=
  .bind peekIs fun _ => .ite (.bind drop fun _ => .bind peekIs fun _ => .ite
    (.bind readWhile fun _ => .pure) .throw) .pure

theorem numeral {c : Char} : Tidy (numeral c) := by
  refine .bind get fun _ => .bind readWhile fun more => .ite .throw ?_
  refine .bind fraction fun lexeme => .bind skipBlank fun _ => ?_
  split
  · exact .throw
  · exact .bind get fun _ => .pure

theorem wordText {line : Nat} {run : Bool} {w : String} {column : Nat} :
    Consumes src (wordText line run w src column) := by
  fun_induction Lexer.wordText line run w src column with
  | case1 | case7 | case10 => exact List.nil_suffix
  | case2 _ _ _ _ _ h => exact consumes_of_sight h
  | case3 _ _ _ _ _ _ _ _ h | case6 _ _ _ _ _ _ _ _ _ h => exact consumes_of_value h
  | case4 _ _ c _ _ _ _ _ _ _ ih | case13 _ _ c _ _ _ _ _ _ _ _ _ _ _ _ _ ih =>
    exact ih.mono (List.suffix_cons c _)
  | case5 => exact List.suffix_rfl
  | case8 _ _ c _ _ _ _ _ _ _ _ _ h => exact (consumes_of_sight h).mono (List.suffix_cons c _)
  | case9 _ _ c _ _ _ _ _ _ _ d _ _ ih => exact ih.mono (List.suffix_append [c, d] _)
  | case11 _ _ c _ _ _ _ _ _ _ d _ _ _ _ _ _ h =>
    exact (consumes_of_value h).mono (List.suffix_append [c, d] _)
  | case12 _ _ c _ _ _ _ _ _ _ d _ _ _ _ e _ _ _ ih =>
    exact ih.mono (List.suffix_append [c, d, e] _)

theorem word {c : Char} : Tidy (word c) := by
  refine .bind get fun _ => Tidy.bind (fun _ => wordText) fun w => .bind skipBlank fun _ => ?_
  exact .bind peekIs fun _ => .ite (.bind drop fun _ => .bind get fun _ => .pure)
    (.bind get fun _ => .pure)

theorem stray {c : Char} : Tidy (stray c) := .ite .throw (.bind get fun _ => .throw)

theorem token {c : Char} : Tidy (token c) := by
  unfold Lexer.token
  split
  · exact symbol
  · split
    · exact semicolon
    · exact slash
    · exact closing
    · exact comparison
    · exact less
    · exact comparison
    · exact bang
    · exact quoted
    · exact .ite numeral (.ite word stray)

theorem skipBlanks {line column : Nat} : Consumes src (skipBlanks line src column) := by
  induction src generalizing column with
  | nil => exact List.suffix_rfl
  | cons c cs ih =>
    unfold Lexer.skipBlanks
    split
    · exact consumes_of_value ‹_›
    · split
      · exact ih.mono (List.suffix_cons c cs)
      · exact List.suffix_cons c cs

theorem start : Tidy start := by
  intro s
  unfold Lexer.start
  generalize s.rest = src, s.line = line, s.column = column
  induction src generalizing line column with
  | nil => exact List.suffix_rfl
  | cons c cs ih =>
    unfold Lexer.skipLines
    split
    · exact consumes_of_value ‹_›
    · split
      · exact (ih _ _).mono (List.suffix_cons c cs)
      · split
        · exact skipBlanks.mono (List.suffix_cons c cs)
        · exact List.suffix_cons c cs

theorem next : Tidy next := by
  refine .bind start fun o => ?_
  cases o with
  | none => exact here
  | some c => exact token

end Tidy

theorem length_lt_of_skipBlanks {line column : Nat} {c : Char} {s : Lexer}
    (h : skipBlanks line src column = .ok (some c) s) : s.rest.length < src.length := by
  induction src generalizing column with
  | nil => cases h
  | cons d ds ih =>
    unfold skipBlanks at h
    split at h
    · cases h
    · split at h
      · exact Nat.lt_succ_of_lt (ih h)
      · cases h
        exact Nat.lt_succ_self _

theorem length_lt_of_skipLines {line column : Nat} {c : Char} {s : Lexer}
    (h : skipLines src line column = .ok (some c) s) : s.rest.length < src.length := by
  induction src generalizing line column with
  | nil => cases h
  | cons d ds ih =>
    unfold skipLines at h
    split at h
    · cases h
    · split at h
      · exact Nat.lt_succ_of_lt (ih h)
      · split at h
        · exact Nat.lt_succ_of_lt (length_lt_of_skipBlanks h)
        · cases h
          exact Nat.lt_succ_self _

/-- A token that is no end mark consumes something. -/
theorem length_lt_of_next {s s' : Lexer} {t : Token} (h : next s = .ok t s') (ht : t.kind ≠ .eos) :
    s'.rest.length < s.rest.length := by
  simp only [next, Bind.bind, EStateM.bind] at h
  cases hs : start s with
  | error e s₁ =>
    rw [hs] at h
    cases h
  | ok o s₁ =>
    rw [hs] at h
    cases o with
    | none =>
      cases h
      exact (ht rfl).elim
    | some c =>
      have hsuffix := Tidy.token (c := c) s₁
      simp only at h
      rw [h] at hsuffix
      exact Nat.lt_of_le_of_lt (List.IsSuffix.length_le hsuffix) (length_lt_of_skipLines hs)

end Lexer

namespace Feed

/-- The lexer is asked for one token after another, in the states that are listed, until there is
an end mark or a failure; this is what a parser has in front of it. -/
inductive Gathers : Option Token → Lexer → List Lexer → List Reading × Ending → Prop where
  | failure {comment : Option Token} {s s' : Lexer} {e : Failure} : s.next = .error e s' →
      Gathers comment s [s] ([], .failure e comment s'.line s'.column)
  | finish {comment : Option Token} {s s' : Lexer} {t : Token} : s.next = .ok t s' →
      t.kind = .eos → Gathers comment s [s] ([], .marks t.line t.column)
  | comment {comment : Option Token} {s s' : Lexer} {t : Token} {l : List Lexer}
      {r : List Reading × Ending} : s.next = .ok t s' → t.kind = .comment →
      Gathers (some t) s' l r → Gathers comment s (s :: l) r
  | token {comment : Option Token} {s s' : Lexer} {t : Token} {l : List Lexer}
      {r : List Reading × Ending} : s.next = .ok t s' → t.kind ≠ .eos → t.kind ≠ .comment →
      Gathers none s' l r → Gathers comment s (s :: l) (⟨t, s'.line, s'.column⟩ :: r.1, r.2)

theorem exists_gathers {fuel : Nat} {s : Lexer} (hs : s.rest.length < fuel)
    (comment : Option Token) : ∃ l, Gathers comment s l (gather fuel comment s) := by
  induction fuel generalizing s comment with
  | zero => cases hs
  | succ fuel ih =>
    rw [gather]
    cases h : s.next with
    | error e s' => exact ⟨[s], .failure h⟩
    | ok t s' =>
      by_cases heos : t.kind = .eos
      · simp only [if_pos heos]
        exact ⟨[s], .finish h heos⟩
      · have hlt := Lexer.length_lt_of_next h heos
        by_cases hcomment : t.kind = .comment
        · simp only [if_neg heos, if_pos hcomment]
          obtain ⟨l, hl⟩ := ih (s := s') (by omega) (some t)
          exact ⟨s :: l, .comment h hcomment hl⟩
        · simp only [if_neg heos, if_neg hcomment]
          obtain ⟨l, hl⟩ := ih (s := s') (by omega) none
          exact ⟨s :: l, .token h heos hcomment hl⟩

namespace Gathers

variable {comment : Option Token} {s : Lexer} {l : List Lexer} {r : List Reading × Ending}

theorem mem_le (h : Gathers comment s l r) {s' : Lexer} (hs' : s' ∈ l) :
    s'.rest.length ≤ s.rest.length := by
  induction h with
  | failure | finish => rw [List.mem_singleton.1 hs']
  | comment hs ht _ ih =>
    obtain rfl | hs' := List.mem_cons.1 hs'
    · exact Nat.le_refl _
    · exact Nat.le_trans (ih hs') (Nat.le_of_lt (Lexer.length_lt_of_next hs (by rw [ht]; decide)))
  | token hs ht _ _ ih =>
    obtain rfl | hs' := List.mem_cons.1 hs'
    · exact Nat.le_refl _
    · exact Nat.le_trans (ih hs') (Nat.le_of_lt (Lexer.length_lt_of_next hs ht))

/-- Between any two calls of the lexer something is consumed. -/
theorem pairwise (h : Gathers comment s l r) :
    l.Pairwise fun a b => b.rest.length < a.rest.length := by
  induction h with
  | failure | finish => exact List.pairwise_singleton _ _
  | comment hs ht h ih =>
    have hlt := Lexer.length_lt_of_next hs (by rw [ht]; decide)
    exact .cons (fun _ hb => Nat.lt_of_le_of_lt (h.mem_le hb) hlt) ih
  | token hs ht _ h ih =>
    have hlt := Lexer.length_lt_of_next hs ht
    exact .cons (fun _ hb => Nat.lt_of_le_of_lt (h.mem_le hb) hlt) ih

theorem length_le (h : Gathers comment s l r) : l.length ≤ s.rest.length + 1 := by
  induction h with
  | failure | finish => exact Nat.le_add_left 1 _
  | comment hs ht _ ih =>
    have := Lexer.length_lt_of_next hs (by rw [ht]; decide)
    rw [List.length_cons]
    omega
  | token hs ht _ _ ih =>
    have := Lexer.length_lt_of_next hs ht
    rw [List.length_cons]
    omega

theorem length_lt (h : Gathers comment s l r) : r.1.length < l.length := by
  induction h with
  | failure | finish => exact Nat.zero_lt_one
  | comment _ _ _ ih => exact Nat.lt_succ_of_lt ih
  | token _ _ _ _ ih => exact Nat.succ_lt_succ ih

theorem faults (h : Gathers comment s l r) {e : Failure} (he : r.2.failure? = some e) :
    Lexer.Faults s.rest e := by
  induction h with
  | @failure _ s _ _ hnext =>
    have htidy := Lexer.Tidy.next s
    rw [hnext] at htidy
    cases he
    exact htidy.2
  | finish => cases he
  | @comment _ s _ _ _ _ hnext _ _ ih | @token _ s _ _ _ _ hnext _ _ _ ih =>
    have htidy := Lexer.Tidy.next s
    rw [hnext] at htidy
    exact (ih he).mono htidy

end Gathers

end Feed
end StackLang
