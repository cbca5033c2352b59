import Mathlib.Data.List.TakeWhile
import StackLang.Proofs.Failures
import StackLang.Proofs.Rounds

namespace StackLang.Lexer

open Text

variable {α β : Type}

/-- What is left unread. -/
def left : Outcome α → Source
  | .ok _ s | .error _ s => s.rest

theorem Consumes.left_suffix {src : Source} {o : Outcome α} (h : Consumes src o) :
    left o <:+ src := by
  cases o with
  | ok a s => exact h
  | error e s => exact h.1

theorem left_skipLines_suffix (c : Cell) (cs : Source) (line column : Nat) :
    left (skipLines (c :: cs) line column) <:+ cs := by
  rw [skipLines]
  split
  · exact List.suffix_rfl
  · split
    · exact (Tidy.start ⟨cs, line + 1, 0⟩).left_suffix
    · split
      · exact Tidy.skipBlanks.left_suffix
      · exact List.suffix_rfl

theorem left_bind_suffix {x : Scan α} {f : α → Scan β} (hf : ∀ a, Tidy (f a)) (s : Lexer) :
    left ((x >>= f) s) <:+ left (x s) := by
  simp only [Bind.bind, EStateM.bind]
  cases x s with
  | ok a s' => exact (hf a s').left_suffix
  | error e s' => exact List.suffix_rfl

/-- A call consumes something, if there is something, whether it gives a token or fails. -/
theorem length_left_next_lt {s : Lexer} (hs : s.rest ≠ []) :
    (left (next s)).length < s.rest.length := by
  have hnext : left (next s) <:+ left (start s) := by
    refine left_bind_suffix (fun o => ?_) s
    cases o with
    | none => exact .here
    | some c => exact .token
  rw [start] at hnext
  obtain ⟨c, cs, hrest⟩ := List.exists_cons_of_ne_nil hs
  rw [hrest] at hnext ⊢
  exact Nat.lt_succ_of_le (hnext.trans (left_skipLines_suffix c cs s.line s.column)).length_le

theorem rest_afterCalls_one (s : Lexer) : (afterCalls 1 s).rest = left (next s) := by
  rw [afterCalls]
  cases next s with
  | ok t s' => rfl
  | error e s' => rfl

theorem afterCalls_add (i j : Nat) (s : Lexer) : afterCalls (i + j) s = afterCalls j (afterCalls i s) := by
  induction i generalizing s with
  | zero => rw [Nat.zero_add]; rfl
  | succ i ih =>
    rw [Nat.succ_add, afterCalls, afterCalls]
    split <;> exact ih _

/-- Every result has the property. -/
def Ensures (P : α → Prop) (x : Scan α) : Prop := ∀ s a s', x s = .ok a s' → P a

namespace Ensures

variable {P : β → Prop}

theorem pure {b : β} (h : P b) : Ensures P (pure b) := by
  rintro s a s' ⟨⟩
  exact h

theorem throw {e : Failure} : Ensures P (throw e) := by
  rintro s a s' ⟨⟩

theorem bind {x : Scan α} {f : α → Scan β} (h : ∀ a, Ensures P (f a)) : Ensures P (x >>= f) := by
  intro s b s' hrun
  simp only [Bind.bind, EStateM.bind] at hrun
  cases hx : x s with
  | ok a s₁ =>
    rw [hx] at hrun
    exact h a s₁ b s' hrun
  | error e s₁ =>
    rw [hx] at hrun
    cases hrun

theorem ite {c : Prop} [Decidable c] {x y : Scan β} (hx : Ensures P x) (hy : Ensures P y) :
    Ensures P (if c then x else y) := by
  split <;> assumption

end Ensures

/-- Neither an end mark nor a number. -/
def Ordinary (k : Token.Kind) : Prop := k ≠ .eos ∧ k ≠ .intVal ∧ k ≠ .doubleVal

instance (k : Token.Kind) : Decidable (Ordinary k) := inferInstanceAs (Decidable (_ ∧ _))

theorem ordinary_reserved (w : String) : Ordinary ((Token.reserved? w).getD .id) := by
  unfold Token.reserved?
  split <;> decide

theorem ordinary_symbol {c : Char} {k : Token.Kind} {own : Bool} (h : symbol? c = some (k, own)) :
    Ordinary k := by
  unfold symbol? at h
  split at h <;> cases h <;> decide

namespace Ensures

variable {k : Token.Kind} {w : String} {line column : Nat}

theorem made {Q : Token.Kind → Prop} (h : Q k) :
    Ensures (Q ·.kind) (Pure.pure (Token.mk k w line column)) := .pure h

theorem here {Q : Token.Kind → Prop} (h : Q k) : Ensures (Q ·.kind) (here k w) :=
  .bind fun _ => .made h

theorem symbol {c : Char} {own : Bool} (h : Ordinary k) :
    Ensures (Ordinary ·.kind) (symbol c k own) :=
  .bind fun _ => .bind fun _ => .bind fun _ => .made h

theorem semicolon : Ensures (Ordinary ·.kind) semicolon := by
  refine .bind fun _ => .bind fun _ => .ite ?_ ?_
  · exact .bind fun _ => .bind fun _ => .bind fun _ => .made (by decide)
  · exact .bind fun _ => .bind fun _ => .made (by decide)

theorem slash : Ensures (Ordinary ·.kind) slash := by
  refine .bind fun _ => .bind fun _ => .ite (.bind fun _ => .made (by decide)) ?_
  exact .bind fun _ => .here (by decide)

theorem comparison {c : Char} {alone withEqual : Token.Kind} (h : Ordinary alone)
    (h' : Ordinary withEqual) : Ensures (Ordinary ·.kind) (comparison c alone withEqual) := by
  refine .bind fun _ => .ite ?_ (.bind fun _ => .here h)
  exact .bind fun _ => .bind fun _ => .here h'

theorem less : Ensures (Ordinary ·.kind) less := by
  refine .bind fun _ => .bind fun _ => .ite ?_ (.bind fun _ => .made (by decide))
  exact .bind fun _ => .bind fun _ => .here (by decide)

theorem bang : Ensures (Ordinary ·.kind) bang := by
  refine .bind fun _ => .ite ?_ .throw
  exact .bind fun _ => .bind fun _ => .bind fun _ => .here (by decide)

theorem quoted : Ensures (Ordinary ·.kind) quoted := by
  refine .bind fun _ => .bind fun _ => .bind fun _ => .ite ?_ ?_
  · exact .bind fun _ => .bind fun _ => .bind fun _ => .made (by decide)
  · exact .bind fun _ => .bind fun _ => .made (by decide)

theorem word {c : Char} : Ensures (Ordinary ·.kind) (word c) := by
  refine .bind fun _ => .bind fun w => .bind fun _ => .bind fun _ => .ite ?_ ?_
  · exact .bind fun _ => .bind fun _ => .made (ordinary_reserved w)
  · exact .bind fun _ => .made (ordinary_reserved w)

theorem stray {c : Char} : Ensures (Ordinary ·.kind) (stray c) :=
  .ite .throw (.bind fun _ => .throw)

theorem closing : Ensures (·.kind ≠ .eos) closing := by
  refine .bind fun _ => .bind fun _ => .bind fun o => ?_
  cases o with
  | none => exact .here (Q := (· ≠ .eos)) (by decide)
  | some d =>
    refine .ite (.bind fun _ => .bind fun _ => ?_) (.here (Q := (· ≠ .eos)) (by decide))
    exact .made (Q := (· ≠ .eos)) (by decide)

theorem numeral {c : Char} : Ensures (·.kind ≠ .eos) (numeral c) := by
  refine .bind fun _ => .bind fun _ => .ite .throw (.bind fun lexeme => .bind fun _ => ?_)
  split
  · exact .throw
  · exact .bind fun _ => .made (Q := (· ≠ .eos)) (by split <;> decide)

end Ensures

theorem token_cases {c : Char} {s s' : Lexer} {t : Token} (h : token c s = .ok t s') :
    Ordinary t.kind ∨ closing s = .ok t s' ∨ isDigit c ∧ numeral c s = .ok t s' := by
  unfold token at h
  cases hsymbol : symbol? c with
  | some x =>
    rw [hsymbol] at h
    exact .inl (Ensures.symbol (ordinary_symbol hsymbol) _ _ _ h)
  | none =>
    rw [hsymbol] at h
    dsimp only at h
    split at h
    · exact .inl (Ensures.semicolon _ _ _ h)
    · exact .inl (Ensures.slash _ _ _ h)
    · exact .inr (.inl h)
    · exact .inl (Ensures.comparison (by decide) (by decide) _ _ _ h)
    · exact .inl (Ensures.less _ _ _ h)
    · exact .inl (Ensures.comparison (by decide) (by decide) _ _ _ h)
    · exact .inl (Ensures.bang _ _ _ h)
    · exact .inl (Ensures.quoted _ _ _ h)
    · by_cases hdigit : isDigit c
      · rw [if_pos hdigit] at h
        exact .inr (.inr ⟨hdigit, h⟩)
      · rw [if_neg hdigit] at h
        exact .inl (Ensures.ite Ensures.word Ensures.stray _ _ _ h)

theorem token_ne_eos {c : Char} {s s' : Lexer} {t : Token} (h : token c s = .ok t s') :
    t.kind ≠ .eos := by
  obtain ht | ht | ⟨-, ht⟩ := token_cases h
  · exact ht.1
  · exact Ensures.closing _ _ _ ht
  · exact Ensures.numeral _ _ _ ht

/-- The next call gives an end mark. -/
def Finished (s : Lexer) : Prop := ∃ t s', next s = .ok t s' ∧ t.kind = .eos

theorem start_of_eos {s s' : Lexer} {t : Token} (h : next s = .ok t s') (ht : t.kind = .eos) :
    start s = .ok none s' := by
  simp only [next, Bind.bind, EStateM.bind] at h
  cases hs : start s with
  | error e s₁ =>
    rw [hs] at h
    cases h
  | ok o s₁ =>
    rw [hs] at h
    cases o with
    | none => cases h; rfl
    | some c => exact absurd ht (token_ne_eos h)

theorem rest_skipBlanks {src : Source} {line column : Nat} {s : Lexer}
    (h : skipBlanks line src column = .ok none s) : s.rest = [] := by
  induction src generalizing column with
  | nil => cases h; rfl
  | cons c cs ih =>
    rw [skipBlanks] at h
    split at h
    · cases h
    · split at h
      · exact ih h
      · cases h

theorem rest_skipLines {src : Source} {line column : Nat} {s : Lexer}
    (h : skipLines src line column = .ok none s) : s.rest = [] := by
  induction src generalizing line column with
  | nil => cases h; rfl
  | cons c cs ih =>
    rw [skipLines] at h
    split at h
    · cases h
    · split at h
      · exact ih h
      · split at h
        · exact rest_skipBlanks h
        · cases h

theorem rest_of_eos {s s' : Lexer} {t : Token} (h : next s = .ok t s') (ht : t.kind = .eos) :
    s'.rest = [] := rest_skipLines (start_of_eos h ht)

theorem finished_of_rest {s : Lexer} (h : s.rest = []) : Finished s := by
  obtain ⟨rest, line, column⟩ := s
  cases h
  exact ⟨_, _, rfl, rfl⟩

theorem finished_facing_iff (cs : List Char) (line column : Nat) :
    Finished (facing cs line column) ↔ cs.all isBlank := by
  obtain ⟨line', column', hnext⟩ := next_dropWhile cs line column
  have hall : cs.all isBlank ↔ cs.dropWhile isBlank = [] := by
    rw [List.dropWhile_eq_nil_iff, List.all_eq_true]
  rw [hall, Finished, hnext]
  constructor
  · rintro ⟨t, s', h, ht⟩
    have hstart := start_of_eos h ht
    cases hdrop : cs.dropWhile isBlank with
    | nil => rfl
    | cons c r =>
      have hc : isBlank c = false := by
        simpa [hdrop] using List.head?_dropWhile_not isBlank cs
      have hline : c ≠ '\n' := by rintro rfl; cases hc
      rw [hdrop, start, facing, List.map_cons, skipLines, Cell.ofChar] at hstart
      simp [hline, hc] at hstart
  · intro h
    rw [h]
    exact finished_of_rest rfl

theorem Finished.after {s : Lexer} (h : Finished s) (n : Nat) : Finished (afterCalls n s) := by
  obtain ⟨t, s', hnext, ht⟩ := h
  cases n with
  | zero => exact ⟨t, s', hnext, ht⟩
  | succ n =>
    refine finished_of_rest (List.suffix_nil.1 ?_)
    rw [Lexer.afterCalls, hnext, ← rest_of_eos hnext ht]
    exact rest_afterCalls_suffix n s'

theorem exists_finished (s : Lexer) : ∃ i ≤ s.rest.length, Finished (afterCalls i s) := by
  induction hn : s.rest.length using Nat.strong_induction_on generalizing s with
  | _ n ih =>
  by_cases hs : s.rest = []
  · exact ⟨0, Nat.zero_le n, finished_of_rest hs⟩
  · have hlt := length_left_next_lt hs
    rw [← rest_afterCalls_one, hn] at hlt
    obtain ⟨i, hi, hfinished⟩ := ih _ hlt (afterCalls 1 s) rfl
    refine ⟨1 + i, by omega, ?_⟩
    rw [afterCalls_add]
    exact hfinished

/-- The lexer makes progress on every text, wherever it stands. Its loops end, and so does a call; a
call consumes a character if there is one, whether it gives a token or fails. An end mark is given
where nothing but blanks is left, and then all of it is consumed. So no more calls than there are
characters lead up to one, and behind it there is nothing else. -/
theorem next_progress (cs : List Char) (line column : Nat) :
    let s := facing cs line column
    LoopsEnd s ∧
    ((∃ t s', next s = .ok t s') ∨ ∃ x s', next s = .error (.lexical x) s') ∧
    (afterCalls 1 s).rest <:+ s.rest ∧ (s.rest ≠ [] → (afterCalls 1 s).rest.length < s.rest.length) ∧
    (Finished s ↔ cs.all isBlank) ∧ (Finished s → (afterCalls 1 s).rest = []) ∧
    (∃ i ≤ cs.length, Finished (afterCalls i s)) ∧
    ∀ i j, i ≤ j → Finished (afterCalls i s) → Finished (afterCalls j s) := by
  intro s
  have hplain : s.rest.Plain := by
    intro c hc
    obtain ⟨x, -, rfl⟩ := List.mem_map.1 hc
    exact ⟨rfl, rfl⟩
  refine ⟨loopsEnd cs line column, next_of_plain hplain, rest_afterCalls_suffix 1 s, ?_,
    finished_facing_iff cs line column, ?_, ?_, ?_⟩
  · intro hs
    rw [rest_afterCalls_one]
    exact length_left_next_lt hs
  · rintro ⟨t, s', hnext, ht⟩
    rw [rest_afterCalls_one, hnext]
    exact rest_of_eos hnext ht
  · have h := exists_finished s
    rwa [length_facing] at h
  · intro i j hij h
    obtain ⟨n, rfl⟩ := Nat.exists_eq_add_of_le hij
    rw [afterCalls_add]
    exact h.after n

end StackLang.Lexer
