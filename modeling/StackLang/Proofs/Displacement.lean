import StackLang.Proofs.Progress

namespace StackLang.Lexer

open Text

/-- How the places of two lexers are related. Lines and columns are related apart from each other,
and what a lexer does to its place keeps the relations. -/
structure Displacement where
  line : Nat → Nat → Prop
  column : Nat → Nat → Prop
  line_succ {m n : Nat} : line m n → line (m + 1) (n + 1)
  column_succ {m n : Nat} : column m n → column (m + 1) (n + 1)
  column_pred {m n : Nat} : column m n → column (m - 1) (n - 1)
  column_zero : column 0 0

namespace Displacement

variable {D : Displacement} {α β γ δ : Type}

theorem column_one : D.column 1 1 := D.column_succ D.column_zero

variable (D) in
/-- Two lexers in front of the same units. -/
structure Aligned (s t : Lexer) : Prop where
  rest : s.rest = t.rest
  line : D.line s.line t.line
  column : D.column s.column t.column

variable (D) in
structure Tokens (t u : Token) : Prop where
  kind : t.kind = u.kind
  lexeme : t.lexeme = u.lexeme
  line : D.line t.line u.line
  column : D.column t.column u.column

variable (D) in
/-- The same failure. One of them tells the place. -/
inductive Failures : Failure → Failure → Prop
  | crash (k : Crash) : Failures (.crash k) (.crash k)
  | plain (x : LexError) (hx : ∀ what l c, x ≠ .located what l c) :
      Failures (.lexical x) (.lexical x)
  | located (what : String) {m n m' n' : Nat} : D.line m m' → D.column n n' →
      Failures (.lexical (.located what m n)) (.lexical (.located what m' n'))

variable (D) in
inductive Outcomes (R : α → β → Prop) : Outcome α → Outcome β → Prop
  | ok {a : α} {b : β} {s t : Lexer} : R a b → D.Aligned s t → Outcomes R (.ok a s) (.ok b t)
  | error {e f : Failure} {s t : Lexer} : D.Failures e f → D.Aligned s t →
      Outcomes R (.error e s) (.error f t)

variable (D) in
/-- From related places two scanners come to related outcomes. -/
def Parallels (R : α → β → Prop) (x : Scan α) (y : Scan β) : Prop :=
  ∀ s t, D.Aligned s t → D.Outcomes R (x s) (y t)

namespace Parallels

variable {R : α → β → Prop} {S : γ → δ → Prop}

protected theorem pure {a : α} {b : β} (h : R a b) : D.Parallels R (pure a) (pure b) :=
  fun _ _ hst => .ok h hst

protected theorem throw {x : LexError} (hx : ∀ what l c, x ≠ .located what l c) :
    D.Parallels R (throw (.lexical x)) (throw (.lexical x)) :=
  fun _ _ hst => .error (.plain x hx) hst

theorem bind {x : Scan α} {y : Scan β} {f : α → Scan γ} {g : β → Scan δ} (hx : D.Parallels R x y)
    (hf : ∀ a b, R a b → D.Parallels S (f a) (g b)) : D.Parallels S (x >>= f) (y >>= g) := by
  intro s t hst
  have h := hx s t hst
  simp only [Bind.bind, EStateM.bind]
  generalize x s = o, y t = o' at h
  cases h with
  | ok hR hst' => exact hf _ _ hR _ _ hst'
  | error hfail hst' => exact .error hfail hst'

theorem bind_eq {x y : Scan α} {f : α → Scan γ} {g : α → Scan δ} (hx : D.Parallels Eq x y)
    (hf : ∀ a, D.Parallels S (f a) (g a)) : D.Parallels S (x >>= f) (y >>= g) :=
  hx.bind fun a _ h => h ▸ hf a

/-- It suffices to look at two places in front of one source. -/
theorem of_places {x : Scan α} {y : Scan β} (h : ∀ ⦃src l l' c c'⦄, D.line l l' → D.column c c' →
    D.Outcomes R (x ⟨src, l, c⟩) (y ⟨src, l', c'⟩)) : D.Parallels R x y := by
  rintro ⟨src, l, c⟩ ⟨src', l', c'⟩ ⟨hsrc, hl, hc⟩
  obtain rfl : src = src' := hsrc
  exact h hl hc

theorem get : D.Parallels D.Aligned get get := fun _ _ hst => .ok hst hst

theorem modify {f g : Lexer → Lexer} (h : ∀ s t, D.Aligned s t → D.Aligned (f s) (g t)) :
    D.Parallels Eq (modify f) (modify g) :=
  fun s t hst => .ok rfl (h s t hst)

theorem ite {c : Prop} [Decidable c] {x x' : Scan α} {y y' : Scan β} (hx : D.Parallels R x y)
    (hy : D.Parallels R x' y') : D.Parallels R (if c then x else x') (if c then y else y') := by
  split <;> assumption

theorem read : D.Parallels Eq read read := by
  apply of_places
  intro src l l' c c' hl hc
  have hc := D.column_succ hc
  cases src with
  | nil => exact .ok rfl ⟨rfl, hl, hc⟩
  | cons u src =>
    simp only [Lexer.read]
    cases u.value with
    | none => exact .error (.crash _) ⟨rfl, hl, hc⟩
    | some x => exact .ok rfl ⟨rfl, hl, hc⟩

theorem peek : D.Parallels Eq peek peek := by
  apply of_places
  intro src l l' c c' hl hc
  cases src with
  | nil => exact .ok rfl ⟨rfl, hl, hc⟩
  | cons u src =>
    simp only [Lexer.peek]
    cases u.sight with
    | none => exact .error (.crash _) ⟨rfl, hl, hc⟩
    | some x => exact .ok rfl ⟨rfl, hl, hc⟩

theorem peekIs {p : Char → Bool} : D.Parallels Eq (peekIs p) (peekIs p) :=
  peek.bind_eq fun _ => .pure rfl

theorem drop : D.Parallels Eq (discard Lexer.read) (discard Lexer.read) :=
  read.bind_eq fun _ => .pure rfl

theorem skipBlank : D.Parallels Eq skipBlank skipBlank := by
  apply peekIs.bind_eq
  intro b
  exact .ite drop (.pure rfl)

theorem moveToNextLine : D.Parallels Eq moveToNextLine moveToNextLine := by
  apply peek.bind_eq
  intro o
  cases o with
  | none => exact .modify fun s t h => ⟨h.rest, h.line, D.column_one⟩
  | some c =>
    apply Parallels.ite
    · exact drop.bind_eq fun _ => .modify fun s t h => ⟨h.rest, D.line_succ h.line, D.column_one⟩
    · exact .ite drop (.pure rfl)

end Parallels

section Loops

variable {l l' c c' : Nat} {src : Source}

theorem collect {p : Char → Bool} (hl : D.line l l') (hc : D.column c c') :
    D.Outcomes Eq (Lexer.collect p l src c) (Lexer.collect p l' src c') := by
  induction src generalizing c c' with
  | nil => exact .ok rfl ⟨rfl, hl, hc⟩
  | cons u src ih =>
    have hnext := ih (D.column_succ hc)
    simp only [Lexer.collect]
    cases u.sight with
    | none => exact .error (.crash _) ⟨rfl, hl, hc⟩
    | some x =>
      by_cases hx : p x
      · simp only [hx, if_true]
        cases u.value with
        | none => exact .error (.crash _) ⟨rfl, hl, D.column_succ hc⟩
        | some y =>
          simp only
          generalize Lexer.collect p l src (c + 1) = o at hnext
          generalize Lexer.collect p l' src (c' + 1) = o' at hnext
          cases hnext with
          | ok h hst => exact .ok (h ▸ rfl) hst
          | error h hst => exact .error h hst
      · simp only [hx]
        exact .ok rfl ⟨rfl, hl, hc⟩

theorem skipBlanks (hl : D.line l l') (hc : D.column c c') :
    D.Outcomes Eq (Lexer.skipBlanks l src c) (Lexer.skipBlanks l' src c') := by
  induction src generalizing c c' with
  | nil => exact .ok rfl ⟨rfl, hl, D.column_succ hc⟩
  | cons u src ih =>
    have hc := D.column_succ hc
    simp only [Lexer.skipBlanks]
    cases u.value with
    | none => exact .error (.crash _) ⟨rfl, hl, hc⟩
    | some x =>
      by_cases hx : isBlank x
      · simp only [hx, if_true]
        exact ih hc
      · simp only [hx]
        exact .ok rfl ⟨rfl, hl, hc⟩

theorem skipLines (hl : D.line l l') (hc : D.column c c') :
    D.Outcomes Eq (Lexer.skipLines src l c) (Lexer.skipLines src l' c') := by
  induction src generalizing l l' c c' with
  | nil => exact .ok rfl ⟨rfl, hl, D.column_succ hc⟩
  | cons u src ih =>
    have hc := D.column_succ hc
    simp only [Lexer.skipLines]
    cases u.value with
    | none => exact .error (.crash _) ⟨rfl, hl, hc⟩
    | some x =>
      by_cases hline : x = '\n'
      · simp only [hline, if_true]
        exact ih (D.line_succ hl) D.column_zero
      · by_cases hx : isBlank x
        · simp only [hline, hx, if_true, if_false]
          exact skipBlanks hl hc
        · simp only [hline, hx, if_false]
          exact .ok rfl ⟨rfl, hl, hc⟩

theorem commentText (hl : D.line l l') (hc : D.column c c') :
    D.Outcomes Eq (Lexer.commentText l src c) (Lexer.commentText l' src c') := by
  induction src generalizing c c' with
  | nil => exact .ok rfl ⟨rfl, hl, D.column_succ hc⟩
  | cons u src ih =>
    have hc := D.column_succ hc
    have hnext := ih hc
    simp only [Lexer.commentText]
    cases u.value with
    | none => exact .error (.crash _) ⟨rfl, hl, hc⟩
    | some x =>
      by_cases hline : x = '\n'
      · simp only [hline, if_true]
        have hend : D.Parallels Eq
            (do unless ← Lexer.peekIs isWordChar do discard Lexer.read
                return [] : Scan (List Char))
            (do unless ← Lexer.peekIs isWordChar do discard Lexer.read
                return [] : Scan (List Char)) := by
          apply Parallels.peekIs.bind_eq
          intro b
          exact .ite (.pure rfl) (Parallels.drop.bind_eq fun _ => .pure rfl)
        exact hend _ _ ⟨rfl, D.line_succ hl, D.column_zero⟩
      · simp only [hline, if_false]
        generalize Lexer.commentText l src (c + 1) = o at hnext
        generalize Lexer.commentText l' src (c' + 1) = o' at hnext
        cases hnext with
        | ok h hst => exact .ok (h ▸ rfl) hst
        | error h hst => exact .error h hst

theorem wordText {run : Bool} {w : String} (hl : D.line l l') (hc : D.column c c') :
    D.Outcomes Eq (Lexer.wordText l run w src c) (Lexer.wordText l' run w src c') := by
  fun_induction Lexer.wordText l run w src c generalizing c' with
  | case1 => exact .ok rfl ⟨rfl, hl, hc⟩
  | case2 =>
    rw [Lexer.wordText]
    simp only [*]
    exact .error (.crash _) ⟨rfl, hl, hc⟩
  | case3 | case6 | case8 =>
    rw [Lexer.wordText]
    simp only [*]
    exact .error (.crash _) ⟨rfl, hl, D.column_succ hc⟩
  | case5 =>
    rw [Lexer.wordText]
    simp only [*]
    exact .ok rfl ⟨rfl, hl, hc⟩
  | case7 =>
    rw [Lexer.wordText]
    simp only [*]
    exact .ok rfl ⟨rfl, hl, D.column_succ hc⟩
  | case10 =>
    rw [Lexer.wordText]
    simp only [*]
    exact .ok rfl ⟨rfl, hl, D.column_succ (D.column_succ (D.column_succ hc))⟩
  | case11 =>
    rw [Lexer.wordText]
    simp only [*]
    exact .error (.crash _) ⟨rfl, hl, D.column_succ (D.column_succ (D.column_succ hc))⟩
  | case4 | case13 =>
    rename_i ih
    convert ih (D.column_succ hc) using 1
    conv_lhs => rw [Lexer.wordText]
    simp only [*, ↓reduceIte, Bool.false_eq_true]
  | case9 =>
    rename_i ih
    convert ih (D.column_succ (D.column_succ hc)) using 1
    conv_lhs => rw [Lexer.wordText]
    simp only [*, ↓reduceIte, Bool.false_eq_true]
  | case12 =>
    rename_i ih
    convert ih (D.column_succ (D.column_succ (D.column_succ hc))) using 1
    conv_lhs => rw [Lexer.wordText]
    simp only [*, ↓reduceIte, Bool.false_eq_true, Char.reduceEq, and_self]

end Loops

namespace Parallels

theorem readWhile {p : Char → Bool} : D.Parallels Eq (readWhile p) (readWhile p) := by
  apply of_places
  exact fun _ _ _ _ _ => collect

theorem start : D.Parallels Eq start start := by
  apply of_places
  exact fun _ _ _ _ _ => skipLines

theorem here {k : Token.Kind} {w : String} : D.Parallels D.Tokens (here k w) (here k w) :=
  get.bind fun _ _ h => .pure ⟨rfl, rfl, h.line, h.column⟩

theorem symbol {c : Char} {k : Token.Kind} {own : Bool} :
    D.Parallels D.Tokens (symbol c k own) (symbol c k own) := by
  apply get.bind
  intro s t hst
  apply moveToNextLine.bind_eq
  intro _
  apply get.bind
  intro s' t' hst'
  refine .pure ⟨rfl, rfl, ?_, hst'.column⟩
  cases own with
  | false => exact hst'.line
  | true => exact hst.line

theorem semicolon : D.Parallels D.Tokens semicolon semicolon := by
  apply get.bind
  intro s t hst
  apply peekIs.bind_eq
  intro b
  have hend : D.Parallels D.Tokens
      (do return ⟨.semicolon, ";", s.line, (← MonadState.get).column⟩ : Scan Token)
      (do return ⟨.semicolon, ";", t.line, (← MonadState.get).column⟩ : Scan Token) :=
    get.bind fun _ _ h => .pure ⟨rfl, rfl, hst.line, h.column⟩
  apply Parallels.ite
  · apply drop.bind_eq
    intro _
    refine bind_eq (.modify ?_) fun _ => hend
    exact fun s t h => ⟨h.rest, D.line_succ h.line, D.column_one⟩
  · exact skipBlank.bind_eq fun _ => hend

theorem closing : D.Parallels D.Tokens closing closing := by
  apply get.bind
  intro s t hst
  apply moveToNextLine.bind_eq
  intro _
  apply peek.bind_eq
  intro o
  cases o with
  | none => exact here
  | some d =>
    apply Parallels.ite
    · exact drop.bind_eq fun _ => get.bind fun _ _ h => .pure ⟨rfl, rfl, hst.line, h.column⟩
    · exact here

theorem slash : D.Parallels D.Tokens slash slash := by
  apply get.bind
  intro s t hst
  apply peekIs.bind_eq
  intro b
  apply Parallels.ite
  · have htext : D.Parallels Eq (fun s => Lexer.commentText s.line s.rest s.column)
        (fun s => Lexer.commentText s.line s.rest s.column) := by
      apply of_places
      exact fun _ _ _ _ _ => commentText
    exact htext.bind_eq fun text => .pure ⟨rfl, rfl, hst.line, hst.column⟩
  · exact skipBlank.bind_eq fun _ => here

theorem comparison {c : Char} {alone withEqual : Token.Kind} :
    D.Parallels D.Tokens (comparison c alone withEqual) (comparison c alone withEqual) := by
  apply peekIs.bind_eq
  intro b
  apply Parallels.ite
  · exact drop.bind_eq fun _ => skipBlank.bind_eq fun _ => here
  · exact skipBlank.bind_eq fun _ => here

theorem less : D.Parallels D.Tokens less less := by
  apply get.bind
  intro s t hst
  apply peekIs.bind_eq
  intro b
  apply Parallels.ite
  · exact drop.bind_eq fun _ => skipBlank.bind_eq fun _ => here
  · exact moveToNextLine.bind_eq fun _ => .pure ⟨rfl, rfl, hst.line, hst.column⟩

theorem bang : D.Parallels D.Tokens bang bang := by
  apply peekIs.bind_eq
  intro b
  apply Parallels.ite
  · apply drop.bind_eq
    intro _
    refine bind_eq (.modify ?_) fun _ => skipBlank.bind_eq fun _ => here
    exact fun s t h => ⟨h.rest, h.line, D.column_pred h.column⟩
  · exact .throw (fun _ _ _ h => by cases h)

theorem quoted : D.Parallels D.Tokens quoted quoted := by
  apply get.bind
  intro s t hst
  apply readWhile.bind_eq
  intro inner
  have hend : D.Parallels D.Tokens
      (do let blanks ← Lexer.readWhile isBlank
          return ⟨.stringVal, String.ofList (trim (inner ++ blanks)), (← MonadState.get).line,
            s.column⟩ : Scan Token)
      (do let blanks ← Lexer.readWhile isBlank
          return ⟨.stringVal, String.ofList (trim (inner ++ blanks)), (← MonadState.get).line,
            t.column⟩ : Scan Token) := by
    apply readWhile.bind_eq
    intro blanks
    exact get.bind fun _ _ h => .pure ⟨rfl, rfl, h.line, hst.column⟩
  apply peekIs.bind_eq
  intro b
  exact .ite (drop.bind_eq fun _ => hend) hend

theorem fraction {whole : List Char} : D.Parallels Eq (fraction whole) (fraction whole) := by
  apply peekIs.bind_eq
  intro b
  apply Parallels.ite
  · apply drop.bind_eq
    intro _
    apply peekIs.bind_eq
    intro b
    apply Parallels.ite
    · exact readWhile.bind_eq fun _ => .pure rfl
    · exact .throw (fun _ _ _ h => by cases h)
  · exact .pure rfl

theorem numeral {c : Char} : D.Parallels D.Tokens (numeral c) (numeral c) := by
  apply get.bind
  intro s t hst
  apply readWhile.bind_eq
  intro more
  apply Parallels.ite
  · exact .throw (fun _ _ _ h => by cases h)
  · apply fraction.bind_eq
    intro lexeme
    apply skipBlank.bind_eq
    intro _
    split
    · exact .throw (fun _ _ _ h => by cases h)
    · exact get.bind fun _ _ h => .pure ⟨rfl, rfl, h.line, hst.column⟩

theorem word {c : Char} : D.Parallels D.Tokens (word c) (word c) := by
  apply get.bind
  intro s t hst
  have htext : D.Parallels Eq (fun s => Lexer.wordText s.line false c.toString s.rest s.column)
      (fun s => Lexer.wordText s.line false c.toString s.rest s.column) := by
    apply of_places
    exact fun _ _ _ _ _ => wordText
  apply htext.bind_eq
  intro w
  apply skipBlank.bind_eq
  intro _
  apply peekIs.bind_eq
  intro b
  generalize (Token.reserved? w).getD .id = k
  have hend : D.Parallels D.Tokens
      (do return ⟨k, w, (← MonadState.get).line, s.column⟩ : Scan Token)
      (do return ⟨k, w, (← MonadState.get).line, t.column⟩ : Scan Token) :=
    get.bind fun _ _ h => .pure ⟨rfl, rfl, h.line, hst.column⟩
  exact .ite (drop.bind_eq fun _ => hend) hend

theorem stray {c : Char} : D.Parallels D.Tokens (stray c) (stray c) := by
  apply Parallels.ite
  · exact .throw (fun _ _ _ h => by cases h)
  · exact get.bind fun s t hst _ _ h => .error (.located _ hst.line hst.column) h

theorem token {c : Char} : D.Parallels D.Tokens (token c) (token c) := by
  unfold Lexer.token
  split
  · exact symbol
  · split
    · exact semicolon
    · exact slash
    · exact closing
    · exact comparison
    · exact less
    · exact comparison
    · exact bang
    · exact quoted
    · exact .ite numeral (.ite word stray)

theorem next : D.Parallels D.Tokens next next := by
  apply start.bind_eq
  intro o
  cases o with
  | none => exact here
  | some c => exact token

end Parallels

variable (D) in
structure Listings (l m : Listing) : Prop where
  tokens : List.Forall₂ D.Tokens l.tokens m.tokens
  failure : Option.Rel D.Failures l.failure m.failure

theorem listing_of_next {fuel : Nat} {s t : Lexer}
    (hlater : ∀ s t, D.Aligned s t → D.Listings (Lexer.listing fuel s) (Lexer.listing fuel t))
    (h : D.Outcomes D.Tokens (Lexer.next s) (Lexer.next t)) :
    D.Listings (Lexer.listing (fuel + 1) s) (Lexer.listing (fuel + 1) t) := by
  rw [Lexer.listing, Lexer.listing]
  generalize Lexer.next s = o, Lexer.next t = o' at h
  cases h with
  | error hfail _ => exact ⟨.nil, .some hfail⟩
  | @ok a b s' t' htoken hst =>
    simp only [htoken.kind]
    by_cases heos : b.kind = .eos
    · simp only [if_pos heos]
      exact ⟨.cons htoken .nil, .none⟩
    · simp only [if_neg heos]
      have hmore := hlater s' t' hst
      exact ⟨.cons htoken hmore.tokens, hmore.failure⟩

/-- Two lexers at related places list related tokens, and end alike. -/
theorem listing (fuel : Nat) {s t : Lexer} (h : D.Aligned s t) :
    D.Listings (Lexer.listing fuel s) (Lexer.listing fuel t) := by
  induction fuel generalizing s t with
  | zero => exact ⟨.nil, .some (.crash _)⟩
  | succ fuel ih => exact listing_of_next (fun _ _ => ih) (Parallels.next s t h)

end Displacement

/-- A listing needs no more fuel than there are units. -/
theorem listing_of_lt {fuel : Nat} {s : Lexer} (h : s.rest.length < fuel) :
    listing fuel s = s.tokens := by
  have heq (n m : Nat) (s : Lexer) (hn : s.rest.length < n) (hm : s.rest.length < m) :
      listing n s = listing m s := by
    induction n generalizing m s with
    | zero => cases hn
    | succ n ih =>
      cases m with
      | zero => cases hm
      | succ m =>
        rw [listing, listing]
        cases hnext : next s with
        | error e s' => rfl
        | ok t s' =>
          by_cases heos : t.kind = .eos
          · simp only [if_pos heos]
          · have hlt := length_lt_of_next hnext heos
            simp only [if_neg heos]
            rw [ih m s' (by omega) (by omega)]
  exact heq _ _ s h (Nat.lt_succ_self _)

theorem tokens_of_next {s s' : Lexer} {t : Token} (h : next s = .ok t s') (heos : t.kind ≠ .eos) :
    s.tokens.tokens = t :: s'.tokens.tokens ∧ s.tokens.failure = s'.tokens.failure := by
  have hlater : listing s.rest.length s' = s'.tokens := listing_of_lt (length_lt_of_next h heos)
  rw [Lexer.tokens, listing, h]
  simp only [if_neg heos, hlater, and_self]

end StackLang.Lexer
