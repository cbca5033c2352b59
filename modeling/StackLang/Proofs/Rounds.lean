import StackLang.Proofs.Comments

namespace StackLang.Lexer

open Text

variable {α σ : Type}

/-- A loop that has come to the value `a` is over after `n` rounds. Each round gives a value to go
on with or the result. -/
inductive Loops (round : σ → Scan (σ ⊕ α)) : Nat → σ → Lexer → Outcome α → Prop where
  | result {a : σ} {r : α} {s s' : Lexer} : round a s = .ok (.inr r) s' →
      Loops round 1 a s (.ok r s')
  | failure {a : σ} {e : Failure} {s s' : Lexer} : round a s = .error e s' →
      Loops round 1 a s (.error e s')
  | again {n : Nat} {a b : σ} {s s' : Lexer} {o : Outcome α} : round a s = .ok (.inl b) s' →
      Loops round n b s' o → Loops round (n + 1) a s o

/-- The loop ends with this outcome, and all its rounds but one find something to consume. -/
def Ends (round : σ → Scan (σ ⊕ α)) (a : σ) (s : Lexer) (o : Outcome α) : Prop :=
  ∃ n ≤ s.rest.length + 1, Loops round n a s o

namespace Ends

variable {round : σ → Scan (σ ⊕ α)} {a b : σ} {s s' : Lexer}

theorem result {r : α} (h : round a s = .ok (.inr r) s') : Ends round a s (.ok r s') :=
  ⟨1, Nat.le_add_left 1 _, .result h⟩

theorem again {o : Outcome α} (h : round a s = .ok (.inl b) s')
    (hlt : s'.rest.length < s.rest.length) (ho : Ends round b s' o) : Ends round a s o := by
  obtain ⟨n, hn, hloop⟩ := ho
  exact ⟨n + 1, by omega, .again h hloop⟩

end Ends

/-- The two loops in front of a token: line breaks are skipped, and then blanks. -/
def startRound (blank : Bool) : Scan (Bool ⊕ Option Char) := do
  match ← read with
  | none => return .inr none
  | some c =>
    if c = '\n' ∧ blank = false then
      modify fun s => { s with line := s.line + 1, column := 0 }
      return .inl false
    else if isBlank c then return .inl true
    else return .inr (some c)

def takeRound (p : Char → Bool) (taken : List Char) : Scan (List Char ⊕ List Char) := do
  if ← peekIs p then return .inl (taken ++ (← read).toList)
  return .inr taken

def commentRound (text : List Char) : Scan (List Char ⊕ List Char) := do
  match ← read with
  | none => return .inr text
  | some c =>
    if c = '\n' then
      modify fun s => { s with line := s.line + 1, column := 0 }
      unless ← peekIs isWordChar do discard read
      return .inr text
    else return .inl (if c = '/' then text else text ++ [c])

def grow (w : String) : Option Char → String
  | none => w
  | some c => w.push c

/-- What is taken behind a character of a word without a test for reserved words. -/
def untested (w : String) : Scan String := do
  if ← peekIs (· == '_') then
    let w := grow w (← read)
    return w ++ String.ofList (← readWhile isLetter)
  else if (← peekIs (· == 'i')) && w == "else" then
    let w := grow w (← read)
    return grow w (← read)
  else return w

def wordRound (w : String) : Scan (String ⊕ String) := do
  if (← peekIs inWord) && (Token.reserved? w).isNone then
    return .inl (← untested (grow w (← read)))
  return .inr w

/-- Every loop of the lexer ends in front of the text, and it does what is done in one go. -/
structure LoopsEnd (s : Lexer) : Prop where
  start : Ends startRound false s (start s)
  take (p : Char → Bool) : Ends (takeRound p) [] s (readWhile p s)
  comment : Ends commentRound [] s (commentText s.line s.rest s.column)
  word (w : String) : Ends wordRound w s (wordText s.line false w s.rest s.column)

theorem length_facing (cs : List Char) (line column : Nat) :
    (facing cs line column).rest.length = cs.length := List.length_map _

theorem read_facing (c : Char) (cs : List Char) (line column : Nat) :
    read (facing (c :: cs) line column) = .ok (some c) (facing cs line (column + 1)) := rfl

theorem peekIs_facing (p : Char → Bool) (cs : List Char) (line column : Nat) :
    peekIs p (facing cs line column) = .ok (cs.head?.any p) (facing cs line column) := by
  cases cs <;> rfl

theorem startRound_facing (blank : Bool) (c : Char) (cs : List Char) (line column : Nat) :
    startRound blank (facing (c :: cs) line column) =
      if c = '\n' ∧ blank = false then .ok (.inl false) (facing cs (line + 1) 0)
      else if isBlank c then .ok (.inl true) (facing cs line (column + 1))
      else .ok (.inr (some c)) (facing cs line (column + 1)) := by
  simp only [startRound, Bind.bind, EStateM.bind, read_facing]
  split
  · rfl
  · split <;> rfl

theorem ends_blanks (cs : List Char) (line column : Nat) :
    Ends startRound true (facing cs line column) (skipBlanks line (cs.map Cell.ofChar) column) := by
  induction cs generalizing column with
  | nil => exact .result rfl
  | cons c cs ih =>
    have hround := startRound_facing true c cs line column
    rw [if_neg (by simp)] at hround
    rw [List.map_cons, skipBlanks, Cell.ofChar]
    by_cases hc : isBlank c
    · rw [if_pos hc] at hround
      simp only [hc, if_true]
      exact .again hround (by simp [length_facing]) (ih (column + 1))
    · rw [if_neg hc] at hround
      simp only [hc]
      exact .result hround

theorem ends_lines (cs : List Char) (line column : Nat) :
    Ends startRound false (facing cs line column) (skipLines (cs.map Cell.ofChar) line column) := by
  induction cs generalizing line column with
  | nil => exact .result rfl
  | cons c cs ih =>
    have hround := startRound_facing false c cs line column
    rw [List.map_cons, skipLines, Cell.ofChar]
    by_cases hline : c = '\n'
    · rw [if_pos ⟨hline, rfl⟩] at hround
      simp only [hline, if_true]
      rw [hline] at hround
      exact .again hround (by simp [length_facing]) (ih (line + 1) 0)
    · rw [if_neg (by simp [hline])] at hround
      by_cases hc : isBlank c
      · rw [if_pos hc] at hround
        simp only [hline, if_false, hc, if_true]
        exact .again hround (by simp [length_facing]) (ends_blanks cs line (column + 1))
      · rw [if_neg hc] at hround
        simp only [hline, if_false, hc]
        exact .result hround

theorem takeRound_facing (p : Char → Bool) (taken : List Char) (c : Char) (cs : List Char)
    (line column : Nat) :
    takeRound p taken (facing (c :: cs) line column) =
      if p c then .ok (.inl (taken ++ [c])) (facing cs line (column + 1))
      else .ok (.inr taken) (facing (c :: cs) line column) := by
  simp only [takeRound, Bind.bind, EStateM.bind, peekIs_facing, List.head?_cons, Option.any_some]
  split <;> rfl

theorem collect_facing (p : Char → Bool) (cs : List Char) (line column : Nat) :
    collect p line (cs.map Cell.ofChar) column =
      .ok (cs.takeWhile p) (facing (cs.dropWhile p) line (column + (cs.takeWhile p).length)) := by
  induction cs generalizing column with
  | nil => rfl
  | cons c cs ih =>
    rw [List.map_cons, collect, Cell.ofChar]
    by_cases hc : p c
    · simp [hc, ih, Nat.add_assoc, Nat.add_comm 1]
    · simp [hc, facing, Cell.ofChar]

def prepend (taken : List Char) : Outcome (List Char) → Outcome (List Char)
  | .ok l s => .ok (taken ++ l) s
  | .error e s => .error e s

theorem prepend_nil (o : Outcome (List Char)) : prepend [] o = o := by
  cases o <;> rfl

theorem ends_take (p : Char → Bool) (taken cs : List Char) (line column : Nat) :
    Ends (takeRound p) taken (facing cs line column)
      (prepend taken (collect p line (cs.map Cell.ofChar) column)) := by
  rw [collect_facing]
  induction cs generalizing taken column with
  | nil =>
    rw [List.takeWhile_nil, prepend, List.append_nil]
    exact .result rfl
  | cons c cs ih =>
    have hround := takeRound_facing p taken c cs line column
    by_cases hc : p c
    · rw [if_pos hc] at hround
      have hmore := ih (taken ++ [c]) (column + 1)
      refine .again hround (by simp [length_facing]) ?_
      simpa [hc, prepend, Nat.add_assoc, Nat.add_comm 1] using hmore
    · rw [if_neg hc] at hround
      simpa [hc, prepend] using Ends.result hround

theorem commentRound_break (text cs : List Char) (line column : Nat) :
    commentRound text (facing ('\n' :: cs) line column) =
      .ok (.inr text) (behindBreak cs (line + 1)) := by
  have hpeek := peekIs_facing isWordChar cs (line + 1) 0
  have hmodify : (modify fun s => { s with line := s.line + 1, column := 0 } : Scan PUnit)
      (facing cs line (column + 1)) = .ok ⟨⟩ (facing cs (line + 1) 0) := rfl
  simp only [commentRound, Bind.bind, EStateM.bind, read_facing, if_true, hmodify, hpeek,
    behindBreak]
  cases cs with
  | nil => rfl
  | cons d cs =>
    rw [List.head?_cons, Option.any_some]
    split <;> rfl

theorem ends_comment (text cs : List Char) (line column : Nat) :
    Ends commentRound text (facing cs line column)
      (prepend text (commentText line (cs.map Cell.ofChar) column)) := by
  induction cs generalizing text column with
  | nil =>
    rw [List.map_nil, commentText, prepend, List.append_nil]
    exact .result rfl
  | cons c cs ih =>
    by_cases hline : c = '\n'
    · subst hline
      have htext : commentText line (('\n' :: cs).map Cell.ofChar) column =
          .ok [] (behindBreak cs (line + 1)) := commentText_eq List.not_mem_nil cs line column
      rw [htext, prepend, List.append_nil]
      exact .result (commentRound_break text cs line column)
    · have hround : commentRound text (facing (c :: cs) line column) =
          .ok (.inl (if c = '/' then text else text ++ [c])) (facing cs line (column + 1)) := by
        simp only [commentRound, Bind.bind, EStateM.bind, read_facing, if_neg hline]
        rfl
      refine .again hround (by simp [length_facing]) ?_
      have hmore := ih (if c = '/' then text else text ++ [c]) (column + 1)
      rw [List.map_cons, commentText, Cell.ofChar]
      simp only [if_neg hline]
      generalize commentText line (cs.map Cell.ofChar) (column + 1) = o at hmore ⊢
      cases o with
      | ok l s =>
        by_cases hslash : c = '/' <;> simpa [hslash, prepend] using hmore
      | error e s => exact hmore

theorem wordText_run (w : String) (cs : List Char) (line column : Nat) :
    wordText line true w (cs.map Cell.ofChar) column =
      wordText line false (w ++ String.ofList (cs.takeWhile isLetter))
        ((cs.dropWhile isLetter).map Cell.ofChar) (column + (cs.takeWhile isLetter).length) := by
  induction cs generalizing w column with
  | nil => simp [wordText]
  | cons c cs ih =>
    by_cases hc : isLetter c
    · rw [List.map_cons, wordText]
      simp only [Cell.ofChar, hc, Bool.and_self, if_true]
      rw [ih, push_append_ofList]
      simp [hc, Nat.add_assoc, Nat.add_comm 1]
    · simp only [List.takeWhile_cons, List.dropWhile_cons, hc]
      simp
      rw [wordText.eq_def, wordText.eq_def]
      simp [Cell.ofChar, hc]

theorem untested_nil (w : String) (line column : Nat) :
    untested w (facing [] line column) = .ok w (facing [] line column) := rfl

theorem untested_underscore (w : String) (cs : List Char) (line column : Nat) :
    untested w (facing ('_' :: cs) line column) =
      .ok (w.push '_' ++ String.ofList (cs.takeWhile isLetter))
        (facing (cs.dropWhile isLetter) line (column + 1 + (cs.takeWhile isLetter).length)) := by
  have htake : readWhile isLetter (facing cs line (column + 1)) = _ :=
    collect_facing isLetter cs line (column + 1)
  have hpeek := peekIs_facing (· == '_') ('_' :: cs) line column
  simp only [untested, Bind.bind, EStateM.bind, hpeek, List.head?_cons, Option.any_some,
    beq_self_eq_true, if_true, read_facing, htake]
  rfl

theorem untested_else (cs : List Char) (line column : Nat) :
    untested "else" (facing ('i' :: cs) line column) =
      .ok (grow "elsei" cs.head?) (facing cs.tail line (column + 2)) := by
  cases cs <;> rfl

theorem untested_of_ne {w : String} {c : Char} (hc : c ≠ '_') (helse : ¬(w = "else" ∧ c = 'i'))
    (cs : List Char) (line column : Nat) :
    untested w (facing (c :: cs) line column) = .ok w (facing (c :: cs) line column) := by
  have hfalse : ¬((c == 'i' && w == "else") = true) := by
    simpa [and_comm] using helse
  simp only [untested, Bind.bind, EStateM.bind, peekIs_facing, List.head?_cons, Option.any_some,
    beq_iff_eq, if_neg hc, if_neg hfalse]
  rfl

theorem wordRound_stop {w : String} {x : Char} (h : ¬(inWord x ∧ Token.reserved? w = none))
    (cs : List Char) (line column : Nat) :
    wordRound w (facing (x :: cs) line column) = .ok (.inr w) (facing (x :: cs) line column) := by
  have hstop : ¬((inWord x && (Token.reserved? w).isNone) = true) := by simpa using h
  simp only [wordRound, Bind.bind, EStateM.bind, peekIs_facing, List.head?_cons, Option.any_some,
    if_neg hstop]
  rfl

theorem wordRound_go {w w' : String} {x : Char} {cs : List Char} {line column : Nat} {s : Lexer}
    (h : inWord x ∧ Token.reserved? w = none)
    (hmore : untested (w.push x) (facing cs line (column + 1)) = .ok w' s) :
    wordRound w (facing (x :: cs) line column) = .ok (.inl w') s := by
  have hgo : (inWord x && (Token.reserved? w).isNone) = true := by simpa using h
  simp only [wordRound, Bind.bind, EStateM.bind, peekIs_facing, List.head?_cons, Option.any_some,
    if_pos hgo, read_facing, grow, hmore]
  rfl

theorem stops_iff {w : String} {x : Char} :
    (!(isWordChar x || x == '_') || (Token.reserved? w).isSome) = true ↔
      ¬(inWord x ∧ Token.reserved? w = none) := by
  rw [← inWord]
  cases inWord x <;> cases Token.reserved? w <;> simp

theorem ends_word (w : String) (cs : List Char) (line column : Nat) :
    Ends wordRound w (facing cs line column)
      (wordText line false w (cs.map Cell.ofChar) column) := by
  induction hn : cs.length using Nat.strong_induction_on generalizing w cs column with
  | _ n ih =>
  cases cs with
  | nil =>
    rw [List.map_nil, wordText]
    exact .result rfl
  | cons x cs =>
    rw [List.length_cons] at hn
    rw [List.map_cons, wordText]
    by_cases hgo : inWord x ∧ Token.reserved? w = none
    · simp only [Cell.ofChar, Bool.false_and, if_neg (not_not_intro hgo ∘ stops_iff.1)]
      cases cs with
      | nil =>
        exact .again (wordRound_go hgo (untested_nil (w.push x) line (column + 1)))
          (by simp [length_facing]) (.result rfl)
      | cons z cs =>
        rw [List.length_cons] at hn
        simp only [List.map_cons, Cell.ofChar]
        by_cases hz : z = '_'
        · subst hz
          have hle : (cs.dropWhile isLetter).length ≤ cs.length :=
            (List.dropWhile_suffix isLetter).length_le
          rw [if_pos rfl, wordText_run]
          exact .again (wordRound_go hgo (untested_underscore (w.push x) cs line (column + 1)))
            (by simp only [length_facing, List.length_cons]; omega) (ih _ (by omega) _ _ _ rfl)
        · rw [if_neg hz]
          by_cases helse : w.push x = "else" ∧ z = 'i'
          · rw [if_pos helse]
            obtain ⟨hword, rfl⟩ := helse
            have hround := untested_else cs line (column + 1)
            rw [← hword] at hround
            cases cs with
            | nil => exact .again (wordRound_go hgo hround) (by simp [length_facing]) (.result rfl)
            | cons e cs =>
              rw [List.length_cons] at hn
              exact .again (wordRound_go hgo hround) (by simp [length_facing]; omega)
                (ih cs.length (by omega) _ cs _ rfl)
          · rw [if_neg helse]
            exact .again (wordRound_go hgo (untested_of_ne hz helse cs line (column + 1)))
              (by simp [length_facing]) (ih _ (by simp; omega) _ (z :: cs) _ rfl)
    · simp only [Cell.ofChar, Bool.false_and, if_pos (stops_iff.2 hgo)]
      exact .result (wordRound_stop hgo cs line column)

theorem loopsEnd (cs : List Char) (line column : Nat) : LoopsEnd (facing cs line column) where
  start := ends_lines cs line column
  take p := by
    have h := ends_take p [] cs line column
    rwa [prepend_nil] at h
  comment := by
    have h := ends_comment [] cs line column
    rwa [prepend_nil] at h
  word w := ends_word w cs line column

end StackLang.Lexer
