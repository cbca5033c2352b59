import StackLang.Lexer

namespace StackLang

def Token.unplaced (t : Token) : Token := ⟨t.kind, t.lexeme, 0, 0⟩

namespace Text

/-- Whether no code point is in both sets. -/
def Ranges.disjoint (a b : Ranges) : Bool := a.all fun r => b.all fun s => r.2 < s.1 || s.2 < r.1

theorem Ranges.contains_of_disjoint {a b : Ranges} (h : a.disjoint b) {n : Nat}
    (hn : a.contains n) : b.contains n = false := by
  obtain ⟨i, hi, hlo, hhi⟩ : ∃ i, ∃ hi : i < a.size, a[i].1 ≤ n ∧ n ≤ a[i].2 := by
    simpa [contains] using hn
  have hb : ∀ j, (hj : j < b.size) → a[i].2 < b[j].1 ∨ b[j].2 < a[i].1 := by
    simpa [disjoint] using (Array.all_eq_true.1 h) i hi
  rw [contains, Array.any_eq_false]
  intro j hj
  have := hb j hj
  simp only [Bool.and_eq_true, decide_eq_true_eq]
  omega

theorem isBlank_of_isDigit {d : Char} (h : isDigit d) : isBlank d = false := by
  unfold isDigit at h
  unfold isBlank
  by_cases hn : d.toNat < 0x80
  · simp only [hn, if_true, Char.isDigit, Bool.and_eq_true, decide_eq_true_eq] at h ⊢
    have hlo : 48 ≤ d.toNat := h.1
    have hhi : d.toNat ≤ 57 := h.2
    have hspace : (d.toNat == 0x20) = false := by
      rw [beq_eq_false_iff_ne]
      omega
    simp only [hspace, Bool.false_or, Bool.or_eq_false_iff, Bool.and_eq_false_iff,
      decide_eq_false_iff_not]
    omega
  · simp only [hn, if_false] at h ⊢
    exact Ranges.contains_of_disjoint (by decide +kernel) h

end Text

namespace Lexer

open Text

variable {α β : Type} {cs r : List Char} {k : Token.Kind} {w : String}

def facing (cs : List Char) (line column : Nat) : Lexer := ⟨cs.map Cell.ofChar, line, column⟩

/-- Wherever the text stands, scanning it succeeds, and `R` holds for the result and the rest. -/
def Scans (x : Scan α) (cs : List Char) (R : α → List Char → Prop) : Prop :=
  ∀ line column, ∃ a r line' column',
    x (facing cs line column) = .ok a (facing r line' column') ∧ R a r

namespace Scans

variable {R : α → List Char → Prop} {S : β → List Char → Prop}

protected theorem pure {a : α} (h : R a cs) : Scans (pure a) cs R :=
  fun line column => ⟨a, cs, line, column, rfl, h⟩

theorem bind {x : Scan α} {f : α → Scan β} (hx : Scans x cs R)
    (hf : ∀ a r, R a r → Scans (f a) r S) : Scans (x >>= f) cs S := by
  intro line column
  obtain ⟨a, r, line', column', hrun, hR⟩ := hx line column
  obtain ⟨b, r', line'', column'', hrun', hS⟩ := hf a r hR line' column'
  exact ⟨b, r', line'', column'', by simp only [Bind.bind, EStateM.bind, hrun, hrun'], hS⟩

theorem get {f : Lexer → Scan β} (h : ∀ s, Scans (f s) cs S) : Scans (get >>= f) cs S :=
  fun line column => h (facing cs line column) line column

theorem move {f : Lexer → Lexer} {g : Unit → Scan β} (hf : ∀ s, (f s).rest = s.rest)
    (h : Scans (g ()) cs S) : Scans (modify f >>= g) cs S := by
  intro line column
  obtain ⟨b, r, line', column', hrun, hS⟩ :=
    h (f (facing cs line column)).line (f (facing cs line column)).column
  have hmoved : f (facing cs line column) =
      facing cs (f (facing cs line column)).line (f (facing cs line column)).column :=
    congrArg (Lexer.mk · _ _) (hf (facing cs line column))
  refine ⟨b, r, line', column', ?_, hS⟩
  change g () (f (facing cs line column)) = _
  rw [hmoved, hrun]

theorem peek {f : Option Char → Scan β} (h : Scans (f cs.head?) cs S) :
    Scans (peek >>= f) cs S := by
  intro line column
  cases cs with
  | nil => exact h line column
  | cons c cs => exact h line column

theorem peekIs {p : Char → Bool} {f : Bool → Scan β} (h : Scans (f (cs.head?.any p)) cs S) :
    Scans (peekIs p >>= f) cs S := by
  rw [Lexer.peekIs, bind_assoc]
  exact peek h

theorem read : Scans read cs fun o r => o = cs.head? ∧ r = cs.tail := by
  intro line column
  cases cs with
  | nil => exact ⟨none, [], line, column + 1, rfl, rfl, rfl⟩
  | cons c cs => exact ⟨some c, cs, line, column + 1, rfl, rfl, rfl⟩

theorem drop {f : Unit → Scan β} (h : Scans (f ()) cs.tail S) :
    Scans (discard Lexer.read >>= f) cs S := by
  have hdrop : Scans (discard Lexer.read) cs fun _ r => r = cs.tail :=
    read.bind fun _ _ hr => .pure hr.2
  exact hdrop.bind fun _ _ hr => hr ▸ h

theorem collect (p : Char → Bool) (cs : List Char) (line column : Nat) :
    ∃ column', Lexer.collect p line (cs.map Cell.ofChar) column =
      .ok (cs.takeWhile p) (facing (cs.dropWhile p) line column') := by
  induction cs generalizing column with
  | nil => exact ⟨column, rfl⟩
  | cons c cs ih =>
    obtain ⟨column', hrun⟩ := ih (column + 1)
    rw [List.map_cons, Lexer.collect, Cell.ofChar]
    by_cases hc : p c
    · refine ⟨column', ?_⟩
      simp [hc, hrun]
    · refine ⟨column, ?_⟩
      simp [hc, facing, Cell.ofChar]

theorem readWhile {p : Char → Bool} {f : List Char → Scan β}
    (h : Scans (f (cs.takeWhile p)) (cs.dropWhile p) S) : Scans (readWhile p >>= f) cs S := by
  have hread : Scans (Lexer.readWhile p) cs fun l r => l = cs.takeWhile p ∧ r = cs.dropWhile p := by
    intro line column
    obtain ⟨column', hrun⟩ := collect p cs line column
    exact ⟨_, _, line, column', hrun, rfl, rfl⟩
  refine hread.bind fun l r hr => ?_
  rw [hr.1, hr.2]
  exact h

end Scans

/-- The text is the other one with some blanks in front. -/
def Padded (cs r : List Char) : Prop := ∃ blanks : List Char, blanks.all isBlank ∧ cs = blanks ++ r

namespace Padded

theorem refl (cs : List Char) : Padded cs cs := ⟨[], rfl, rfl⟩

theorem cons {c : Char} (hc : isBlank c) (h : Padded cs r) : Padded (c :: cs) r := by
  obtain ⟨blanks, hblanks, rfl⟩ := h
  exact ⟨c :: blanks, by simpa [hc] using hblanks, rfl⟩

theorem length_le (h : Padded cs r) : r.length ≤ cs.length := by
  obtain ⟨blanks, -, rfl⟩ := h
  simp

theorem dropWhile (cs : List Char) : Padded cs (cs.dropWhile isBlank) :=
  ⟨cs.takeWhile isBlank, List.all_takeWhile, List.takeWhile_append_dropWhile.symm⟩

end Padded

/-- A token of this kind and text, with the rest of the text up to blanks. -/
def Presents (k : Token.Kind) (w : String) (r : List Char) (t : Token) (r' : List Char) : Prop :=
  t.kind = k ∧ t.lexeme = w ∧ Padded r r'

/-- Blanks aside, the text begins with a token of this kind and text and goes on with `r`. -/
structure Takes (cs : List Char) (k : Token.Kind) (w : String) (r : List Char) : Prop where
  scans : Scans next (cs.dropWhile isBlank) (Presents k w r)
  length_lt : r.length < (cs.dropWhile isBlank).length

theorem Takes.kind_unique {k' : Token.Kind} {w' : String} {r' : List Char} (h : Takes cs k w r)
    (h' : Takes cs k' w' r') : k = k' := by
  obtain ⟨t, _, _, _, hrun, hk, -⟩ := h.scans 0 0
  obtain ⟨t', _, _, _, hrun', hk', -⟩ := h'.scans 0 0
  rw [hrun] at hrun'
  injection hrun' with ht
  rw [← hk, ← hk', ht]

section Separators

variable {S : β → List Char → Prop} {f : Unit → Scan β}

theorem scans_skipBlank (h : ∀ r, Padded cs r → Scans (f ()) r S) :
    Scans (skipBlank >>= f) cs S := by
  have hskip : Scans skipBlank cs fun _ r => Padded cs r := by
    refine .peekIs ?_
    cases cs with
    | nil => exact .pure (.refl [])
    | cons c cs =>
      by_cases hc : isBlank c
      · rw [List.head?_cons, Option.any_some, if_pos hc]
        exact Scans.read.bind fun _ _ hr => .pure (hr.2 ▸ .cons hc (.refl cs))
      · rw [List.head?_cons, Option.any_some, if_neg hc]
        exact .pure (.refl _)
  exact hskip.bind fun _ => h

/-- Behind a separator, at most one blank further. -/
def pastBlank : List Char → List Char
  | [] => []
  | c :: cs => if isBlank c then cs else c :: cs

theorem padded_pastBlank (cs : List Char) : Padded cs (pastBlank cs) := by
  cases cs with
  | nil => exact .refl []
  | cons c cs =>
    rw [pastBlank]
    split
    · exact .cons ‹_› (.refl cs)
    · exact .refl _

theorem scans_moveToNextLine (h : Scans (f ()) (pastBlank cs) S) :
    Scans (moveToNextLine >>= f) cs S := by
  have hmove : Scans moveToNextLine cs fun _ r => r = pastBlank cs := by
    refine .peek ?_
    cases cs with
    | nil => exact .move (fun _ => rfl) (.pure rfl)
    | cons c cs =>
      rw [List.head?_cons, pastBlank]
      by_cases hline : c = '\n'
      · subst hline
        exact Scans.drop (.move (fun _ => rfl) (.pure rfl))
      · simp only [if_neg hline]
        by_cases hc : isBlank c
        · rw [if_pos hc, if_pos hc]
          exact Scans.read.bind fun _ _ hr => .pure hr.2
        · rw [if_neg hc, if_neg hc]
          exact .pure rfl
  exact hmove.bind fun _ _ hr => hr ▸ h

theorem scans_here (h : Padded r cs) : Scans (here k w) cs (Presents k w r) :=
  .get fun _ => .pure ⟨rfl, rfl, h⟩

end Separators

theorem skipBlanks_eq (cs : List Char) (line column : Nat) :
    ∃ column', skipBlanks line (cs.map Cell.ofChar) column =
      start (facing (cs.dropWhile isBlank) line column') := by
  induction cs generalizing column with
  | nil => exact ⟨column, rfl⟩
  | cons c cs ih =>
    rw [List.map_cons, skipBlanks, Cell.ofChar, List.dropWhile_cons]
    by_cases hc : isBlank c
    · obtain ⟨column', h⟩ := ih (column + 1)
      exact ⟨column', by simpa [hc] using h⟩
    · refine ⟨column, ?_⟩
      have hline : c ≠ '\n' := by rintro rfl; exact hc rfl
      simp [hc, start, facing, skipLines, Cell.ofChar, hline]

theorem skipLines_eq (cs : List Char) (line column : Nat) :
    ∃ line' column', skipLines (cs.map Cell.ofChar) line column =
      start (facing (cs.dropWhile isBlank) line' column') := by
  induction cs generalizing line column with
  | nil => exact ⟨line, column, rfl⟩
  | cons c cs ih =>
    rw [List.map_cons, skipLines, Cell.ofChar, List.dropWhile_cons]
    by_cases hline : c = '\n'
    · subst hline
      exact ih (line + 1) 0
    · by_cases hc : isBlank c
      · obtain ⟨column', h⟩ := skipBlanks_eq cs line (column + 1)
        exact ⟨line, column', by simpa [hc, hline] using h⟩
      · refine ⟨line, column, ?_⟩
        simp [hc, start, facing, skipLines, Cell.ofChar, hline]

theorem next_dropWhile (cs : List Char) (line column : Nat) : ∃ line' column',
    next (facing cs line column) = next (facing (cs.dropWhile isBlank) line' column') := by
  obtain ⟨line', column', h⟩ := skipLines_eq cs line column
  have hstart : start (facing cs line column) =
      start (facing (cs.dropWhile isBlank) line' column') := h
  exact ⟨line', column', by simp only [next, bind, EStateM.bind, hstart]⟩

theorem takes_of_token {c : Char} (hc : isBlank c = false) (hr : r <:+ cs)
    (h : Scans (token c) cs (Presents k w r)) : Takes (c :: cs) k w r := by
  have hdrop : (c :: cs).dropWhile isBlank = c :: cs := List.dropWhile_cons_of_neg (by simp [hc])
  have hline : c ≠ '\n' := by rintro rfl; cases hc
  refine ⟨fun line column => ?_, by rw [hdrop]; exact Nat.lt_succ_of_le hr.length_le⟩
  have hstart : start (facing (c :: cs) line column) =
      .ok (some c) (facing cs line (column + 1)) := by
    simp [start, facing, skipLines, Cell.ofChar, hline, hc]
  obtain ⟨t, r', line', column', hrun, hgives⟩ := h line (column + 1)
  rw [hdrop]
  exact ⟨t, r', line', column', by simp only [next, bind, EStateM.bind, hstart, hrun], hgives⟩

/-- The characters that begin a token other than a numeral or a word. -/
def signs : List Char :=
  ['.', ',', '(', '+', '-', '*', '[', ']', '\x7b', '\x7d', ';', '/', ')', '=', '<', '>', '!', '"']

theorem token_of_notMem_signs {c : Char} (h : c ∉ signs) :
    token c = if isDigit c then numeral c else if isLetter c then word c else stray c := by
  have hsymbol : symbol? c = none := by
    unfold symbol?
    split <;> first | rfl | exact absurd (by decide) h
  unfold token
  rw [hsymbol]
  simp only
  split <;> first | rfl | exact absurd (by decide) h

theorem token_of_isDigit {c : Char} (h : isDigit c) : token c = numeral c := by
  have hsign : c ∉ signs := fun hc => by
    have hnone : signs.all fun d => !isDigit d := by decide
    have hfalse := List.all_eq_true.1 hnone c hc
    rw [h] at hfalse
    cases hfalse
  rw [token_of_notMem_signs hsign, if_pos h]

theorem token_of_isLetter {c : Char} (hd : isDigit c = false) (h : isLetter c) : token c = word c := by
  have hsign : c ∉ signs := fun hc => by
    have hnone : signs.all fun d => !isLetter d := by decide
    have hfalse := List.all_eq_true.1 hnone c hc
    rw [h] at hfalse
    cases hfalse
  rw [token_of_notMem_signs hsign, hd, if_pos h]
  rfl

section Signs

theorem takes_symbol {c : Char} {own : Bool} (h : symbol? c = some (k, own)) :
    Takes (c :: r) k c.toString r := by
  have hc : isBlank c = false := by
    unfold symbol? at h
    split at h <;> first | rfl | cases h
  refine takes_of_token hc List.suffix_rfl ?_
  unfold token
  rw [h]
  exact .get fun _ => scans_moveToNextLine (.get fun _ => .pure ⟨rfl, rfl, padded_pastBlank r⟩)

theorem takes_semicolon : Takes (';' :: r) .semicolon ";" r := by
  refine takes_of_token rfl List.suffix_rfl (.get fun _ => .peekIs ?_)
  split
  · rename_i hline
    cases r with
    | nil => cases hline
    | cons c r =>
      obtain rfl : c = '\n' := by simpa using hline
      refine .drop (.move (fun _ => rfl) (.get fun _ => .pure ⟨rfl, rfl, ?_⟩))
      exact .cons rfl (.refl r)
  · exact scans_skipBlank fun r' hr => .get fun _ => .pure ⟨rfl, rfl, hr⟩

theorem takes_divide (hr : r.head? ≠ some '/') : Takes ('/' :: r) .divide "/" r := by
  refine takes_of_token rfl List.suffix_rfl (.get fun _ => .peekIs ?_)
  have hslash : (r.head?.any fun c => c == '/') = false := by
    cases r with
    | nil => rfl
    | cons c r => simpa using hr
  rw [hslash]
  exact scans_skipBlank fun r' hr => scans_here hr

theorem takes_rparen (hr : ∀ d ∈ (pastBlank r).head?, isDigit d = false) :
    Takes (')' :: r) .rparen ")" r := by
  refine takes_of_token rfl List.suffix_rfl (.get fun _ => scans_moveToNextLine (.peek ?_))
  have hpadded := padded_pastBlank r
  cases hd : (pastBlank r).head? with
  | none => exact scans_here hpadded
  | some d =>
    simp only [hr d hd]
    exact scans_here hpadded

variable {c : Char} {alone withEqual : Token.Kind}

theorem scans_comparison (hr : r.head? ≠ some '=') :
    Scans (comparison c alone withEqual) r (Presents alone c.toString r) := by
  have hequal : (r.head?.any fun c => c == '=') = false := by
    cases r with
    | nil => rfl
    | cons c r => simpa using hr
  refine .peekIs ?_
  rw [hequal]
  exact scans_skipBlank fun r' hr => scans_here hr

theorem scans_comparison_equal :
    Scans (comparison c alone withEqual) ('=' :: r) (Presents withEqual (c.toString ++ "=") r) :=
  .peekIs (.drop (scans_skipBlank fun _ hr => scans_here hr))

theorem takes_assign (hr : r.head? ≠ some '=') : Takes ('=' :: r) .assign "=" r :=
  takes_of_token rfl List.suffix_rfl (scans_comparison hr)

theorem takes_equal : Takes ('=' :: '=' :: r) .equal "==" r :=
  takes_of_token rfl (List.suffix_cons _ r) scans_comparison_equal

theorem takes_greater (hr : r.head? ≠ some '=') : Takes ('>' :: r) .greater ">" r :=
  takes_of_token rfl List.suffix_rfl (scans_comparison hr)

theorem takes_greaterEq : Takes ('>' :: '=' :: r) .greaterEq ">=" r :=
  takes_of_token rfl (List.suffix_cons _ r) scans_comparison_equal

theorem takes_less (hr : r.head? ≠ some '=') : Takes ('<' :: r) .less "<" r := by
  have hequal : (r.head?.any fun c => c == '=') = false := by
    cases r with
    | nil => rfl
    | cons c r => simpa using hr
  refine takes_of_token rfl List.suffix_rfl (.get fun _ => .peekIs ?_)
  rw [hequal]
  exact scans_moveToNextLine (.pure ⟨rfl, rfl, padded_pastBlank r⟩)

theorem takes_lessEq : Takes ('<' :: '=' :: r) .lessEq "<=" r :=
  takes_of_token rfl (List.suffix_cons _ r) (.get fun _ => .peekIs (.drop
    (scans_skipBlank fun _ hr => scans_here hr)))

theorem takes_notEqual : Takes ('!' :: '=' :: r) .notEqual "!=" r :=
  takes_of_token rfl (List.suffix_cons _ r) (.peekIs (.drop (.move (fun _ => rfl)
    (scans_skipBlank fun _ hr => scans_here hr))))

end Signs

section Literals

variable {s : List Char} {p : Char → Bool}

theorem takeWhile_append_stop (hs : ∀ c ∈ s, p c) (hr : ∀ c ∈ r.head?, p c = false) :
    (s ++ r).takeWhile p = s := by
  rw [List.takeWhile_append_of_pos hs]
  cases r with
  | nil => simp
  | cons c r => rw [List.takeWhile_cons_of_neg (by simp [hr c rfl]), List.append_nil]

theorem dropWhile_append_stop (hs : ∀ c ∈ s, p c) (hr : ∀ c ∈ r.head?, p c = false) :
    (s ++ r).dropWhile p = r := by
  rw [List.dropWhile_append_of_pos hs]
  cases r with
  | nil => rfl
  | cons c r => rw [List.dropWhile_cons_of_neg (by simp [hr c rfl])]

theorem scans_span {β : Type} {f : List Char → Scan β} {S : β → List Char → Prop}
    (hs : ∀ c ∈ s, p c) (hr : ∀ c ∈ r.head?, p c = false) (h : Scans (f s) r S) :
    Scans (readWhile p >>= f) (s ++ r) S := by
  refine .readWhile ?_
  rw [takeWhile_append_stop hs hr, dropWhile_append_stop hs hr]
  exact h

theorem trim_append_blanks {blanks : List Char} (h : blanks.all isBlank) :
    trim (s ++ blanks) = trim s := by
  have hskip (u : List Char) : (blanks ++ u).dropWhile isBlank = u.dropWhile isBlank :=
    List.dropWhile_append_of_pos (List.all_eq_true.1 h)
  have hreverse (u : List Char) : (blanks.reverse ++ u).dropWhile isBlank = u.dropWhile isBlank :=
    List.dropWhile_append_of_pos fun c hc => List.all_eq_true.1 h c (List.mem_reverse.1 hc)
  have hblanks : blanks.dropWhile isBlank = [] := by simpa using hskip []
  rw [trim, trim, List.dropWhile_append]
  split
  · rename_i hs
    rw [hblanks, List.isEmpty_iff.1 hs]
  · rw [List.reverse_append, hreverse]

theorem takes_quoted (hquote : '"' ∉ s) :
    Takes ('"' :: (s ++ '"' :: r)) .stringVal (String.ofList (trim s)) r := by
  have hinner : ∀ c ∈ s, (c != '"') = true := by
    intro c hc
    exact bne_iff_ne.2 fun h => hquote (h ▸ hc)
  refine takes_of_token rfl ⟨s ++ ['"'], by simp⟩
    (.get fun _ => scans_span hinner (by simp) (.peekIs (.drop ?_)))
  refine .readWhile (.get fun _ => .pure ⟨rfl, ?_, .dropWhile r⟩)
  rw [trim_append_blanks List.all_takeWhile]

theorem inNumeral_of_isDigit {d : Char} (h : isDigit d) : inNumeral d := by
  have hsigns : ['.', ';', ')', ',', ']', '}', '-', '+', '/', '*'].contains d = false := by
    rw [List.contains_eq_mem, decide_eq_false_iff_not]
    intro hd
    simp only [List.mem_cons, List.not_mem_nil, or_false] at hd
    obtain rfl | rfl | rfl | rfl | rfl | rfl | rfl | rfl | rfl | rfl := hd <;> cases h
  rw [inNumeral, isBlank_of_isDigit h, hsigns]
  rfl

/-- The digits of a whole number: there is no zero in front of others. -/
structure Digits (ds : List Char) : Prop where
  ne_nil : ds ≠ []
  isDigit : ∀ d ∈ ds, isDigit d
  zero : ds.head? = some '0' → ds.tail = []

theorem takes_numeral {ds l r' : List Char} (h : Digits ds)
    (hr : ∀ c ∈ r.head?, inNumeral c = false) (hr' : r' <:+ r)
    (hl : Scans (fraction ds) r fun l' r'' => l' = l ∧ r'' = r')
    (hdigits : ∀ d ∈ l, isDigit d ∨ d = '.') :
    Takes (ds ++ r) (if '.' ∈ l then .doubleVal else .intVal) (String.ofList l) r' := by
  obtain ⟨c, ds, rfl⟩ := List.exists_cons_of_ne_nil h.ne_nil
  have hc : isDigit c := h.isDigit c List.mem_cons_self
  have hfind : (l.zipIdx.find? fun x => !(isDigit x.1 || x.1 == '.')) = none := by
    rw [List.find?_eq_none]
    rintro ⟨d, i⟩ hd
    obtain hd | hd := hdigits d (List.fst_mem_of_mem_zipIdx hd) <;> simp [hd]
  have hzero : ¬(c = '0' ∧ ds ≠ []) := by
    rintro ⟨rfl, hne⟩
    exact hne (h.zero rfl)
  have hnumeral : Scans (numeral c) (ds ++ r)
      (Presents (if '.' ∈ l then .doubleVal else .intVal) (String.ofList l) r') := by
    refine .get fun _ => scans_span (fun d hd =>
      inNumeral_of_isDigit (h.isDigit d (List.mem_cons_of_mem c hd))) hr ?_
    simp only [if_neg hzero]
    refine hl.bind fun l' r'' hlr => ?_
    rw [hlr.1, hlr.2]
    refine scans_skipBlank fun _ hr => ?_
    rw [hfind]
    exact .get fun _ => .pure ⟨rfl, rfl, hr⟩
  refine takes_of_token (isBlank_of_isDigit hc) (hr'.trans (List.suffix_append ds r)) ?_
  rwa [token_of_isDigit hc]

theorem takes_whole {ds : List Char} (h : Digits ds)
    (hr : ∀ c ∈ r.head?, inNumeral c = false ∧ c ≠ '.') :
    Takes (ds ++ r) .intVal (String.ofList ds) r := by
  have hpoint : '.' ∉ ds := fun hmem => by cases h.isDigit '.' hmem
  have hfraction : Scans (fraction ds) r fun l r' => l = ds ∧ r' = r := by
    refine .peekIs ?_
    have hne : (r.head?.any fun c => c == '.') = false := by
      cases r with
      | nil => rfl
      | cons c r => simpa using (hr c rfl).2
    rw [hne]
    exact .pure ⟨rfl, rfl⟩
  have htakes := takes_numeral h (fun c hc => (hr c hc).1) List.suffix_rfl hfraction
    fun d hd => .inl (h.isDigit d hd)
  rwa [if_neg hpoint] at htakes

theorem takes_decimal {ds fs : List Char} (h : Digits ds) (hne : fs ≠ []) (hfs : ∀ d ∈ fs, isDigit d)
    (hr : ∀ c ∈ r.head?, isDigit c = false) :
    Takes (ds ++ '.' :: (fs ++ r)) .doubleVal (String.ofList (ds ++ '.' :: fs)) r := by
  have hfraction : Scans (fraction ds) ('.' :: (fs ++ r))
      fun l r' => l = ds ++ '.' :: fs ∧ r' = r := by
    refine .peekIs (.drop (.peekIs ?_))
    obtain ⟨d, fs, rfl⟩ := List.exists_cons_of_ne_nil hne
    have hd : isDigit d := hfs d List.mem_cons_self
    simp only [List.tail_cons, List.cons_append, List.head?_cons, Option.any_some, hd]
    exact scans_span hfs hr (.pure ⟨rfl, rfl⟩)
  have htakes := takes_numeral h (by simp [inNumeral]) ⟨'.' :: fs, rfl⟩ hfraction fun d hd => by
    simp only [List.mem_append, List.mem_cons] at hd
    obtain hd | rfl | hd := hd
    · exact .inl (h.isDigit d hd)
    · exact .inr rfl
    · exact .inl (hfs d hd)
  rwa [if_pos (by simp)] at htakes

end Literals

section Words

/-- Letters, numerals and underscores. -/
def inWord (c : Char) : Bool := isWordChar c || c == '_'

def EndsWord (r : List Char) : Prop := ∀ c ∈ r.head?, inWord c = false

theorem inWord_of_isLetter {c : Char} (h : isLetter c) : inWord c := by
  rw [inWord, isWordChar, h]
  rfl

theorem wordText_end (run : Bool) (hr : EndsWord r) (line column : Nat) :
    wordText line run w (r.map Cell.ofChar) column = .ok w (facing r line column) := by
  cases r with
  | nil => rw [List.map_nil, wordText]; rfl
  | cons c r =>
    have hc : inWord c = false := hr c rfl
    have hletter : isLetter c = false := by
      cases hl : isLetter c with
      | false => rfl
      | true => rw [inWord_of_isLetter hl] at hc; cases hc
    rw [inWord] at hc
    simp [wordText, Cell.ofChar, hletter, hc, facing]

theorem push_append_ofList (w : String) (c : Char) (l : List Char) :
    w.push c ++ String.ofList l = w ++ String.ofList (c :: l) := by
  apply String.toList_injective
  simp

/-- No reserved word ends before the end of the word that goes on from `w` with `more`. -/
def Unbroken (w : String) (more : List Char) : Prop :=
  ∀ i < more.length, Token.reserved? (w ++ String.ofList (more.take i)) = none

theorem Unbroken.tail {c : Char} {more : List Char} (h : Unbroken w (c :: more)) :
    Unbroken (w.push c) more := by
  intro i hi
  rw [push_append_ofList]
  exact h (i + 1) (Nat.succ_lt_succ hi)

theorem Unbroken.head {c : Char} {more : List Char} (h : Unbroken w (c :: more)) :
    Token.reserved? w = none := by
  simpa using h 0 (Nat.zero_lt_succ _)

theorem wordText_unbroken (run : Bool) {w : String} {more : List Char} (hmore : ∀ c ∈ more, inWord c)
    (hfree : Unbroken w more) (hr : EndsWord r) (line column : Nat) : ∃ column',
    wordText line run w ((more ++ r).map Cell.ofChar) column =
      .ok (w ++ String.ofList more) (facing r line column') := by
  match more with
  | [] => exact ⟨column, by simpa using wordText_end run hr line column⟩
  | x :: more =>
    have hx : inWord x := hmore x List.mem_cons_self
    have htail : ∀ c ∈ more, inWord c := fun c hc => hmore c (List.mem_cons_of_mem x hc)
    simp only [List.cons_append, List.map_cons, ← push_append_ofList]
    by_cases hrun : run && isLetter x
    · obtain ⟨column', h⟩ := wordText_unbroken true htail hfree.tail hr line (column + 1)
      refine ⟨column', ?_⟩
      rw [wordText, ← h]
      simp [Cell.ofChar, hrun]
    · -- Outside a run the character is taken for it is no reserved word that ends here.
      have hgo : (!(isWordChar x || x == '_') || (Token.reserved? w).isSome) = false := by
        rw [hfree.head, ← inWord, hx]
        rfl
      match more with
      | [] =>
        refine ⟨column + 1, ?_⟩
        have hend := wordText_end (w := w.push x) false hr line (column + 1)
        rw [wordText]
        simp only [Cell.ofChar, hrun, hgo, List.nil_append]
        cases r with
        | nil => simp [facing]
        | cons d r =>
          have hd : inWord d = false := hr d rfl
          have hline : d ≠ '_' := by rintro rfl; cases hd
          have hi : d ≠ 'i' := by rintro rfl; cases hd
          simpa [hline, hi, Cell.ofChar] using hend
      | z :: more =>
        rw [wordText]
        simp only [Cell.ofChar, hrun, hgo, List.cons_append, List.map_cons]
        by_cases hz : z = '_'
        · subst hz
          obtain ⟨column', h⟩ := wordText_unbroken true
            (fun c hc => htail c (List.mem_cons_of_mem _ hc)) hfree.tail.tail hr line (column + 2)
          refine ⟨column', ?_⟩
          simpa only [if_true, if_false, Bool.false_eq_true, push_append_ofList] using h
        · obtain ⟨column', h⟩ := wordText_unbroken false htail hfree.tail hr line (column + 1)
          refine ⟨column', ?_⟩
          have helse : w.push x ≠ "else" := fun heq => by
            have hnone := hfree.tail.head
            rw [heq] at hnone
            cases hnone
          simpa [hz, helse, Cell.ofChar] using h
termination_by more.length

theorem scans_word {c : Char} {more : List Char}
    (h : ∀ line column, ∃ column', wordText line false c.toString ((more ++ r).map Cell.ofChar) column =
      .ok w (facing r line column')) :
    Scans (word c) (more ++ r) (Presents ((Token.reserved? w).getD .id) w r) := by
  have htext : Scans (fun s => wordText s.line false c.toString s.rest s.column) (more ++ r)
      fun w' r' => w' = w ∧ r' = r := by
    intro line column
    obtain ⟨column', hrun⟩ := h line column
    exact ⟨w, r, line, column', hrun, rfl, rfl⟩
  refine .get fun _ => htext.bind fun w' r' hw => ?_
  rw [hw.1, hw.2]
  refine scans_skipBlank fun r₁ hr₁ => .peekIs ?_
  -- A line break behind the blank is consumed as well.
  split
  · rename_i hline
    obtain ⟨d, r₂, rfl, rfl⟩ : ∃ d r₂, r₁ = d :: r₂ ∧ d = '\n' := by
      cases r₁ with
      | nil => cases hline
      | cons d r₂ => exact ⟨d, r₂, rfl, by simpa using hline⟩
    obtain ⟨blanks, hblanks, rfl⟩ := hr₁
    refine .drop (.get fun _ => .pure ⟨rfl, rfl, blanks ++ ['\n'], ?_, by simp⟩)
    rw [List.all_append, hblanks]
    rfl
  · exact .get fun _ => .pure ⟨rfl, rfl, hr₁⟩

/-- Words that are taken to their end: they begin with a letter, go on with letters, numerals and
underscores, and no reserved word ends before. -/
def wholeWord : List Char → Bool
  | [] => false
  | c :: more => !isBlank c && !isDigit c && isLetter c && more.all inWord &&
    (List.range more.length).all fun i => Token.reserved? (String.ofList (c :: more.take i)) == none

theorem takes_word (h : wholeWord w.toList) (hr : EndsWord r) :
    Takes (w.toList ++ r) ((Token.reserved? w).getD .id) w r := by
  cases hw : w.toList with
  | nil => rw [hw] at h; cases h
  | cons c more =>
    simp only [hw, wholeWord, Bool.and_eq_true, Bool.not_eq_true', List.all_eq_true, List.mem_range,
      beq_iff_eq] at h
    obtain ⟨⟨⟨⟨hblank, hdigit⟩, hc⟩, hmore⟩, hfree⟩ := h
    have hcons (l : List Char) : c.toString ++ String.ofList l = String.ofList (c :: l) := by
      apply String.toList_injective
      simp
    refine takes_of_token hblank (List.suffix_append more r) ?_
    rw [token_of_isLetter hdigit hc]
    refine scans_word fun line column => ?_
    obtain ⟨column', hrun⟩ := wordText_unbroken false (w := c.toString) hmore
      (fun i hi => hcons (more.take i) ▸ hfree i hi) hr line column
    refine ⟨column', ?_⟩
    rw [hrun, hcons, ← hw, String.ofList_toList]

theorem wordText_reserved (h : (Token.reserved? w).isSome) (r : List Char) (line column : Nat) :
    wordText line false w (r.map Cell.ofChar) column = .ok w (facing r line column) := by
  cases r with
  | nil => rw [List.map_nil, wordText]; rfl
  | cons c r => simp [wordText, Cell.ofChar, h, facing]

theorem takes_elseif :
    Takes ('e' :: (['l', 's', 'e', 'i', 'f'] ++ r)) .elseifKw "elseif" r := by
  refine takes_of_token rfl (List.suffix_append _ r)
    (scans_word (w := "elseif") fun line column => ⟨column + 5, ?_⟩)
  exact wordText_reserved (w := "elseif") rfl r line (column + 5)

end Words

section Listing

/-- The text consists of these tokens, up to their places. -/
inductive Lexes : List Char → List Token → Prop
  | nil {cs : List Char} : cs.dropWhile isBlank = [] → Lexes cs []
  | cons {cs r : List Char} {t : Token} {l : List Token} : Takes cs t.kind t.lexeme r →
      t.kind ≠ .eos → Lexes r l → Lexes cs (t :: l)

variable {l : List Token}

theorem Padded.dropWhile_eq (h : Padded cs r) : cs.dropWhile isBlank = r.dropWhile isBlank := by
  obtain ⟨blanks, hblanks, rfl⟩ := h
  exact List.dropWhile_append_of_pos (List.all_eq_true.1 hblanks)

theorem Lexes.padded (h : Lexes r l) (hcs : Padded cs r) : Lexes cs l := by
  cases h with
  | nil h => exact .nil (hcs.dropWhile_eq.trans h)
  | cons h hk hl => exact .cons ⟨hcs.dropWhile_eq ▸ h.scans, hcs.dropWhile_eq ▸ h.length_lt⟩ hk hl

theorem listing_of_lexes (h : Lexes cs l) {cs' : List Char} (hcs : Padded cs cs')
    {fuel : Nat} (hfuel : cs'.length < fuel) (line column : Nat) :
    (listing fuel (facing cs' line column)).failure = none ∧
    (listing fuel (facing cs' line column)).tokens.map Token.unplaced =
      l.map Token.unplaced ++ [⟨.eos, "", 0, 0⟩] := by
  induction h generalizing cs' fuel line column with
  | nil h =>
    obtain ⟨fuel, rfl⟩ : ∃ n, fuel = n + 1 := Nat.exists_eq_add_of_le' (by omega)
    obtain ⟨line', column', hnext⟩ := next_dropWhile cs' line column
    rw [← hcs.dropWhile_eq, h] at hnext
    rw [listing, hnext]
    exact ⟨rfl, rfl⟩
  | @cons cs r t l htakes hk hl ih =>
    obtain ⟨fuel, rfl⟩ : ∃ n, fuel = n + 1 := Nat.exists_eq_add_of_le' (by omega)
    obtain ⟨line', column', hnext⟩ := next_dropWhile cs' line column
    obtain ⟨u, r', line₁, column₁, hrun, hkind, hlexeme, hr⟩ := htakes.scans line' column'
    have hlen : r'.length < cs'.length :=
      calc r'.length ≤ r.length := hr.length_le
        _ < (cs.dropWhile isBlank).length := htakes.length_lt
        _ = (cs'.dropWhile isBlank).length := by rw [hcs.dropWhile_eq]
        _ ≤ cs'.length := (Padded.dropWhile cs').length_le
    have hless : r'.length < fuel := by omega
    obtain ⟨hfailure, htokens⟩ := ih hr hless line₁ column₁
    rw [← hcs.dropWhile_eq, hrun] at hnext
    rw [listing, hnext]
    simp only [if_neg (hkind ▸ hk), List.map_cons, List.cons_append]
    refine ⟨hfailure, ?_⟩
    rw [htokens, Token.unplaced, hkind, hlexeme]
    rfl

theorem tokens_of_lexes {s : String} (h : Lexes s.toList l) :
    (ofSource (.ofText s)).tokens.failure = none ∧
    (ofSource (.ofText s)).tokens.tokens.map Token.unplaced =
      l.map Token.unplaced ++ [⟨.eos, "", 0, 0⟩] := by
  refine listing_of_lexes h (.refl _) ?_ 1 0
  change s.toList.length < (s.toList.map Cell.ofChar).length + 1
  rw [List.length_map]
  exact Nat.lt_succ_self _

end Listing
end Lexer
end StackLang
