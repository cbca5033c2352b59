import StackLang.Proofs.Rendering
import StackLang.Proofs.Spacing

namespace StackLang

open Text

/-- What looking at a unit shows is what consuming it gives, as far as either works. -/
def Source.Coherent (source : Source) : Prop :=
  ∀ c ∈ source, ∀ x y, c.sight = some x → c.value = some y → x = y

namespace Source

theorem Coherent.suffix {source r : Source} (h : source.Coherent) (hr : r <:+ source) :
    r.Coherent :=
  fun c hc => h c (hr.subset hc)

/-- The character is seen or consumed somewhere in the source. -/
def Exhibits (source : Source) (x : Char) : Prop := ∃ c ∈ source, c.sight = some x ∨ c.value = some x

theorem Exhibits.mono {source r : Source} {x : Char} (h : r.Exhibits x) (hr : r <:+ source) :
    source.Exhibits x := by
  obtain ⟨c, hc, hx⟩ := h
  exact ⟨c, hr.subset hc, hx⟩

theorem coherent_ofText (s : String) : (ofText s).Coherent := by
  intro c hc x y hx hy
  obtain ⟨z, -, rfl⟩ := List.mem_map.1 hc
  cases hx
  cases hy
  rfl

theorem coherent_ofBytes (bytes : List UInt8) : (ofBytes bytes).Coherent := by
  induction bytes with
  | nil =>
    intro c hc
    cases hc
  | cons b bytes ih =>
    intro c hc x y hx hy
    obtain rfl | hc := List.mem_cons.1 hc
    · have hb : b < 0x80 := by
        by_contra hb
        rw [if_neg hb] at hy
        cases hy
      rw [if_pos hb] at hy
      cases hy
      -- A byte that can be consumed is a character by itself.
      simp only [Utf8.head?, if_pos hb, Option.bind_eq_bind, Option.bind_some] at hx
      split at hx
      · cases hx
      · cases hx
        rfl
    · exact ih c hc x y hx hy

end Source

namespace Lexer

variable {α β : Type} {src r : Source} {R : α → Source → Prop} {S : β → Source → Prop}

/-- If scanning succeeds in front of a source, it has consumed some of it, and `R` holds for the
result and the rest. -/
def Leads (x : Scan α) (src : Source) (R : α → Source → Prop) : Prop :=
  ∀ s s' a, s.rest = src → x s = .ok a s' → s'.rest <:+ src ∧ R a s'.rest

namespace Leads

theorem pure {a : α} (h : R a src) : Leads (pure a) src R := by
  rintro s s' b rfl hb
  cases hb
  exact ⟨List.suffix_rfl, h⟩

theorem throw {e : Failure} : Leads (throw e) src R := by
  rintro s s' a rfl ha
  cases ha

theorem bind {x : Scan α} {f : α → Scan β} (hx : Leads x src R)
    (hf : ∀ a r, r <:+ src → R a r → Leads (f a) r S) : Leads (x >>= f) src S := by
  rintro s s' b hs hb
  cases ha : x s with
  | error e t =>
    simp only [Bind.bind, EStateM.bind, ha] at hb
    cases hb
  | ok a t =>
    simp only [Bind.bind, EStateM.bind, ha] at hb
    obtain ⟨hsuffix, hR⟩ := hx s t a hs ha
    obtain ⟨hsuffix', hS⟩ := hf a t.rest hsuffix hR t s' b rfl hb
    exact ⟨hsuffix'.trans hsuffix, hS⟩

theorem weaken {x : Scan α} {R' : α → Source → Prop} (hx : Leads x src R)
    (h : ∀ a r, R a r → R' a r) : Leads x src R' := by
  intro s s' a hs ha
  obtain ⟨hsuffix, hR⟩ := hx s s' a hs ha
  exact ⟨hsuffix, h a s'.rest hR⟩

theorem get {f : Lexer → Scan β} (h : ∀ s, Leads (f s) src S) : Leads (get >>= f) src S :=
  fun s s' b hs hb => h s s s' b hs hb

theorem move {f : Lexer → Lexer} {R : Unit → Source → Prop} (hf : ∀ s, (f s).rest = s.rest)
    (h : R () src) : Leads (modify f) src R := by
  rintro s s' ⟨⟩ rfl hs'
  cases hs'
  rw [hf]
  exact ⟨List.suffix_rfl, h⟩

theorem move_bind {f : Lexer → Lexer} {g : Unit → Scan β} (hf : ∀ s, (f s).rest = s.rest)
    (h : Leads (g ()) src S) : Leads (modify f >>= g) src S :=
  (move (R := fun _ r => r = src) hf rfl).bind fun _ _ _ hr => hr ▸ h

theorem peek : Leads peek src fun o r => r = src ∧ ∀ x ∈ o, ∃ c cs, src = c :: cs ∧
    c.sight = some x := by
  rintro s s' o rfl h
  cases hrest : s.rest with
  | nil =>
    rw [Lexer.peek, hrest] at h
    cases h
    rw [hrest]
    exact ⟨List.suffix_rfl, rfl, fun x hx => by cases hx⟩
  | cons c cs =>
    rw [Lexer.peek, hrest] at h
    cases hsight : c.sight with
    | none =>
      simp only [hsight] at h
      cases h
    | some y =>
      simp only [hsight] at h
      cases h
      rw [hrest]
      refine ⟨List.suffix_rfl, rfl, fun x hx => ?_⟩
      cases hx
      exact ⟨c, cs, rfl, hsight⟩

theorem peekIs_bind {p : Char → Bool} {f : Bool → Scan β}
    (hpos : ∀ c cs x, src = c :: cs → c.sight = some x → p x → Leads (f true) src S)
    (hneg : Leads (f false) src S) : Leads (peekIs p >>= f) src S := by
  have hpeek : Leads (peekIs p) src fun b r => r = src ∧ (b = true → ∃ c cs x, src = c :: cs ∧
      c.sight = some x ∧ p x) := by
    refine peek.bind fun o r _ hr => .pure ⟨hr.1, fun ho => ?_⟩
    cases o with
    | none => cases ho
    | some x =>
      obtain ⟨c, cs, hsrc, hsight⟩ := hr.2 x rfl
      exact ⟨c, cs, x, hsrc, hsight, ho⟩
  refine hpeek.bind fun b r _ hr => ?_
  obtain ⟨rfl, hb⟩ := hr
  cases b with
  | false => exact hneg
  | true =>
    obtain ⟨c, cs, x, hsrc, hsight, hx⟩ := hb rfl
    exact hpos c cs x hsrc hsight hx

theorem read : Leads read src fun _ r => r = src.tail := by
  rintro s s' o rfl h
  cases hrest : s.rest with
  | nil =>
    rw [Lexer.read, hrest] at h
    cases h
    exact ⟨List.suffix_rfl, rfl⟩
  | cons c cs =>
    rw [Lexer.read, hrest] at h
    cases hvalue : c.value with
    | none =>
      simp only [hvalue] at h
      cases h
    | some y =>
      simp only [hvalue] at h
      cases h
      exact ⟨List.suffix_cons c cs, rfl⟩

theorem drop : Leads (discard Lexer.read) src fun _ r => r = src.tail :=
  read.bind fun _ _ _ hr => .pure hr

theorem skipBlank : Leads skipBlank src fun _ _ => True :=
  peekIs_bind (fun _ _ _ _ _ _ => drop.weaken fun _ _ _ => trivial) (.pure trivial)

theorem moveToNextLine : Leads moveToNextLine src fun _ _ => True := by
  refine peek.bind fun o r _ _ => ?_
  cases o with
  | none => exact .move (fun _ => rfl) trivial
  | some c =>
    dsimp only
    split
    · exact drop.bind fun _ _ _ _ => .move (fun _ => rfl) trivial
    · split
      · exact drop.weaken fun _ _ _ => trivial
      · exact .pure trivial

theorem collect {p : Char → Bool} (hsrc : src.Coherent) {line column : Nat} {l : List Char}
    {s' : Lexer} (h : Lexer.collect p line src column = .ok l s') :
    s'.rest <:+ src ∧ (∀ x ∈ l, p x ∧ src.Exhibits x) ∧
      ∀ c cs x, src = c :: cs → c.sight = some x → p x → l ≠ [] := by
  induction src generalizing column l with
  | nil =>
    cases h
    refine ⟨List.suffix_rfl, List.forall_mem_nil _, fun c cs x hnil => ?_⟩
    cases hnil
  | cons c cs ih =>
    rw [Lexer.collect] at h
    cases hsight : c.sight with
    | none =>
      simp only [hsight] at h
      cases h
    | some x =>
      simp only [hsight] at h
      by_cases hx : p x
      · rw [if_pos hx] at h
        cases hvalue : c.value with
        | none =>
          simp only [hvalue] at h
          cases h
        | some y =>
          obtain rfl : x = y := hsrc c List.mem_cons_self x y hsight hvalue
          simp only [hvalue] at h
          cases hmore : Lexer.collect p line cs (column + 1) with
          | error e s =>
            simp only [hmore] at h
            cases h
          | ok l' s =>
            simp only [hmore] at h
            cases h
            obtain ⟨hsuffix, hl', -⟩ := ih (hsrc.suffix (List.suffix_cons c cs)) hmore
            refine ⟨hsuffix.trans (List.suffix_cons c cs), ?_, fun _ _ _ _ _ _ => List.cons_ne_nil _ _⟩
            refine List.forall_mem_cons.2 ⟨⟨hx, c, List.mem_cons_self, .inl hsight⟩, fun y hy => ?_⟩
            exact ⟨(hl' y hy).1, (hl' y hy).2.mono (List.suffix_cons c cs)⟩
      · rw [if_neg hx] at h
        cases h
        refine ⟨List.suffix_rfl, List.forall_mem_nil _, fun d ds y hcons hd hy => ?_⟩
        cases hcons
        rw [hsight] at hd
        cases hd
        exact absurd hy hx

theorem readWhile_bind {p : Char → Bool} {f : List Char → Scan β} (hsrc : src.Coherent)
    (h : ∀ l r, r <:+ src → (∀ x ∈ l, p x ∧ src.Exhibits x) →
      (∀ c cs x, src = c :: cs → c.sight = some x → p x → l ≠ []) → Leads (f l) r S) :
    Leads (readWhile p >>= f) src S := by
  have hread : Leads (readWhile p) src fun l _ => (∀ x ∈ l, p x ∧ src.Exhibits x) ∧
      ∀ c cs x, src = c :: cs → c.sight = some x → p x → l ≠ [] := by
    rintro s s' l rfl hl
    exact collect hsrc hl
  exact hread.bind fun l r hr hl => h l r hr hl.1 hl.2

end Leads

/-- The word `w` goes on with `more` to the word `w'`. -/
structure Again (run : Bool) (w w' : String) (more : List Char) : Prop where
  toList_eq : w'.toList = w.toList ++ more
  wordText_eq (r : List Char) (line column : Nat) : EndsWord r → ∃ column',
    wordText line run w ((more ++ r).map Cell.ofChar) column = .ok w' (facing r line column')

namespace Again

variable {run : Bool} {w w' : String} {y u : Char} {more : List Char}

theorem nil (run : Bool) (w : String) : Again run w w [] := by
  constructor
  · rw [List.append_nil]
  · intro r line column hr
    exact ⟨column, wordText_end run hr line column⟩

theorem letter (hrun : (run && isLetter y) = true) (h : Again true (w.push y) w' more) :
    Again run w w' (y :: more) := by
  constructor
  · simp [h.toList_eq]
  · intro r line column hr
    obtain ⟨column', heq⟩ := h.wordText_eq r line (column + 1) hr
    refine ⟨column', ?_⟩
    rw [List.cons_append, List.map_cons, wordText, ← heq]
    simp [Cell.ofChar, hrun]

theorem step (hrun : ¬(run && isLetter y) = true)
    (hgo : ¬(!(isWordChar y || y == '_') || (Token.reserved? w).isSome) = true)
    (hline : more.head? ≠ some '_') (helse : ¬(w.push y = "else" ∧ more.head? = some 'i'))
    (h : Again false (w.push y) w' more) : Again run w w' (y :: more) := by
  constructor
  · simp [h.toList_eq]
  · intro r line column hr
    obtain ⟨column', heq⟩ := h.wordText_eq r line (column + 1) hr
    refine ⟨column', ?_⟩
    rw [List.cons_append, List.map_cons, wordText, ← heq]
    have hhead : ∀ z ∈ (more ++ r).head?, z ≠ '_' ∧ ¬(w.push y = "else" ∧ z = 'i') := by
      cases more with
      | cons d more =>
        rintro z ⟨⟩
        exact ⟨fun hd => hline (by rw [hd]; rfl), fun hd => helse ⟨hd.1, by rw [hd.2]; rfl⟩⟩
      | nil =>
        intro z hz
        have hout := hr z hz
        constructor
        · rintro rfl
          cases hout
        · rintro ⟨-, rfl⟩
          cases hout
    simp only [Cell.ofChar, if_neg hrun, if_neg hgo]
    cases hrest : more ++ r with
    | nil =>
      rw [List.map_nil, wordText]
    | cons z rest =>
      obtain ⟨hz, hi⟩ := hhead z (by rw [hrest]; rfl)
      simp only [List.map_cons, Cell.ofChar, if_neg hz, if_neg hi]

theorem line (hrun : ¬(run && isLetter y) = true)
    (hgo : ¬(!(isWordChar y || y == '_') || (Token.reserved? w).isSome) = true)
    (h : Again true ((w.push y).push '_') w' more) : Again run w w' (y :: '_' :: more) := by
  constructor
  · simp [h.toList_eq]
  · intro r line column hr
    obtain ⟨column', heq⟩ := h.wordText_eq r line (column + 2) hr
    refine ⟨column', ?_⟩
    rw [List.cons_append, List.cons_append, List.map_cons, List.map_cons, wordText, ← heq]
    simp only [Cell.ofChar, if_neg hrun, if_neg hgo, if_true]

/-- Two characters are taken behind `else`, the second of them whatever it is. -/
theorem elsei (hrun : ¬(run && isLetter y) = true)
    (hgo : ¬(!(isWordChar y || y == '_') || (Token.reserved? w).isSome) = true)
    (helse : w.push y = "else") (h : Again false ("elsei".push u) w' more) :
    Again run w w' (y :: 'i' :: u :: more) := by
  constructor
  · have hw : w.toList ++ [y] = ['e', 'l', 's', 'e'] := by
      rw [← String.toList_push, helse]
      rfl
    calc w'.toList = ['e', 'l', 's', 'e', 'i'] ++ [u] ++ more := by simp [h.toList_eq]
      _ = (w.toList ++ [y]) ++ 'i' :: u :: more := by rw [hw]; rfl
      _ = w.toList ++ y :: 'i' :: u :: more := by simp
  · intro r line column hr
    obtain ⟨column', heq⟩ := h.wordText_eq r line (column + 3) hr
    refine ⟨column', ?_⟩
    rw [List.cons_append, List.cons_append, List.cons_append, List.map_cons, List.map_cons,
      List.map_cons, wordText, ← heq]
    simp only [Cell.ofChar, if_neg hrun, if_neg hgo, helse]
    rfl

end Again

/-- A word that was read is read again, unless the source ends within it. -/
theorem wordText_again {line column : Nat} {run : Bool} {w w' : String} {s' : Lexer}
    (hsrc : src.Coherent) (h : wordText line run w src column = .ok w' s') :
    s'.rest <:+ src ∧ (s'.rest = [] ∨ ∃ more, Again run w w' more ∧
      ∀ z ∈ more.head?, ∃ d ds, src = d :: ds ∧ d.sight = some z) := by
  fun_induction wordText line run w src column with
  | case1 run w column =>
    cases h
    exact ⟨List.suffix_rfl, .inl rfl⟩
  | case2 | case3 | case6 | case8 | case11 => cases h
  | case4 run w c cs column x hx hrun y hy ih =>
    obtain rfl : x = y := hsrc c List.mem_cons_self x y hx hy
    obtain ⟨hsuffix, hagain⟩ := ih (hsrc.suffix (List.suffix_cons c cs)) h
    refine ⟨hsuffix.trans (List.suffix_cons c cs), hagain.imp_right ?_⟩
    rintro ⟨more, hmore, -⟩
    exact ⟨x :: more, hmore.letter hrun, fun z hz => by cases hz; exact ⟨c, cs, rfl, hx⟩⟩
  | case5 run w c cs column x hx hrun hgo =>
    cases h
    exact ⟨List.suffix_rfl, .inr ⟨[], .nil _ _, fun z hz => by cases hz⟩⟩
  | case7 run w c column x hx hrun hgo y hy =>
    cases h
    exact ⟨List.nil_suffix, .inl rfl⟩
  | case9 run w c column x hx hrun hgo y hy d ds hd ih =>
    obtain rfl : x = y := hsrc c List.mem_cons_self x y hx hy
    have hds : ds <:+ c :: d :: ds := ⟨[c, d], rfl⟩
    obtain ⟨hsuffix, hagain⟩ := ih (hsrc.suffix hds) h
    refine ⟨hsuffix.trans hds, hagain.imp_right ?_⟩
    rintro ⟨more, hmore, -⟩
    exact ⟨x :: '_' :: more, hmore.line hrun hgo, fun z hz => by cases hz; exact ⟨c, _, rfl, hx⟩⟩
  | case10 run w c column x hx hrun hgo y hy d z hd hz helse =>
    cases h
    exact ⟨List.nil_suffix, .inl rfl⟩
  | case12 run w c column x hx hrun hgo y hy d z hd hz helse e es u hu ih =>
    obtain rfl : x = y := hsrc c List.mem_cons_self x y hx hy
    have hes : es <:+ c :: d :: e :: es := ⟨[c, d, e], rfl⟩
    obtain ⟨hsuffix, hagain⟩ := ih (hsrc.suffix hes) h
    refine ⟨hsuffix.trans hes, hagain.imp_right ?_⟩
    rintro ⟨more, hmore, -⟩
    exact ⟨x :: 'i' :: u :: more, hmore.elsei hrun hgo helse.1,
      fun z hz => by cases hz; exact ⟨c, _, rfl, hx⟩⟩
  | case13 run w c column x hx hrun hgo y hy d ds z hd hz helse ih =>
    obtain rfl : x = y := hsrc c List.mem_cons_self x y hx hy
    obtain ⟨hsuffix, hagain⟩ := ih (hsrc.suffix (List.suffix_cons c _)) h
    refine ⟨hsuffix.trans (List.suffix_cons c _), hagain.imp_right ?_⟩
    rintro ⟨more, hmore, hfirst⟩
    -- What comes next is what the look ahead has shown.
    have hshown : ∀ v ∈ more.head?, v = z := by
      intro v hv
      obtain ⟨d', ds', hcons, hd'⟩ := hfirst v hv
      cases hcons
      rw [hd] at hd'
      cases hd'
      rfl
    refine ⟨x :: more, hmore.step hrun hgo ?_ ?_, fun v hv => by cases hv; exact ⟨c, _, rfl, hx⟩⟩
    · intro hline
      exact hz (hshown '_' hline).symm
    · rintro ⟨hw, hi⟩
      exact helse ⟨hw, (hshown 'i' hi).symm⟩

end Lexer

/-- The kinds of the tokens that stand in trees. -/
def Token.Kind.isPart (k : Token.Kind) : Bool :=
  k.isLiteral || k.namesType || k == .voidType || k.isOperator

namespace Lexer

open Token (Spellable)

variable {src : Source}

/-- A token of this kind and lexeme is read again in front of a bound; a name also in front of
arguments. -/
structure Legible (k : Token.Kind) (w : String) : Prop where
  again (r : List Char) : AtBound r ∨ k = .id ∧ r.head? = some '(' →
    Takes (Token.spelling k w.toList ++ r) k w r
  head : k.isOperator → ∀ c ∈ w.toList.head?, isDigit c = false

theorem legible_of_spellable {k : Token.Kind} {w : String} (h : Spellable k w.toList) (hk : k.isPart)
    (hid : k ≠ .id) : Legible k w := by
  constructor
  · rintro r (hr | ⟨rfl, -⟩)
    · have htakes := takes_spellable h hr fun hparen => by rw [hparen] at hk; cases hk
      rwa [String.ofList_toList] at htakes
    · exact absurd rfl hid
  · intro hop
    have hspelling : Token.spelling k w.toList ++ [] = w.toList := by
      rw [Token.spelling, if_neg (by rintro rfl; cases hop), List.append_nil]
    rw [← hspelling]
    exact isDigit_head_spelling h (by rintro rfl; cases hop) (by rintro rfl; cases hop)

theorem legible_of_again {c : Char} {w : String} {more : List Char} (hblank : isBlank c = false)
    (hdigit : isDigit c = false) (hc : isLetter c) (h : Again false c.toString w more) :
    Legible ((Token.reserved? w).getD .id) w := by
  have hw : w.toList = c :: more := by simpa using h.toList_eq
  have hkind : (Token.reserved? w).getD .id ≠ .stringVal := by
    cases hr : Token.reserved? w with
    | none => decide
    | some k => exact (Token.kind_of_reserved hr).1
  constructor
  · intro r hr
    have hends : EndsWord r := by
      obtain hr | ⟨-, hr⟩ := hr
      · exact endsWord_of_atBound hr
      · intro d hd
        rw [hr] at hd
        cases hd
        rfl
    rw [Token.spelling, if_neg hkind, hw]
    refine takes_of_token hblank (List.suffix_append more r) ?_
    rw [token_of_isLetter hdigit hc]
    exact scans_word fun line column => h.wordText_eq r line column hends
  · rintro - d hd
    rw [hw] at hd
    cases hd
    exact hdigit

theorem spellable_trim {inner blanks : List Char} (hinner : ∀ x ∈ inner, (x != '"') = true)
    (hblanks : ∀ x ∈ blanks, isBlank x) :
    Spellable .stringVal (String.ofList (trim (inner ++ blanks))).toList := by
  rw [String.toList_ofList]
  generalize hl : inner ++ blanks = l
  refine .text (fun hquote => ?_) (isBlank_head?_trim l) (isBlank_getLast?_trim l)
  have hmem : '"' ∈ l := (List.dropWhile_sublist _).subset ((trim_begins l).subset hquote)
  rw [← hl, List.mem_append] at hmem
  obtain hmem | hmem := hmem
  · exact absurd rfl (bne_iff_ne.1 (hinner _ hmem))
  · cases hblanks _ hmem

theorem digits_of_numeral {c : Char} {more : List Char} (hc : isDigit c)
    (hmore : ∀ x ∈ more, inNumeral x) (hzero : ¬(c = '0' ∧ more ≠ []))
    (hl : ∀ d ∈ c :: more, isDigit d ∨ d = '.') : Digits (c :: more) := by
  refine ⟨List.cons_ne_nil _ _, fun d hd => ?_, fun h => ?_⟩
  · obtain h | rfl := hl d hd
    · exact h
    · obtain rfl | hd := List.mem_cons.1 hd
      · exact hc
      · cases hmore '.' hd
  · by_contra hne
    cases h
    exact hzero ⟨rfl, hne⟩

theorem isDigit_of_find {l : List Char} {d : Char}
    (h : (l.zipIdx.find? fun x => !(isDigit x.1 || x.1 == '.')) = none) (hd : d ∈ l) :
    isDigit d ∨ d = '.' := by
  obtain ⟨i, hi⟩ := List.mem_iff_getElem?.1 hd
  have hmem : (d, i) ∈ l.zipIdx := List.mk_mem_zipIdx_iff_getElem?.2 hi
  have hfound := List.find?_eq_none.1 h _ hmem
  by_cases hdigit : isDigit d
  · exact .inl hdigit
  · exact .inr (by simpa [hdigit] using hfound)

/-- The token is read again, unless it is none of a tree or the last of its source. -/
def Rereads (t : Token) (r : Source) : Prop := t.kind.isPart → r = [] ∨ Legible t.kind t.lexeme

theorem rereads_of_spellable {t : Token} {r : Source} (h : Spellable t.kind t.lexeme.toList)
    (hid : t.kind ≠ .id) : Rereads t r :=
  fun hk => .inr (legible_of_spellable h hk hid)

theorem rereads_sign {k : Token.Kind} {w : String} {line column : Nat} {r : Source}
    (h : (k, w) ∈ Token.signs) : Rereads ⟨k, w, line, column⟩ r := by
  refine rereads_of_spellable (.sign h) ?_
  rintro rfl
  revert h
  simp [Token.signs]

/-- The token is a number, and it is made of the given characters and a point. -/
structure Numbers (A : Char → Prop) (t : Token) : Prop where
  isNumber : t.isNumber
  written : Spellable t.kind t.lexeme.toList
  made (d : Char) : d ∈ t.lexeme.toList → d = '.' ∨ A d

theorem Numbers.rereads {A : Char → Prop} {t : Token} {r : Source} (h : Numbers A t) :
    Rereads t r := by
  refine rereads_of_spellable h.written fun hid => ?_
  have hnumber := h.isNumber
  rw [Token.isNumber, hid] at hnumber
  cases hnumber

namespace Leads

theorem here {k : Token.Kind} {w : String} {R : Token → Source → Prop}
    (h : ∀ line column, R ⟨k, w, line, column⟩ src) : Leads (here k w) src R :=
  .get fun s => .pure (h s.line s.column)

theorem symbol {c : Char} {k : Token.Kind} {own : Bool} (h : symbol? c = some (k, own)) :
    Leads (symbol c k own) src Rereads := by
  have hsign : (k, c.toString) ∈ Token.signs := by
    unfold symbol? at h
    split at h <;> first | (cases h; decide) | cases h
  exact .get fun _ => moveToNextLine.bind fun _ _ _ _ => .get fun _ => .pure (rereads_sign hsign)

theorem comparison {c : Char} {alone withEqual : Token.Kind} (h : (alone, c.toString) ∈ Token.signs)
    (h' : (withEqual, c.toString ++ "=") ∈ Token.signs) :
    Leads (comparison c alone withEqual) src Rereads := by
  refine .peekIs_bind (fun _ _ _ _ _ _ => drop.bind fun _ _ _ _ => skipBlank.bind fun _ _ _ _ => ?_)
    (skipBlank.bind fun _ _ _ _ => ?_)
  · exact .here fun _ _ => rereads_sign h'
  · exact .here fun _ _ => rereads_sign h

theorem less : Leads less src Rereads := by
  refine .get fun _ => .peekIs_bind (fun _ _ _ _ _ _ => ?_) ?_
  · exact drop.bind fun _ _ _ _ => skipBlank.bind fun _ _ _ _ =>
      .here fun _ _ => rereads_sign (by decide)
  · exact moveToNextLine.bind fun _ _ _ _ => .pure (rereads_sign (by decide))

theorem bang : Leads bang src Rereads := by
  refine .peekIs_bind (fun _ _ _ _ _ _ => ?_) .throw
  exact drop.bind fun _ _ _ _ => .move_bind (fun _ => rfl) (skipBlank.bind fun _ _ _ _ =>
    .here fun _ _ => rereads_sign (by decide))

theorem semicolon : Leads semicolon src Rereads := by
  refine .get fun _ => .peekIs_bind (fun _ _ _ _ _ _ => ?_) ?_
  · exact drop.bind fun _ _ _ _ => .move_bind (fun _ => rfl) (.get fun _ =>
      .pure (rereads_sign (by decide)))
  · exact skipBlank.bind fun _ _ _ _ => .get fun _ => .pure (rereads_sign (by decide))

theorem commentText {line column : Nat} {l : List Char} {s' : Lexer}
    (h : Lexer.commentText line src column = .ok l s') : s'.rest <:+ src := by
  induction src generalizing column l with
  | nil =>
    cases h
    exact List.suffix_rfl
  | cons c cs ih =>
    rw [Lexer.commentText] at h
    cases hvalue : c.value with
    | none =>
      simp only [hvalue] at h
      cases h
    | some x =>
      simp only [hvalue] at h
      by_cases hx : x = '\n'
      · rw [if_pos hx] at h
        have hend : Leads (peekIs isWordChar >>= fun b => if b then Pure.pure [] else
            discard Lexer.read >>= fun _ => Pure.pure []) cs fun (_ : List Char) _ => True :=
          .peekIs_bind (fun _ _ _ _ _ _ => .pure trivial) (drop.bind fun _ _ _ _ => .pure trivial)
        exact (hend ⟨cs, line + 1, 0⟩ s' l rfl h).1.trans (List.suffix_cons c cs)
      · rw [if_neg hx] at h
        cases hmore : Lexer.commentText line cs (column + 1) with
        | error e s =>
          simp only [hmore] at h
          cases h
        | ok l' s =>
          simp only [hmore] at h
          cases h
          exact (ih hmore).trans (List.suffix_cons c cs)

theorem slash : Leads slash src Rereads := by
  have htext : Leads (fun s => Lexer.commentText s.line s.rest s.column) src fun _ _ => True := by
    rintro s s' l rfl h
    exact ⟨commentText h, trivial⟩
  refine .get fun _ => .peekIs_bind (fun _ _ _ _ _ _ => ?_) ?_
  · exact htext.bind fun _ _ _ _ => .pure fun hk => by cases hk
  · exact skipBlank.bind fun _ _ _ _ => .here fun _ _ => rereads_sign (by decide)

theorem closing_numbers : Leads closing src fun t _ => t.kind = .rparen ∨ Numbers src.Exhibits t := by
  refine .get fun _ => moveToNextLine.bind fun _ r hr _ => peek.bind fun o _ _ ho => ?_
  cases o with
  | none => exact .here fun _ _ => .inl rfl
  | some d =>
    dsimp only
    split
    · rename_i hd
      refine drop.bind fun _ _ _ _ => .get fun _ => .pure (.inr ⟨rfl, ?_, ?_⟩)
      · have hdigits : Digits [d] := ⟨by simp, by simpa using hd, fun _ => rfl⟩
        simpa using Spellable.whole hdigits
      · intro x hx
        obtain rfl : x = d := by simpa using hx
        obtain ⟨c, cs, hcons, hsight⟩ := ho.2 x rfl
        exact .inr (.mono ⟨c, hcons ▸ List.mem_cons_self, .inl hsight⟩ hr)
    · exact .here fun _ _ => .inl rfl

theorem closing : Leads closing src Rereads := by
  refine closing_numbers.weaken fun t r h => ?_
  obtain hparen | hnumbers := h
  · intro hk
    rw [hparen] at hk
    cases hk
  · exact hnumbers.rereads

theorem quoted (hsrc : src.Coherent) : Leads quoted src Rereads := by
  refine .get fun _ => .readWhile_bind hsrc fun inner r hr hinner _ => ?_
  refine .peekIs_bind (fun _ _ _ _ _ _ => drop.bind fun _ r' hr' _ => ?_) ?_
  · exact .readWhile_bind (hsrc.suffix (hr'.trans hr)) fun blanks _ _ hblanks _ =>
      .get fun _ => .pure (rereads_of_spellable
        (spellable_trim (fun x hx => (hinner x hx).1) fun x hx => (hblanks x hx).1) (by simp))
  · exact .readWhile_bind (hsrc.suffix hr) fun blanks _ _ hblanks _ =>
      .get fun _ => .pure (rereads_of_spellable
        (spellable_trim (fun x hx => (hinner x hx).1) fun x hx => (hblanks x hx).1) (by simp))

theorem fraction {whole : List Char} (hsrc : src.Coherent) :
    Leads (fraction whole) src fun l _ => l = whole ∨
      ∃ fs, fs ≠ [] ∧ (∀ d ∈ fs, isDigit d ∧ src.Exhibits d) ∧ l = whole ++ '.' :: fs := by
  refine .peekIs_bind (fun _ _ _ _ _ _ => drop.bind fun _ r hr _ => ?_) (.pure (.inl rfl))
  refine .peekIs_bind (fun c cs x hcons hsight hx => ?_) .throw
  refine .readWhile_bind (hsrc.suffix hr) fun fs _ _ hfs hne => .pure (.inr ⟨fs, ?_, ?_, rfl⟩)
  · exact hne c cs x hcons hsight hx
  · exact fun d hd => ⟨(hfs d hd).1, (hfs d hd).2.mono hr⟩

theorem numeral_numbers {c : Char} (hc : isDigit c) (hsrc : src.Coherent) :
    Leads (numeral c) src fun t _ => Numbers (fun d => d = c ∨ src.Exhibits d) t := by
  refine .get fun _ => .readWhile_bind hsrc fun more r hr hmore _ => ?_
  dsimp only
  split
  · exact .throw
  rename_i hzero
  refine (fraction (hsrc.suffix hr)).bind fun l _ _ hl => skipBlank.bind fun _ _ _ _ => ?_
  cases hfind : l.zipIdx.find? fun x => !(isDigit x.1 || x.1 == '.') with
  | some x => exact .throw
  | none =>
    have hdigits : Digits (c :: more) :=
      digits_of_numeral hc (fun d hd => (hmore d hd).1) hzero fun d hd => isDigit_of_find hfind (by
        obtain rfl | ⟨fs, -, -, rfl⟩ := hl
        · exact hd
        · exact List.mem_append_left _ hd)
    have hfirst (d : Char) (hd : d ∈ c :: more) : d = c ∨ src.Exhibits d :=
      (List.mem_cons.1 hd).imp_right fun hd => (hmore d hd).2
    refine .get fun _ => .pure ?_
    obtain rfl | ⟨fs, hne, hfs, rfl⟩ := hl
    · have hpoint : '.' ∉ c :: more := fun hmem => by cases hdigits.isDigit '.' hmem
      simp only [if_neg hpoint]
      refine ⟨rfl, by simpa using Spellable.whole hdigits, fun d hd => .inr (hfirst d ?_)⟩
      simpa using hd
    · have hpoint : '.' ∈ c :: more ++ '.' :: fs := by simp
      simp only [if_pos hpoint]
      refine ⟨rfl, ?_, fun d hd => ?_⟩
      · simpa using Spellable.decimal hdigits hne fun d hd => (hfs d hd).1
      · rw [String.toList_ofList] at hd
        obtain hd | hd := List.mem_append.1 hd
        · exact .inr (hfirst d hd)
        · exact (List.mem_cons.1 hd).imp_right fun hd => .inr ((hfs d hd).2.mono hr)

theorem numeral {c : Char} (hc : isDigit c) (hsrc : src.Coherent) :
    Leads (numeral c) src Rereads :=
  (numeral_numbers hc hsrc).weaken fun _ _ h => h.rereads

theorem word {c : Char} (hblank : isBlank c = false) (hdigit : isDigit c = false) (hc : isLetter c)
    (hsrc : src.Coherent) : Leads (word c) src Rereads := by
  have htext : Leads (fun s => wordText s.line false c.toString s.rest s.column) src
      fun w r => r = [] ∨ Legible ((Token.reserved? w).getD .id) w := by
    rintro s s' w rfl h
    obtain ⟨hsuffix, hnil | ⟨more, hmore, -⟩⟩ := wordText_again hsrc h
    · exact ⟨hsuffix, .inl hnil⟩
    · exact ⟨hsuffix, .inr (legible_of_again hblank hdigit hc hmore)⟩
  refine .get fun _ => htext.bind fun w r _ hw => skipBlank.bind fun _ r₁ hr₁ _ => ?_
  -- What is skipped behind the word does not make the rest of the source longer.
  have hend {r' : Source} (hr' : r' <:+ r₁) : r' = [] ∨ Legible ((Token.reserved? w).getD .id) w := by
    refine hw.imp_left fun hnil => ?_
    rw [hnil] at hr₁
    exact List.suffix_nil.1 (hr'.trans hr₁)
  refine .peekIs_bind (fun _ _ _ _ _ _ => drop.bind fun _ r' hr' _ => ?_) ?_
  · exact .get fun _ => .pure fun _ => hend hr'
  · exact .get fun _ => .pure fun _ => hend List.suffix_rfl

theorem stray {c : Char} : Leads (stray c) src Rereads := by
  rw [Lexer.stray]
  split
  · exact .throw
  · exact .get fun _ => .throw

theorem token {c : Char} (hblank : isBlank c = false) (hsrc : src.Coherent) :
    Leads (token c) src Rereads := by
  unfold Lexer.token
  cases hsymbol : symbol? c with
  | some x => exact symbol hsymbol
  | none =>
    dsimp only
    split
    · exact semicolon
    · exact slash
    · exact closing
    · exact comparison (by decide) (by decide)
    · exact less
    · exact comparison (by decide) (by decide)
    · exact bang
    · exact quoted hsrc
    · by_cases hdigit : isDigit c
      · rw [if_pos hdigit]
        exact numeral hdigit hsrc
      · rw [if_neg hdigit]
        by_cases hc : isLetter c
        · rw [if_pos hc]
          exact word hblank (Bool.eq_false_iff.2 hdigit) hc hsrc
        · rw [if_neg hc]
          exact stray

theorem ahead {c : Cell} {cs : Source} {o : Option Char}
    (h : ∀ x ∈ o, isBlank x = false ∧ Source.Exhibits cs x) :
    ∀ x ∈ o, isBlank x = false ∧ Source.Exhibits (c :: cs) x :=
  fun x hx => ⟨(h x hx).1, (h x hx).2.mono (List.suffix_cons c cs)⟩

theorem skipBlanks {line column : Nat} {o : Option Char} {s' : Lexer}
    (h : Lexer.skipBlanks line src column = .ok o s') :
    s'.rest <:+ src ∧ ∀ x ∈ o, isBlank x = false ∧ src.Exhibits x := by
  induction src generalizing column with
  | nil =>
    cases h
    exact ⟨List.suffix_rfl, fun c hc => by cases hc⟩
  | cons c cs ih =>
    rw [Lexer.skipBlanks] at h
    cases hvalue : c.value with
    | none =>
      simp only [hvalue] at h
      cases h
    | some x =>
      simp only [hvalue] at h
      by_cases hx : isBlank x
      · rw [if_pos hx] at h
        obtain ⟨hsuffix, ho⟩ := ih h
        exact ⟨hsuffix.trans (List.suffix_cons c cs), ahead ho⟩
      · rw [if_neg hx] at h
        cases h
        refine ⟨List.suffix_cons c cs, fun d hd => ?_⟩
        cases hd
        exact ⟨by simpa using hx, c, List.mem_cons_self, .inr hvalue⟩

theorem skipLines {line column : Nat} {o : Option Char} {s' : Lexer}
    (h : Lexer.skipLines src line column = .ok o s') :
    s'.rest <:+ src ∧ ∀ x ∈ o, isBlank x = false ∧ src.Exhibits x := by
  induction src generalizing line column with
  | nil =>
    cases h
    exact ⟨List.suffix_rfl, fun c hc => by cases hc⟩
  | cons c cs ih =>
    rw [Lexer.skipLines] at h
    cases hvalue : c.value with
    | none =>
      simp only [hvalue] at h
      cases h
    | some x =>
      simp only [hvalue] at h
      by_cases hline : x = '\n'
      · rw [if_pos hline] at h
        obtain ⟨hsuffix, ho⟩ := ih h
        exact ⟨hsuffix.trans (List.suffix_cons c cs), ahead ho⟩
      · rw [if_neg hline] at h
        by_cases hx : isBlank x
        · rw [if_pos hx] at h
          obtain ⟨hsuffix, ho⟩ := skipBlanks h
          exact ⟨hsuffix.trans (List.suffix_cons c cs), ahead ho⟩
        · rw [if_neg hx] at h
          cases h
          refine ⟨List.suffix_cons c cs, fun d hd => ?_⟩
          cases hd
          exact ⟨by simpa using hx, c, List.mem_cons_self, .inr hvalue⟩

theorem start : Leads start src fun o _ => ∀ x ∈ o, isBlank x = false ∧ src.Exhibits x := by
  rintro s s' o rfl h
  exact skipLines h

theorem next (hsrc : src.Coherent) : Leads next src Rereads := by
  refine start.bind fun o r hr ho => ?_
  cases o with
  | none => exact .here fun _ _ hk => by cases hk
  | some c => exact token (ho c rfl).1 (hsrc.suffix hr)

end Leads
end Lexer

namespace Feed

theorem gather_of_nil {s : Lexer} (hs : s.rest = []) (fuel : Nat) (comment : Option Token) :
    (gather fuel comment s).1 = [] := by
  obtain ⟨rest, line, column⟩ := s
  cases hs
  cases fuel with
  | zero => rfl
  | succ fuel => rfl

theorem gather_legible (fuel : Nat) (comment : Option Token) {s : Lexer} (hs : s.rest.Coherent) :
    ∀ r ∈ (gather fuel comment s).1.dropLast, r.token.kind.isPart →
      Lexer.Legible r.token.kind r.token.lexeme := by
  induction fuel generalizing comment s with
  | zero => exact List.forall_mem_nil _
  | succ fuel ih =>
    rw [gather]
    cases hnext : s.next with
    | error e s' => exact List.forall_mem_nil _
    | ok t s' =>
      obtain ⟨hsuffix, hagain⟩ := Lexer.Leads.next hs s s' t rfl hnext
      simp only
      by_cases heos : t.kind = .eos
      · rw [if_pos heos]
        exact List.forall_mem_nil _
      · rw [if_neg heos]
        by_cases hcomment : t.kind = .comment
        · rw [if_pos hcomment]
          exact ih (some t) (hs.suffix hsuffix)
        · rw [if_neg hcomment]
          intro r hr hpart
          by_cases hmore : (gather fuel none s').1 = []
          · rw [hmore] at hr
            cases hr
          · rw [List.dropLast_cons_of_ne_nil hmore] at hr
            obtain rfl | hr := List.mem_cons.1 hr
            · exact (hagain hpart).resolve_left fun hnil => hmore (gather_of_nil hnil fuel none)
            · exact ih none (hs.suffix hsuffix) r hr hpart

end Feed
end StackLang
