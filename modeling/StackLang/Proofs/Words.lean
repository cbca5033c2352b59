import StackLang.Proofs.Spacing

namespace StackLang.Lexer

open Text

/-- What is taken of a text that goes on with a word from `w` on, and what is left. -/
def spell (run : Bool) (w : String) : List Char → String × List Char
  | [] => (w, [])
  | x :: cs =>
    if run && isLetter x then spell true (w.push x) cs
    else if !inWord x || (Token.reserved? w).isSome then (w, x :: cs)
    else
      match cs with
      | [] => (w.push x, [])
      | z :: ds =>
        if z = '_' then spell true ((w.push x).push '_') ds
        else if w.push x = "else" ∧ z = 'i' then
          match ds with
          | [] => ("elsei", [])
          | e :: es => spell false ("elsei".push e) es
        else spell false (w.push x) (z :: ds)

theorem spell_cons (run : Bool) (w : String) (x : Char) (cs : List Char) :
    spell run w (x :: cs) =
      if run && isLetter x then spell true (w.push x) cs
      else if !inWord x || (Token.reserved? w).isSome then (w, x :: cs)
      else
        match cs with
        | [] => (w.push x, [])
        | z :: ds =>
          if z = '_' then spell true ((w.push x).push '_') ds
          else if w.push x = "else" ∧ z = 'i' then
            match ds with
            | [] => ("elsei", [])
            | e :: es => spell false ("elsei".push e) es
          else spell false (w.push x) (z :: ds) := by
  rw [spell.eq_def]

theorem wordText_eq_spell (run : Bool) (w : String) (cs : List Char) (line column : Nat) :
    ∃ column', wordText line run w (cs.map Cell.ofChar) column =
      .ok (spell run w cs).1 (facing (spell run w cs).2 line column') := by
  fun_induction spell run w cs generalizing column with
  | case1 run w => exact ⟨column, by rw [List.map_nil, wordText]; rfl⟩
  | case2 run w x cs h ih =>
    obtain ⟨column', hmore⟩ := ih (column + 1)
    refine ⟨column', ?_⟩
    rw [List.map_cons, wordText, ← hmore]
    simp only [Cell.ofChar, h, if_true]
  | case3 run w x cs h hstop =>
    refine ⟨column, ?_⟩
    rw [inWord] at hstop
    rw [List.map_cons, wordText]
    simp only [Cell.ofChar, h, hstop, if_true]
    rfl
  | case4 run w x h hgo =>
    refine ⟨column + 1, ?_⟩
    rw [inWord] at hgo
    rw [List.map_cons, wordText]
    simp only [Cell.ofChar, h, hgo, List.map_nil]
    rfl
  | case5 run w x h hgo ds ih =>
    obtain ⟨column', hmore⟩ := ih (column + 2)
    refine ⟨column', ?_⟩
    rw [inWord] at hgo
    rw [List.map_cons, wordText, ← hmore]
    simp only [Cell.ofChar, h, hgo, List.map_cons, if_true]
    rfl
  | case6 run w x h hgo z hz helse =>
    refine ⟨column + 3, ?_⟩
    rw [inWord] at hgo
    rw [List.map_cons, wordText]
    simp only [Cell.ofChar, h, hgo, List.map_cons, List.map_nil, if_neg hz, if_pos helse]
    rfl
  | case7 run w x h hgo z hz helse e es ih =>
    obtain ⟨column', hmore⟩ := ih (column + 3)
    refine ⟨column', ?_⟩
    rw [inWord] at hgo
    rw [List.map_cons, wordText, ← hmore]
    simp only [Cell.ofChar, h, hgo, List.map_cons, if_neg hz, if_pos helse]
    rfl
  | case8 run w x h hgo z ds hz helse ih =>
    obtain ⟨column', hmore⟩ := ih (column + 1)
    refine ⟨column', ?_⟩
    rw [inWord] at hgo
    rw [List.map_cons, wordText, ← hmore]
    simp only [Cell.ofChar, h, hgo, List.map_cons, if_neg hz, if_neg helse]
    rfl

theorem begins_spell (run : Bool) (w : String) (cs : List Char) :
    w.toList <+: (spell run w cs).1.toList := by
  have hpush {w w' : String} {c : Char} (h : (w.push c).toList <+: w'.toList) :
      w.toList <+: w'.toList := by
    rw [String.toList_push] at h
    exact (List.prefix_append _ _).trans h
  fun_induction spell run w cs with
  | case1 | case3 => exact List.prefix_rfl
  | case2 run w x cs h ih => exact hpush ih
  | case4 => exact hpush List.prefix_rfl
  | case5 run w x h hgo ds ih => exact hpush (hpush ih)
  | case6 run w x h hgo z hz helse =>
    refine hpush (c := x) ?_
    rw [helse.1]
    exact ⟨['i'], rfl⟩
  | case7 run w x h hgo z hz helse e es ih =>
    refine hpush (c := x) ?_
    rw [helse.1]
    exact List.IsPrefix.trans ⟨['i'], rfl⟩ (hpush ih)
  | case8 run w x h hgo z ds hz helse ih => exact hpush ih

theorem suffix_spell (run : Bool) (w : String) (cs : List Char) : (spell run w cs).2 <:+ cs := by
  fun_induction spell run w cs with
  | case1 | case3 => exact List.suffix_rfl
  | case2 run w x cs h ih | case8 run w x h hgo z cs hz helse ih =>
    exact ih.trans (List.suffix_cons _ _)
  | case4 | case6 => exact List.nil_suffix
  | case5 run w x h hgo ds ih => exact ih.trans (List.suffix_append [x, '_'] ds)
  | case7 run w x h hgo z hz helse e es ih => exact ih.trans (List.suffix_append [x, z, e] es)

section Steps

variable {w : String} {x z : Char} {cs r : List Char}

theorem spell_end (run : Bool) (w : String) (hr : EndsWord r) : spell run w r = (w, r) := by
  cases r with
  | nil => rfl
  | cons c r =>
    have hc : inWord c = false := hr c rfl
    have hletter : isLetter c = false :=
      Bool.eq_false_iff.2 fun h => by simp [inWord_of_isLetter h] at hc
    rw [spell_cons]
    simp [hletter, hc]

theorem spell_reserved (hw : (Token.reserved? w).isSome) (cs : List Char) :
    spell false w cs = (w, cs) := by
  cases cs with
  | nil => rfl
  | cons c cs =>
    rw [spell_cons]
    simp [hw]

section Unreserved

variable (hx : inWord x) (hw : Token.reserved? w = none)
include hx hw

theorem spell_last (hr : EndsWord r) : spell false w (x :: r) = (w.push x, r) := by
  cases r with
  | nil =>
    rw [spell_cons]
    simp [hx, hw]
  | cons d r =>
    have hd : inWord d = false := hr d rfl
    have hline : d ≠ '_' := by rintro rfl; cases hd
    have hi : d ≠ 'i' := by rintro rfl; cases hd
    rw [spell_cons]
    simp [hx, hw, hline, hi, spell_end false (w.push x) hr]

theorem spell_underscore (cs : List Char) :
    spell false w (x :: '_' :: cs) = spell true ((w.push x).push '_') cs := by
  rw [spell_cons]
  simp [hx, hw]

theorem spell_else (helse : w.push x = "else") (e : Char) (cs : List Char) :
    spell false w (x :: 'i' :: e :: cs) = spell false ("elsei".push e) cs := by
  rw [spell_cons]
  simp [hx, hw, helse]

theorem spell_else_end (helse : w.push x = "else") : spell false w [x, 'i'] = ("elsei", []) := by
  rw [spell_cons]
  simp [hx, hw, helse]

theorem spell_next (hz : z ≠ '_') (helse : ¬(w.push x = "else" ∧ z = 'i')) (cs : List Char) :
    spell false w (x :: z :: cs) = spell false (w.push x) (z :: cs) := by
  rw [spell_cons]
  simp [hx, hw, hz, helse]

end Unreserved
end Steps

/-- A reserved word in front of this character does not end there. -/
def Excused (k : String) (c : Char) : Prop := k ≠ "elseif" ∧ c = '_' ∨ k = "else" ∧ c = 'i'

/-- From `w` on, no reserved word ends before the end of `more`, but for those that are excused. -/
def Uncut (w : String) (more : List Char) : Prop :=
  ∀ u c rest, more = u ++ c :: rest → (Token.reserved? (w ++ String.ofList u)).isSome →
    Excused (w ++ String.ofList u) c

theorem uncut_nil (w : String) : Uncut w [] := by
  intro u c rest h
  simp at h

theorem uncut_cons {w : String} {x : Char} {more : List Char} :
    Uncut w (x :: more) ↔
      ((Token.reserved? w).isSome → Excused w x) ∧ Uncut (w.push x) more := by
  constructor
  · intro h
    refine ⟨fun hw => by simpa using h [] x more rfl (by simpa using hw), ?_⟩
    rintro u c rest rfl
    rw [push_append_ofList]
    exact h (x :: u) c rest rfl
  · rintro ⟨hhead, htail⟩ u c rest heq
    cases u with
    | nil =>
      cases heq
      simpa using hhead
    | cons y u =>
      cases heq
      rw [← push_append_ofList]
      exact htail u c rest rfl

theorem notMem_of_reserved {u : String} (h : (Token.reserved? u).isSome) : '_' ∉ u.toList := by
  unfold Token.reserved? at h
  split at h <;> first | decide | cases h

theorem eq_of_reserved {e : Char} (h : (Token.reserved? ("elsei".push e)).isSome) :
    "elsei".push e = "elseif" := by
  generalize hu : "elsei".push e = u at h ⊢
  have hchars : u.toList = ['e', 'l', 's', 'e', 'i', e] := by
    rw [← hu, String.toList_push]
    rfl
  unfold Token.reserved? at h
  split at h <;> first | rfl | simp at hchars | cases h

theorem unbroken_of_underscore {w : String} (hw : '_' ∈ w.toList) (more : List Char) :
    Unbroken w more := by
  intro i _
  rw [← Option.not_isSome_iff_eq_none]
  intro h
  exact notMem_of_reserved h (by simp [hw])

theorem uncut_of_underscore {w : String} (hw : '_' ∈ w.toList) (more : List Char) : Uncut w more := by
  intro u c rest _ h
  exact absurd (by simp [hw]) (notMem_of_reserved h)

theorem spell_unbroken (run : Bool) {w : String} {more r : List Char} (hmore : ∀ c ∈ more, inWord c)
    (h : Unbroken w more) (hr : EndsWord r) :
    (spell run w (more ++ r)).1 = w ++ String.ofList more := by
  obtain ⟨_, htext⟩ := wordText_unbroken run hmore h hr 0 0
  obtain ⟨_, hspell⟩ := wordText_eq_spell run w (more ++ r) 0 0
  rw [htext] at hspell
  injection hspell with hword
  exact hword.symm

theorem append_ofList_ne (w : String) (c : Char) (more : List Char) :
    w ≠ w ++ String.ofList (c :: more) := by
  intro h
  have hchars := congrArg String.toList h
  simp at hchars

theorem eq_of_push_eq {w : String} {c : Char} (w' : String) (c' : Char)
    (h : w.push c = w'.push c') : w = w' := by
  have hchars := congrArg String.toList h
  rw [String.toList_push, String.toList_push] at hchars
  exact String.toList_injective (List.append_inj' hchars rfl).1

theorem not_excused_elseif (c : Char) : ¬Excused "elseif" c := by
  rintro (⟨h, -⟩ | ⟨h, -⟩)
  · exact h rfl
  · simp at h

theorem uncut_else {e : Char} {more : List Char} :
    Uncut "else" ('i' :: e :: more) ↔ Uncut ("elsei".push e) more := by
  have hi : "else".push 'i' = "elsei" := by decide
  have hnone : Token.reserved? "elsei" = none := by decide
  rw [uncut_cons, uncut_cons, hi, hnone]
  have hexcused : Excused "else" 'i' := .inr ⟨rfl, rfl⟩
  simp [hexcused]

theorem spell_else_iff {w : String} {x : Char} (hx : inWord x)
    (hreserved : Token.reserved? w = none) (helse : w.push x = "else") (r : List Char) :
    (spell false w (x :: 'i' :: r)).1 = "elsei" ↔ r = [] := by
  cases r with
  | nil => rw [spell_else_end hx hreserved helse]; simp
  | cons d r =>
    rw [spell_else hx hreserved helse]
    refine iff_of_false (fun h => ?_) (List.cons_ne_nil d r)
    obtain ⟨u, hu⟩ := begins_spell false ("elsei".push d) r
    rw [h] at hu
    have hlength := congrArg List.length hu
    simp at hlength

theorem spell_eq_iff {w : String} {more r : List Char} (hmore : ∀ c ∈ more, inWord c)
    (hr : EndsWord r) (hw : w ≠ "elsei")
    (hstop : ∀ c ∈ more.head?, (Token.reserved? w).isSome → ¬Excused w c) :
    (spell false w (more ++ r)).1 = w ++ String.ofList more ↔
      Uncut w more ∧ ¬(w ++ String.ofList more = "elsei" ∧ r ≠ []) := by
  induction hn : more.length using Nat.strong_induction_on generalizing w more with
  | _ n ih =>
  cases more with
  | nil =>
    rw [List.nil_append, spell_end false w hr]
    simp [uncut_nil, hw]
  | cons x more =>
    have hx : inWord x := hmore x List.mem_cons_self
    have htail : ∀ c ∈ more, inWord c := fun c hc => hmore c (List.mem_cons_of_mem x hc)
    cases hreserved : Token.reserved? w with
    | some k =>
      have hsome : (Token.reserved? w).isSome := by rw [hreserved]; rfl
      rw [spell_reserved hsome, uncut_cons]
      exact iff_of_false (append_ofList_ne w x more) fun h => hstop x rfl hsome (h.1.1 hsome)
    | none =>
      have hpush : w.push x ≠ "elsei" := by
        intro h
        rw [eq_of_push_eq "else" 'i' h] at hreserved
        cases hreserved
      have hgoes : Uncut w (x :: more) ↔ Uncut (w.push x) more := by simp [uncut_cons, hreserved]
      rw [hgoes, ← push_append_ofList, List.cons_append]
      cases more with
      | nil =>
        rw [List.nil_append, spell_last hx hreserved hr]
        simp [uncut_nil, hpush]
      | cons z more =>
        by_cases hz : z = '_'
        · subst hz
          have hmem : '_' ∈ ((w.push x).push '_').toList := by simp
          have hexcused : Excused (w.push x) '_' :=
            .inl ⟨fun h => hw (eq_of_push_eq "elsei" 'f' h), rfl⟩
          rw [List.cons_append, spell_underscore hx hreserved, uncut_cons, ← push_append_ofList]
          have hwhole := spell_unbroken true (fun c hc => htail c (List.mem_cons_of_mem _ hc))
            (unbroken_of_underscore hmem more) hr
          have hgoes := uncut_of_underscore hmem more
          refine iff_of_true hwhole ⟨⟨fun _ => hexcused, hgoes⟩, ?_⟩
          rintro ⟨h, -⟩
          have hchars := congrArg String.toList h
          rw [String.toList_append] at hchars
          have : '_' ∈ "elsei".toList := hchars ▸ List.mem_append_left _ hmem
          simp at this
        · by_cases helse : w.push x = "else" ∧ z = 'i'
          · obtain ⟨helse, rfl⟩ := helse
            have hi : "else".push 'i' = "elsei" := by decide
            rw [helse, ← push_append_ofList, hi, List.cons_append]
            cases more with
            | nil =>
              have hempty : "elsei" ++ String.ofList [] = "elsei" := by decide
              rw [List.nil_append, hempty, spell_else_iff hx hreserved helse]
              simp [uncut_cons, uncut_nil, Excused]
            | cons e more =>
              have hlength : more.length < n := by simp at hn; omega
              rw [List.cons_append, spell_else hx hreserved helse, uncut_else, ← push_append_ofList]
              refine ih _ hlength (fun c hc => htail c (by simp [hc])) ?_ ?_ rfl
              · intro h
                have hchars := congrArg String.toList h
                simp at hchars
              · intro c _ hsome
                rw [eq_of_reserved hsome]
                exact not_excused_elseif c
          · rw [List.cons_append, spell_next hx hreserved hz helse, ← List.cons_append]
            refine ih _ (by simp at hn ⊢; omega) htail hpush ?_ rfl
            rintro c ⟨⟩ - (⟨-, h⟩ | h)
            · exact hz h
            · exact helse h

def IsWord (w : String) : Prop :=
  ∃ c more, w.toList = c :: more ∧ c.isAlpha ∧ ∀ d ∈ more, d.isAlphanum ∨ d = '_'

/-- No reserved word ends inside the word, but for those that are excused. -/
def Whole (w : String) : Prop :=
  ∀ k c more, (Token.reserved? k).isSome → w.toList = k.toList ++ c :: more → Excused k c

theorem reserved_of_length {u : String} (h : (Token.reserved? u).isSome) : 2 ≤ u.toList.length := by
  unfold Token.reserved? at h
  split at h <;> first | decide | cases h

theorem reserved_letter (c : Char) : Token.reserved? c.toString = none := by
  rw [← Option.not_isSome_iff_eq_none]
  intro h
  have hlength := reserved_of_length h
  simp [Char.toString] at hlength

theorem uncut_iff_whole {w : String} {c : Char} {more : List Char} (hw : w.toList = c :: more) :
    Uncut c.toString more ↔ Whole w := by
  constructor
  · intro h k d rest hk heq
    cases hu : k.toList with
    | nil =>
      have hlength := reserved_of_length hk
      simp [hu] at hlength
    | cons x u =>
      rw [hw, hu, List.cons_append] at heq
      injection heq with hx hmore
      have hword : c.toString ++ String.ofList u = k := by
        apply String.toList_injective
        rw [hu, ← hx]
        simp [Char.toString]
      rw [← hword] at hk ⊢
      exact h u d rest hmore hk
  · intro h u d rest hmore hk
    refine h _ d rest hk ?_
    rw [hw, hmore]
    simp [Char.toString]

theorem takes_spell {c : Char} (hc : c.isAlpha) (cs : List Char) :
    Takes (c :: cs) ((Token.reserved? (spell false c.toString cs).1).getD .id)
      (spell false c.toString cs).1 (spell false c.toString cs).2 := by
  have hletter := token_of_isLetter (isDigit_of_isAlpha hc) (isLetter_of_isAlpha hc)
  obtain ⟨taken, htaken⟩ := suffix_spell false c.toString cs
  refine takes_of_token (isBlank_of_isAlpha hc) ⟨taken, htaken⟩ ?_
  rw [hletter]
  generalize hspell : spell false c.toString cs = taking at htaken ⊢
  rw [← htaken]
  refine scans_word fun line column => ?_
  rw [htaken, ← hspell]
  exact wordText_eq_spell false c.toString cs line column

/-- A word at the front of a text, with the end of the word behind it, is one token if and only if
no reserved word ends inside it and it is not mistaken for the beginning of `elseif`. -/
theorem next_lexeme_eq_iff {w r : String} (hw : IsWord w) (hr : EndsWord r.toList)
    (line column : Nat) :
    ∃ t s, next ⟨.ofText (w ++ r), line, column⟩ = .ok t s ∧
      (t.lexeme = w ↔ Whole w ∧ ¬(w = "elsei" ∧ r ≠ "")) ∧
      (t.lexeme = w → t.kind = (Token.reserved? w).getD .id) := by
  obtain ⟨c, more, hchars, hc, hmore⟩ := hw
  have hword : c.toString ++ String.ofList more = w := by
    apply String.toList_injective
    simp [Char.toString, hchars]
  have hblank : (c :: (more ++ r.toList)).dropWhile isBlank = c :: (more ++ r.toList) :=
    List.dropWhile_cons_of_neg (by simp [isBlank_of_isAlpha hc])
  have hlexer : (⟨.ofText (w ++ r), line, column⟩ : Lexer) =
      facing (c :: (more ++ r.toList)) line column := by
    rw [facing, Source.ofText, String.toList_append, hchars, List.cons_append]
  obtain ⟨t, rest, line', column', hrun, hkind, hlexeme, -⟩ :=
    (takes_spell hc (more ++ r.toList)).scans line column
  rw [hblank, ← hlexer] at hrun
  refine ⟨t, _, hrun, ?_, ?_⟩
  · have hne : c.toString ≠ "elsei" := by
      intro h
      have hlength := congrArg (fun u => u.toList.length) h
      simp [Char.toString] at hlength
    rw [hlexeme, ← uncut_iff_whole hchars, ← hword,
      spell_eq_iff (fun d hd => inWord_of_isAlphanum (hmore d hd)) hr hne
        (fun d _ h => by rw [reserved_letter] at h; cases h)]
    simp
  · intro h
    rw [hkind, ← hlexeme, h]

theorem whole_int_value : Whole "int_value" := by
  intro k c more hk heq
  unfold Token.reserved? at hk
  split at hk <;> first | exact absurd hk Bool.false_ne_true | simp at heq
  obtain ⟨rfl, -⟩ := heq
  exact .inl ⟨by decide, rfl⟩

theorem next_lexeme_int_value :
    (∃ t s, next ⟨.ofText ("int_value" ++ " = 1;"), 1, 0⟩ = .ok t s ∧
      t.lexeme = "int_value" ∧ t.kind = .id) ∧
    ∃ t s, next ⟨.ofText ("elsei" ++ " = 1;"), 1, 0⟩ = .ok t s ∧ t.lexeme ≠ "elsei" := by
  have hword : IsWord "int_value" :=
    ⟨'i', ['n', 't', '_', 'v', 'a', 'l', 'u', 'e'], by decide, by decide, by simp⟩
  have hword' : IsWord "elsei" := ⟨'e', ['l', 's', 'e', 'i'], by decide, by decide, by simp⟩
  have hend : EndsWord " = 1;".toList := by rintro c ⟨⟩; decide
  constructor
  · obtain ⟨t, s, hrun, hiff, hkind⟩ := next_lexeme_eq_iff hword hend 1 0
    have hlexeme := hiff.2 ⟨whole_int_value, by decide⟩
    exact ⟨t, s, hrun, hlexeme, hkind hlexeme⟩
  · obtain ⟨t, s, hrun, hiff, -⟩ := next_lexeme_eq_iff hword' hend 1 0
    exact ⟨t, s, hrun, fun h => (hiff.1 h).2 ⟨rfl, by decide⟩⟩

end StackLang.Lexer
