import StackLang.Number.Numeral
import StackLang.Proofs.Advance
import StackLang.Proofs.Rereading
import StackLang.Proofs.Streams

namespace StackLang

open Text

namespace Numeral

theorem isDigit_bounds {c : Char} (h : c.isDigit) : 48 ≤ c.toNat ∧ c.toNat ≤ 57 := by
  obtain ⟨hle, hge⟩ := Bool.and_eq_true_iff.1 h
  exact ⟨of_decide_eq_true hle, of_decide_eq_true hge⟩

/-- What a number is written with. -/
def Figure (c : Char) : Prop := c.isDigit ∨ c = '.' ∨ c = '-'

theorem Figure.plainDigit {c : Char} (h : Figure c) : plainDigit c = c := by
  obtain h | rfl | rfl := h
  · have hc := isDigit_bounds h
    have hval : 0x30 + (c.toNat - 0x30) = c.toNat := by omega
    rw [Numeral.plainDigit, Text.decimal?, if_pos (show c.toNat < 0x80 by omega), if_pos h]
    dsimp only
    rw [hval, Char.ofNat_toNat]
  · decide
  · decide

theorem Figure.isBlank {c : Char} (h : Figure c) : isBlank c = false := by
  obtain h | rfl | rfl := h
  · have hc := isDigit_bounds h
    have hspace : (c.toNat == 0x20) = false := by
      rw [beq_eq_false_iff_ne]
      omega
    rw [Text.isBlank, if_pos (show c.toNat < 0x80 by omega), hspace]
    simp only [Bool.false_or, Bool.or_eq_false_iff, Bool.and_eq_false_iff, decide_eq_false_iff_not]
    omega
  · decide
  · decide

theorem Figure.ne_underscore {c : Char} (h : Figure c) : c ≠ '_' := by
  rintro rfl
  obtain h | h | h := h <;> cases h

theorem joined?_figures {l : List Char} (h : ∀ c ∈ l, Figure c) (before : Bool) :
    joined? before l = some l := by
  induction l generalizing before with
  | nil => rfl
  | cons c l ih =>
    have hc := (h c List.mem_cons_self).ne_underscore
    have hl := ih (fun d hd => h d (List.mem_cons_of_mem c hd)) c.isDigit
    rw [joined?.eq_def]
    split
    · rename_i heq; cases heq
    · rename_i heq
      injection heq with heq
      exact absurd heq hc
    · rename_i heq
      cases heq
      rw [hl]
      rfl

theorem plain?_figures {s : String} (h : ∀ c ∈ s.toList, Figure c) : plain? s = some s.toList := by
  have htrim : trim s.toList = s.toList :=
    Lexer.trim_eq_self (fun c hc => (h c (List.mem_of_mem_head? hc)).isBlank)
      (fun c hc => (h c (List.mem_of_getLast? hc)).isBlank)
  have hmap : s.toList.map plainDigit = s.toList :=
    (List.map_congr_left fun c hc => (h c hc).plainDigit).trans (List.map_id' _)
  rw [plain?, htrim, hmap, joined?_figures h]

theorem signed_digit {c : Char} (h : c.isDigit) (l : List Char) :
    signed (c :: l) = (false, c :: l) := by
  unfold signed
  split
  · rename_i heq
    injection heq with heq
    rw [heq] at h
    cases h
  · rename_i heq
    injection heq with heq
    rw [heq] at h
    cases h
  · rfl

theorem signed_digits {l : List Char} (hne : l ≠ []) (h : ∀ c ∈ l.head?, c.isDigit) :
    signed l = (false, l) := by
  obtain ⟨c, l, rfl⟩ := List.exists_cons_of_ne_nil hne
  exact signed_digit (h c rfl) l

theorem whole?_digits {s : String} (hne : s.toList ≠ []) (h : ∀ c ∈ s.toList, c.isDigit) :
    whole? s = some (natural s.toList : Int) := by
  have hplain := plain?_figures fun c hc => .inl (h c hc)
  have hsigned := signed_digits hne fun c hc => h c (List.mem_of_mem_head? hc)
  have hnatural : natural? s.toList = some (natural s.toList) :=
    if_pos ⟨hne, List.all_eq_true.2 h⟩
  rw [whole?, hplain]
  simp [hsigned, hnatural]

theorem whole?_negative {s : String} {ds : List Char} (hs : s.toList = '-' :: ds) (hne : ds ≠ [])
    (h : ∀ c ∈ ds, c.isDigit) : whole? s = some (-(natural ds : Int)) := by
  have hfigures : ∀ c ∈ s.toList, Figure c := by
    rw [hs]
    exact List.forall_mem_cons.2 ⟨.inr (.inr rfl), fun c hc => .inl (h c hc)⟩
  have hsigned : signed s.toList = (true, ds) := by rw [hs]; rfl
  have hnatural : natural? ds = some (natural ds) := if_pos ⟨hne, List.all_eq_true.2 h⟩
  rw [whole?, plain?_figures hfigures]
  simp [hsigned, hnatural]

theorem digitCount_digits {s : String} (h : ∀ c ∈ s.toList, c.isDigit) :
    digitCount s = s.length := by
  rw [digitCount, List.countP_eq_length.2 fun c hc => ?_, String.length_toList]
  rw [Figure.plainDigit (.inl (h c hc))]
  exact h c hc

theorem int?_digits {s : String} (hne : s.toList ≠ []) (h : ∀ c ∈ s.toList, c.isDigit) :
    int? s = if s.length ≤ digitLimit then some (natural s.toList : Int) else none := by
  rw [int?, digitCount_digits h, whole?_digits hne h]

theorem int?_eq_some {s : String} {i : Int} :
    int? s = some i ↔ digitCount s ≤ digitLimit ∧ whole? s = some i := by
  unfold int?
  split <;> simp [*]

theorem decimal?_digits {ds fs : List Char} (hne : ds ≠ []) (hds : ∀ c ∈ ds, c.isDigit)
    (hfs : ∀ c ∈ fs, c.isDigit) : decimal? false (ds ++ '.' :: fs) =
      some (scaled false (natural (ds ++ fs)) (-fs.length)) := by
  have hwhole : (ds ++ '.' :: fs).takeWhile Char.isDigit = ds := by
    rw [List.takeWhile_append_of_pos hds]
    simp
  have hrest : (ds ++ '.' :: fs).dropWhile Char.isDigit = '.' :: fs := by
    rw [List.dropWhile_append_of_pos hds]
    simp
  have hplaces : fs.takeWhile Char.isDigit = fs := List.takeWhile_eq_self_iff.2 hfs
  have hnone : fs.dropWhile Char.isDigit = [] := List.dropWhile_eq_nil_iff.2 hfs
  simp [decimal?, hwhole, hrest, hplaces, hnone, hne, exponent?]

theorem double?_digits {s : String} {ds fs : List Char} (hs : s.toList = ds ++ '.' :: fs)
    (hne : ds ≠ []) (hds : ∀ c ∈ ds, c.isDigit) (hfs : ∀ c ∈ fs, c.isDigit) :
    double? s = some (scaled false (natural (ds ++ fs)) (-fs.length)) := by
  have hfigures : ∀ c ∈ s.toList, Figure c := by
    intro c hc
    rw [hs, List.mem_append, List.mem_cons] at hc
    obtain hc | hc | hc := hc
    · exact .inl (hds c hc)
    · exact .inr (.inl hc)
    · exact .inl (hfs c hc)
  have hsigned : signed s.toList = (false, s.toList) := by
    obtain ⟨d, ds, rfl⟩ := List.exists_cons_of_ne_nil hne
    rw [hs, List.cons_append]
    exact signed_digit (hds d List.mem_cons_self) _
  -- no name of a value has a point in it
  have hpoint : '.' ∈ s.toList.map Char.toLower := List.mem_map.2 ⟨'.', by simp [hs], by decide⟩
  rw [double?, plain?_figures hfigures]
  simp only [Option.bind_eq_bind, Option.bind_some, hsigned]
  generalize hname : String.ofList (s.toList.map Char.toLower) = name
  have hmem : '.' ∈ name.toList := by rwa [← hname, String.toList_ofList]
  split
  · simp at hmem
  · simp at hmem
  · simp at hmem
  · rw [hs, decimal?_digits hne hds hfs]

end Numeral
namespace Token

/-- If the token is a number, then it is digits without a leading zero, with a point and digits
behind them for a double. -/
structure WellNumbered (t : Token) : Prop where
  whole : t.kind = .intVal → Lexer.Digits t.lexeme.toList
  decimal : t.kind = .doubleVal → ∃ ds fs, t.lexeme.toList = ds ++ '.' :: fs ∧
    Lexer.Digits ds ∧ fs ≠ [] ∧ ∀ d ∈ fs, isDigit d

/-- If the token is a number, then its text can be read as one. -/
structure Converts (t : Token) : Prop where
  int : t.kind = .intVal → (Numeral.int? t.lexeme).isSome
  double : t.kind = .doubleVal → (Numeral.double? t.lexeme).isSome

/-- If the token is a whole number, then it has no more digits than can be read. -/
def Short (t : Token) : Prop := t.kind = .intVal → t.lexeme.length ≤ Numeral.digitLimit

theorem converts_iff_of_not {t : Token} (h : ¬t.isNumber) : t.Converts ↔ t.Short := by
  have hkind : t.kind ≠ .intVal ∧ t.kind ≠ .doubleVal := by
    simpa [isNumber] using h
  exact ⟨fun _ hk => absurd hk hkind.1,
    fun _ => ⟨fun hk => absurd hk hkind.1, fun hk => absurd hk hkind.2⟩⟩

theorem WellNumbered.of_spellable {t : Token} (h : t.isNumber → Spellable t.kind t.lexeme.toList) :
    t.WellNumbered := by
  obtain ⟨kind, lexeme, line, column⟩ := t
  have hordinary {k : Kind} {w : String} (h : reserved? w = some k) : Lexer.Ordinary k := by
    have := Lexer.ordinary_reserved w
    rwa [h] at this
  have hsigns : signs.all fun x => decide (Lexer.Ordinary x.1) := by decide
  constructor
  · rintro rfl
    generalize hl : lexeme.toList = l at h
    cases h rfl with
    | keyword hk => exact absurd rfl (hordinary hk).2.1
    | whole hdigits => exact hdigits
    | sign hk => exact absurd rfl (of_decide_eq_true (List.all_eq_true.1 hsigns _ hk)).2.1
  · rintro rfl
    generalize hl : lexeme.toList = l at h
    cases h rfl with
    | keyword hk => exact absurd rfl (hordinary hk).2.2
    | decimal hdigits hne hfs => exact ⟨_, _, rfl, hdigits, hne, hfs⟩
    | sign hk => exact absurd rfl (of_decide_eq_true (List.all_eq_true.1 hsigns _ hk)).2.2

theorem isDigit_of_ascii {d : Char} (h : isDigit d) (hd : d.toNat < 0x80) : d.isDigit := by
  rwa [isDigit, if_pos hd] at h

theorem WellNumbered.converts_iff {t : Token} (h : t.WellNumbered)
    (hascii : ∀ d ∈ t.lexeme.toList, d.toNat < 0x80) : t.Converts ↔ t.Short := by
  have hint (hk : t.kind = .intVal) : (Numeral.int? t.lexeme).isSome ↔
      t.lexeme.length ≤ Numeral.digitLimit := by
    have hdigits := h.whole hk
    rw [Numeral.int?_digits hdigits.ne_nil fun d hd =>
      isDigit_of_ascii (hdigits.isDigit d hd) (hascii d hd)]
    split <;> simp [*]
  refine ⟨fun hconverts hk => (hint hk).1 (hconverts.int hk),
    fun hshort => ⟨fun hk => (hint hk).2 (hshort hk), fun hk => ?_⟩⟩
  obtain ⟨ds, fs, hl, hdigits, -, hfs⟩ := h.decimal hk
  rw [hl] at hascii
  rw [Numeral.double?_digits hl hdigits.ne_nil
    (fun d hd => isDigit_of_ascii (hdigits.isDigit d hd) (hascii d (by simp [hd])))
    (fun d hd => isDigit_of_ascii (hfs d hd) (hascii d (by simp [hd])))]
  rfl

end Token

namespace Lexer

variable {s s' : Lexer} {t : Token}

theorem Numbers.mono {A B : Char → Prop} (h : Numbers A t) (hAB : ∀ d, A d → B d) : Numbers B t :=
  ⟨h.isNumber, h.written, fun d hd => (h.made d hd).imp_right (hAB d)⟩

theorem numbers_of_next (hs : s.rest.Coherent) (h : next s = .ok t s') (ht : t.isNumber) :
    Numbers s.rest.Exhibits t := by
  simp only [next, Bind.bind, EStateM.bind] at h
  cases hstart : start s with
  | error e s₁ =>
    rw [hstart] at h
    cases h
  | ok o s₁ =>
    rw [hstart] at h
    obtain ⟨hsuffix, ho⟩ := Leads.start s s₁ o rfl hstart
    cases o with
    | none =>
      cases h
      cases ht
    | some c =>
      obtain hordinary | hclosing | ⟨hdigit, hnumeral⟩ := token_cases h
      · obtain ⟨kind, lexeme, line, column⟩ := t
        simp only [Token.isNumber, Bool.or_eq_true, beq_iff_eq] at ht
        exact absurd ht (not_or_intro hordinary.2.1 hordinary.2.2)
      · obtain ⟨-, hparen | hnumbers⟩ := Leads.closing_numbers s₁ s' t rfl hclosing
        · rw [Token.isNumber, hparen] at ht
          cases ht
        · exact hnumbers.mono fun d hd => hd.mono hsuffix
      · obtain ⟨-, hnumbers⟩ :=
          Leads.numeral_numbers hdigit (hs.suffix hsuffix) s₁ s' t rfl hnumeral
        refine hnumbers.mono fun d hd => ?_
        obtain rfl | hd := hd
        · exact (ho d rfl).2
        · exact hd.mono hsuffix

theorem exists_next_of_mem {fuel : Nat} (h : t ∈ (listing fuel s).tokens) :
    ∃ n s', next (afterCalls n s) = .ok t s' := by
  induction fuel generalizing s with
  | zero => cases h
  | succ fuel ih =>
    rw [listing] at h
    cases hnext : next s with
    | error e s₁ =>
      rw [hnext] at h
      cases h
    | ok u s₁ =>
      rw [hnext] at h
      dsimp only at h
      split at h
      · obtain rfl := List.mem_singleton.1 h
        exact ⟨0, s₁, hnext⟩
      · obtain rfl | h := List.mem_cons.1 h
        · exact ⟨0, s₁, hnext⟩
        · obtain ⟨n, s', hn⟩ := ih h
          exact ⟨n + 1, s', by rw [afterCalls, hnext]; exact hn⟩

end Lexer

end StackLang
