import StackLang.Proofs.Languages
import StackLang.Proofs.Printing

namespace StackLang

open Token Grammar

def Program.unplaced (p : Program) : Program := p.relabel Token.unplaced

namespace Parse

variable {α : Type} {a : List Kind} {R : α → List Kind → Prop}

theorem Yields.suffix {p : Parse α} (h : Yields p a R) : Yields p a fun _ b => b <:+ a := by
  intro s s' x hs hx
  obtain ⟨b, hs', hb, hcomplete, -⟩ := h s s' x hs hx
  exact ⟨b, hs', hb, hcomplete, hb⟩

end Parse

namespace Parser

open Parse

variable {n : Nat} {a : List Kind}

theorem structDef_closes : Parse.Yields (structDef n) a fun _ b => .rbrace :: b <:+ a := by
  refine .eat_bind (by decide) fun b hb => .take_bind (by decide) fun _ c hc =>
    .eat_bind (by decide) fun d hd => fields_yields.suffix.bind fun _ e he => ?_
  refine .eat_bind (by decide) fun f hf => .pure ?_
  subst hb hc hd hf
  exact he.trans (List.suffix_append [Kind.structKw, .id, .lbrace] d)

theorem funDef_closes : Parse.Yields (funDef n) a fun _ b => .rbrace :: b <:+ a := by
  rw [funDef]
  refine returnType_yields.suffix.bind fun _ b hb => .take_bind (by decide) fun _ c hc => ?_
  refine .eat_bind (by decide) fun d hd => parameters_yields.suffix.bind fun _ e he => ?_
  refine .expect_bind (by decide) fun f hf => .eat_bind (by decide) fun g hg => ?_
  refine body_yields.suffix.bind fun _ i hi => .expect_bind (by decide) fun j hj => .pure ?_
  subst hc hd hf hg hj
  have hbody : .rbrace :: j <:+ d :=
    (hi.trans (List.suffix_append [Kind.rparen, .lbrace] g)).trans he
  exact (hbody.trans (List.suffix_append [Kind.id, .lparen] d)).trans hb

theorem definitions_close : Parse.Yields (definitions n) a fun _ b =>
    front b = .eos ∧ (b = a ∨ .rbrace :: b <:+ a) := by
  induction n generalizing a with
  | zero => exact .throw
  | succ n ih =>
    have hnext {b c : List Kind} (hb : .rbrace :: b <:+ a) (hc : c = b ∨ .rbrace :: c <:+ b) :
        .rbrace :: c <:+ a := by
      obtain rfl | hc := hc
      · exact hb
      · exact hc.trans ((List.suffix_cons _ _).trans hb)
    rw [definitions]
    refine .kind ?_
    split
    · rename_i hk
      exact .pure ⟨hk, .inl rfl⟩
    · refine structDef_closes.bind fun _ b hb => ih.bind fun _ c hc => .pure ?_
      exact ⟨hc.1, .inr (hnext hb hc.2)⟩
    · refine funDef_closes.bind fun _ b hb => ih.bind fun _ c hc => .pure ?_
      exact ⟨hc.1, .inr (hnext hb hc.2)⟩

theorem program_of_parse {source : Source} {p : Program} (h : parse source = .ok p) :
    ∃ s, program (Feed.ofSource source) = .ok p s := by
  rw [parse, EStateM.run] at h
  cases hprogram : program (Feed.ofSource source) with
  | ok p' s =>
    rw [hprogram] at h
    cases h
    exact ⟨s, rfl⟩
  | error e s =>
    rw [hprogram] at h
    cases h

theorem kinds_of_program {source : Source} {p : Program} {s : Feed}
    (h : program (Feed.ofSource source) = .ok p s) :
    kinds (Feed.ofSource source).ahead = [] ∨ [.rbrace] <:+ kinds (Feed.ofSource source).ahead := by
  obtain ⟨_, _, hget, h⟩ := exists_of_bind h
  cases hget
  obtain ⟨_, s₁, hadvance, h⟩ := exists_of_bind h
  obtain ⟨_, s₂, hdefs, -⟩ := exists_of_bind h
  obtain ⟨hfaces, -⟩ := faces_of_advance hadvance
  obtain ⟨b, -, hsuffix, -, hfront, hb⟩ := definitions_close s₁ s₂ _ hfaces hdefs
  obtain rfl := eq_nil_of_front hsuffix hfront
  obtain hb | hb := hb
  · exact .inl hb.symm
  · exact .inr hb

theorem legible_of_program {source : Source} (hsource : source.Coherent) {p : Program} {s : Feed}
    (h : program (Feed.ofSource source) = .ok p s) :
    ∀ r ∈ (Feed.ofSource source).ahead, r.token.kind.isPart →
      Lexer.Legible r.token.kind r.token.lexeme := by
  have hlegible := Feed.gather_legible ((Lexer.ofSource source).rest.length + 1) none
    (s := Lexer.ofSource source) hsource
  change ∀ r ∈ (Feed.ofSource source).ahead.dropLast, _ at hlegible
  have hlast := kinds_of_program h
  obtain hahead | ⟨l, x, hahead⟩ := List.eq_nil_or_concat' (Feed.ofSource source).ahead
  · rw [hahead]
    exact List.forall_mem_nil _
  · rw [hahead] at hlegible hlast ⊢
    rw [List.dropLast_concat] at hlegible
    have hx : x.token.kind = .rbrace := by
      obtain hnil | hsuffix := hlast
      · simp [kinds] at hnil
      · simpa [kinds, List.singleton_suffix_iff_getLast?_eq_some] using hsuffix
    refine List.forall_mem_append.2 ⟨hlegible, List.forall_mem_singleton.2 fun hpart => ?_⟩
    rw [hx] at hpart
    cases hpart

end Parser

namespace Printer

open Lexer

theorem exists_keepsLegible : ∃ f, Relabels f ∧ KeepsLegible f ∧
    ∀ t : Token, (t.kind.isPart → Legible t.kind t.lexeme) → f t = t := by
  classical
  -- The line serves as the mark, since nothing reads it while a tree is made.
  refine ⟨fun t => if t.kind.isPart → Legible t.kind t.lexeme then t else
    { t with line := t.line + 1 }, ⟨fun t => ?_, fun t ht => if_pos ?_⟩, fun t hkept => ?_,
    fun t ht => if_pos ht⟩
  · split <;> rfl
  · rw [ht]
    intro hpart
    cases hpart
  · by_contra hno
    beta_reduce at hkept
    rw [if_neg hno] at hkept
    exact absurd (congrArg Token.line hkept) (Nat.succ_ne_self _)

theorem exists_lexes {source : Source} (hsource : source.Coherent) {p : Program} {s : Feed}
    (hparse : Parser.program (Feed.ofSource source) = .ok p s) (hp : p.faithful) :
    ∃ text l, Write.result (program p) = (text, none) ∧ Fits p.written l ∧
      (∀ t ∈ l, t.kind ≠ .comment) ∧ Lexes text.toList l := by
  -- All tokens of the source keep their lines, so those of the tree do.
  obtain ⟨f, hf, hkeeps, hlegible⟩ := exists_keepsLegible
  have hfeed : (Feed.ofSource source).relabel f = Feed.ofSource source := by
    have hahead : (Feed.ofSource source).ahead.map (fun r => { r with token := f r.token }) =
        (Feed.ofSource source).ahead := by
      refine (List.map_congr_left fun r hr => ?_).trans (List.map_id _)
      rw [hlegible r.token (Parser.legible_of_program hsource hparse r hr)]
      rfl
    rw [Feed.relabel, hahead]
    rfl
  have hkept := Parser.relabel_eq_of_program hf hfeed hparse
  obtain ⟨text, l, hl, hkinds, hrun, htext⟩ := prints_program hkeeps hp hkept
  refine ⟨String.ofList text, l, ?_, hl, hkinds, ?_⟩
  · rw [Write.result, EStateM.run, hrun, String.empty_append]
  · have hread := (htext [] trivial).2 [] (.nil rfl)
    rwa [List.append_nil, List.append_nil, ← String.toList_ofList (l := text)] at hread

end Printer

def Token.stripped (t : Token) : Token := if t.kind = .eos then t else t.unplaced

theorem Token.unplaced_stripped (t : Token) : t.stripped.unplaced = t.unplaced := by
  unfold Token.stripped
  split <;> rfl

theorem map_stripped_of_unplaced {l l' : List Token} (hl : ∀ t ∈ l, t.kind ≠ .eos)
    (h : l.map Token.unplaced = l'.map Token.unplaced) :
    l.map Token.stripped = l'.map Token.stripped := by
  induction l generalizing l' with
  | nil =>
    obtain rfl : l' = [] := by simpa using h.symm
    rfl
  | cons t l ih =>
    cases l' with
    | nil => cases h
    | cons u l' =>
      simp only [List.map_cons, List.cons.injEq] at h
      obtain ⟨ht, hrest⟩ := List.forall_mem_cons.1 hl
      have hkind : t.unplaced.kind = u.unplaced.kind := congrArg Token.kind h.1
      have hu : u.kind ≠ .eos := fun hu => ht (hkind.trans hu)
      rw [List.map_cons, List.map_cons, ih hrest h.2, Token.stripped, Token.stripped, if_neg ht,
        if_neg hu, h.1]

theorem relabels_stripped : Relabels Token.stripped where
  kind t := by
    unfold Token.stripped
    split <;> rfl
  eos t ht := if_pos ht

namespace Feed

theorem exists_readings {g : Token → Token} (rs : List Reading) (l : List Token)
    (h : (rs.map Reading.token).map g = l.map g) :
    ∃ rs' : List Reading, rs'.map Reading.token = l ∧
      rs'.map (fun r => { r with token := g r.token }) =
        rs.map fun r => { r with token := g r.token } := by
  induction l generalizing rs with
  | nil =>
    obtain rfl : rs = [] := by simpa using h
    exact ⟨[], rfl, rfl⟩
  | cons t l ih =>
    cases rs with
    | nil => cases h
    | cons r rs =>
      simp only [List.map_cons, List.cons.injEq] at h
      obtain ⟨rs', htokens, hreadings⟩ := ih rs h.2
      refine ⟨{ r with token := t } :: rs', ?_, ?_⟩
      · rw [List.map_cons, htokens]
      · rw [List.map_cons, List.map_cons, hreadings, h.1]

theorem ahead_of_lexes {text : String} {l : List Token} (h : Lexer.Lexes text.toList l)
    (hkinds : ∀ t ∈ l, t.kind ≠ .comment) :
    (∃ line column, (ofSource (.ofText text)).ending = .marks line column) ∧
      ((ofSource (.ofText text)).ahead.map Reading.token).map Token.unplaced =
        l.map Token.unplaced := by
  obtain ⟨hfail, htokens⟩ := Lexer.tokens_of_lexes h
  obtain ⟨t, line, column, ht, hend, hahead⟩ := gather_listing
    ((Lexer.ofSource (.ofText text)).rest.length + 1) none (Lexer.ofSource (.ofText text)) hfail
  refine ⟨⟨line, column, hend⟩, ?_⟩
  have hsignificant : significant (Lexer.ofSource (.ofText text)).tokens.tokens =
      (Lexer.ofSource (.ofText text)).tokens.tokens := by
    refine List.filter_eq_self.2 fun u hu => bne_iff_ne.2 fun hcomment => ?_
    have hmem : u.unplaced ∈ l.map Token.unplaced ++ [⟨.eos, "", 0, 0⟩] :=
      htokens ▸ List.mem_map_of_mem hu
    obtain hmem | hmem := List.mem_append.1 hmem
    · obtain ⟨v, hv, huv⟩ := List.mem_map.1 hmem
      exact hkinds v hv ((congrArg Token.kind huv).trans hcomment)
    · have hkind : u.kind = .eos := congrArg Token.kind (List.mem_singleton.1 hmem)
      rw [hcomment] at hkind
      cases hkind
  rw [← Lexer.tokens, hsignificant] at hahead
  rw [hahead, List.map_append] at htokens
  exact (List.append_inj' htokens rfl).1

end Feed

namespace Parser

theorem parse_of_lexes {p : Program} (hp : p.faithful) {text : String} {l : List Token}
    (hl : Fits p.written l) (hkinds : ∀ t ∈ l, t.kind ≠ .comment)
    (h : Lexer.Lexes text.toList l) :
    ∃ p', parse (.ofText text) = .ok p' ∧ p'.unplaced = p.unplaced := by
  obtain ⟨⟨line, column, hend⟩, hahead⟩ := Feed.ahead_of_lexes h hkinds
  have hmarks : ∀ t ∈ (Feed.ofSource (.ofText text)).ahead.map Reading.token, t.kind ≠ .eos := by
    intro t ht heos
    refine Feed.eos_notMem_gather ((Lexer.ofSource (.ofText text)).rest.length + 1) none
      (Lexer.ofSource (.ofText text)) ?_
    obtain ⟨r, hr, rfl⟩ := List.mem_map.1 ht
    exact List.mem_map.2 ⟨r, hr, heos⟩
  obtain ⟨rs, hrs, hreadings⟩ := Feed.exists_readings (Feed.ofSource (.ofText text)).ahead l
    (map_stripped_of_unplaced hmarks hahead)
  -- The tokens of the tree, put in the place of those that are read, are parsed to the tree itself.
  obtain ⟨s', hs'⟩ := program_written (s := { Feed.ofSource (.ofText text) with ahead := rs }) hp
    hend (hrs ▸ hl)
  have hfeeds : Feed.relabel Token.stripped { Feed.ofSource (.ofText text) with ahead := rs } =
      (Feed.ofSource (.ofText text)).relabel Token.stripped := by
    rw [Feed.relabel, Feed.relabel, hreadings]
  obtain ⟨p', t', ht', hp'⟩ := program_of_relabel_eq relabels_stripped hfeeds hs'
  refine ⟨p', by rw [parse, EStateM.run, ht'], ?_⟩
  have hunplaced : Token.unplaced ∘ Token.stripped = Token.unplaced := funext Token.unplaced_stripped
  rw [Program.unplaced, ← hunplaced, ← Program.relabel_relabel, hp', Program.relabel_relabel,
    hunplaced, Program.unplaced]

end Parser

/-- A program of which the printer loses nothing is printed to a text that is parsed to the same
program, up to the places of its tokens. -/
theorem parse_print (source : Source)
    (hsource : (∃ s, source = .ofText s) ∨ ∃ bytes, source = .ofBytes bytes) {p : Program}
    (hparse : Parser.parse source = .ok p) (hp : p.faithful) :
    ∃ text p', Write.result (Printer.program p) = (text, none) ∧
      Parser.parse (.ofText text) = .ok p' ∧ p'.unplaced = p.unplaced := by
  have hcoherent : source.Coherent := by
    obtain ⟨s, rfl⟩ | ⟨bytes, rfl⟩ := hsource
    · exact Source.coherent_ofText s
    · exact Source.coherent_ofBytes bytes
  obtain ⟨s, hprogram⟩ := Parser.program_of_parse hparse
  obtain ⟨text, l, hresult, hl, hkinds, hlexes⟩ := Printer.exists_lexes hcoherent hprogram hp
  obtain ⟨p', hp'⟩ := Parser.parse_of_lexes hp hl hkinds hlexes
  exact ⟨text, p', hresult, hp'⟩

/-- A struct, a loop with its counter, operators with a call behind them, and a text in quotes. -/
theorem parse_print_counting :
    let source : Source := .ofText ("struct T \x7bint a; T b;\x7d // both\n" ++
      "bool f(T t, int n) \x7bfor (int i = g(h(not n)); i<k(); i=i+1) " ++
      "\x7bif (not (i == n) or true) \x7bprint(\"i: \");\x7d\x7d return n >= f();\x7d")
    ∃ p text p', Parser.parse source = .ok p ∧ p.faithful ∧
      Write.result (Printer.program p) = (text, none) ∧ Parser.parse (.ofText text) = .ok p' ∧
      p'.unplaced = p.unplaced := by
  intro source
  have hfaithful : (Parser.parse source).toOption.any Program.faithful := by decide +kernel
  cases hparse : Parser.parse source with
  | error e =>
    rw [hparse] at hfaithful
    cases hfaithful
  | ok p =>
    rw [hparse] at hfaithful
    obtain ⟨text, p', hresult, hp'⟩ := parse_print source (.inl ⟨_, rfl⟩) hparse hfaithful
    exact ⟨p, text, p', rfl, hfaithful, hresult, hp'⟩

namespace Printer

def Loses (source : String) : Prop :=
  ∃ p text, Parser.parse (.ofText source) = .ok p ∧ Write.result (program p) = (text, none) ∧
    ∀ p', Parser.parse (.ofText text) = .ok p' → p'.unplaced ≠ p.unplaced

def comparison (source : String) : Option (List Mark × Option (List Mark)) :=
  match Parser.parse (.ofText source) with
  | .error _ => none
  | .ok p =>
    match Write.result (program p) with
    | (_, some _) => none
    | (text, none) =>
      some (p.unplaced.marks, (Parser.parse (.ofText text)).toOption.map (·.unplaced.marks))

theorem loses_of_comparison {source : String}
    (h : (comparison source).any fun m => m.2 != some m.1) : Loses source := by
  unfold comparison at h
  split at h
  · cases h
  · rename_i p hparse
    split at h
    · cases h
    · rename_i text hresult
      refine ⟨p, text, hparse, hresult, fun p' hp' hsame => ?_⟩
      rw [hp'] at h
      simp [Except.toOption, hsame] at h

end Printer

/-- The printer loses where an argument ends, indices, the steps of paths in values and in targets,
types of arrays, alternatives, a loop that is one, and the place of a call, which the tree has at
the first name. -/
theorem parse_print_lossy :
    Printer.Loses "void main() \x7bf(1, 2);\x7d" ∧
    Printer.Loses "void main() \x7bx = y[0];\x7d" ∧
    Printer.Loses "void main() \x7bx = y.z;\x7d" ∧
    Printer.Loses "void main() \x7bx.y = 1;\x7d" ∧
    Printer.Loses "void main() \x7barray int x = y;\x7d" ∧
    Printer.Loses "void main() \x7bif (x) \x7b\x7d elseif (y) \x7b\x7d\x7d" ∧
    Printer.Loses "void main() \x7bif (x) \x7b\x7d else \x7bwhile (y) \x7bz = 1;\x7d\x7d\x7d" ∧
    Printer.Loses "void main() \x7bint x = y + f(1);\x7d" := by
  refine ⟨?_, ?_, ?_, ?_, ?_, ?_, ?_, ?_⟩ <;>
    exact Printer.loses_of_comparison (by decide +kernel)

end StackLang
