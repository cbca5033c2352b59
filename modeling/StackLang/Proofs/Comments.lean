import StackLang.Proofs.Displacement

namespace StackLang

open Text

def Token.lowered (t : Token) : Token := { t with line := t.line + 1 }

namespace Failure

def unplaced : Failure → Failure
  | .diagnosis (.lexical (.located what _ _)) => .lexical (.located what 0 0)
  | e => e

def lowered : Failure → Failure
  | .diagnosis (.lexical (.located what line column)) => .lexical (.located what (line + 1) column)
  | e => e

end Failure

namespace Lexer

namespace Listing

/-- Kinds and texts of the tokens and the failure, if there is one, without their places. -/
def unplaced (l : Listing) : List Token × Option Failure :=
  (l.tokens.map Token.unplaced, l.failure.map Failure.unplaced)

def lowered (l : Listing) : List Token × Option Failure :=
  (l.tokens.map Token.lowered, l.failure.map Failure.lowered)

end Listing

namespace Displacement

def anywhere : Displacement where
  line _ _ := True
  column _ _ := True
  line_succ := id
  column_succ := id
  column_pred := id
  column_zero := trivial

def below : Displacement where
  line m n := n = m + 1
  column m n := n = m
  line_succ h := congrArg (· + 1) h
  column_succ h := congrArg (· + 1) h
  column_pred h := congrArg (· - 1) h
  column_zero := rfl

theorem unplaced_token {t u : Token} (h : anywhere.Tokens t u) : t.unplaced = u.unplaced := by
  rw [Token.unplaced, Token.unplaced, h.kind, h.lexeme]

theorem unplaced_failure {e f : Failure} (h : anywhere.Failures e f) : e.unplaced = f.unplaced := by
  cases h with
  | crash | plain => rfl
  | located => rfl

theorem lowered_token {t u : Token} (h : below.Tokens t u) : u = t.lowered := by
  obtain ⟨k, w, l, c⟩ := t
  obtain ⟨k', w', l', c'⟩ := u
  obtain ⟨rfl, rfl, hl, hc⟩ := h
  cases (show l' = l + 1 from hl)
  cases (show c' = c from hc)
  rfl

theorem lowered_failure {e f : Failure} (h : below.Failures e f) : f = e.lowered := by
  cases h with
  | crash => rfl
  | plain x hx =>
    cases x with
    | located what l c => exact (hx what l c rfl).elim
    | _ => rfl
  | located what hl hc =>
    cases hl
    cases hc
    rfl

theorem Listings.map_eq {D : Displacement} {l m : Listing} (h : D.Listings l m)
    {f g : Token → Token} {p q : Failure → Failure} (hf : ∀ t u, D.Tokens t u → f t = g u)
    (hp : ∀ e e', D.Failures e e' → p e = q e') :
    (l.tokens.map f, l.failure.map p) = (m.tokens.map g, m.failure.map q) := by
  obtain ⟨tokens, failure, s⟩ := l
  obtain ⟨tokens', failure', s'⟩ := m
  apply Prod.ext
  · have htokens : List.Forall₂ D.Tokens tokens tokens' := h.tokens
    change tokens.map f = tokens'.map g
    induction htokens with
    | nil => rfl
    | cons ht _ ih => rw [List.map_cons, List.map_cons, hf _ _ ht, ih ⟨‹_›, h.failure⟩]
  · have hfailure : Option.Rel D.Failures failure failure' := h.failure
    change failure.map p = failure'.map q
    cases hfailure with
    | none => rfl
    | some he => exact congrArg some (hp _ _ he)

theorem unplaced_eq {l m : Listing} (h : anywhere.Listings l m) : l.unplaced = m.unplaced :=
  h.map_eq (fun _ _ => unplaced_token) fun _ _ => unplaced_failure

theorem lowered_eq {l m : Listing} (h : below.Listings l m) :
    (m.tokens, m.failure) = l.lowered := by
  have hmap := h.map_eq (g := id) (q := id) (fun _ _ ht => (lowered_token ht).symm)
    fun _ _ he => (lowered_failure he).symm
  rw [List.map_id, Option.map_id] at hmap
  exact hmap.symm

end Displacement

theorem tokens_unplaced {cs : List Char} (line column line' column' : Nat) :
    (facing cs line column).tokens.unplaced = (facing cs line' column').tokens.unplaced :=
  Displacement.unplaced_eq (Displacement.listing _ ⟨rfl, trivial, trivial⟩)

theorem tokens_lowered (cs : List Char) (line column : Nat) :
    ((facing cs (line + 1) column).tokens.tokens, (facing cs (line + 1) column).tokens.failure) =
      (facing cs line column).tokens.lowered :=
  Displacement.lowered_eq (Displacement.listing _ ⟨rfl, rfl, rfl⟩)

theorem tokens_blank {b : Char} (hb : isBlank b) (cs : List Char)
    (line column line' column' : Nat) : (facing (b :: cs) line column).tokens.unplaced =
      (facing cs line' column').tokens.unplaced := by
  obtain ⟨l, c, h⟩ := next_dropWhile (b :: cs) line column
  obtain ⟨l', c', h'⟩ := next_dropWhile cs line' column'
  rw [List.dropWhile_cons_of_pos hb] at h
  -- the two texts differ in length, but the fuel of the longer one does for both
  have hmore : listing (cs.length + 2) (facing (b :: cs) line column) =
      (facing (b :: cs) line column).tokens := listing_of_lt (by simp [facing])
  have hless : listing (cs.length + 2) (facing cs line' column') =
      (facing cs line' column').tokens := listing_of_lt (by simp [facing])
  rw [← hmore, ← hless]
  apply Displacement.unplaced_eq
  apply Displacement.listing_of_next fun s t => Displacement.listing _
  rw [h, h']
  exact Displacement.Parallels.next _ _ ⟨rfl, trivial, trivial⟩

/-- Where the lexer stands behind a comment, in front of what follows the line break. -/
def behindBreak (r : List Char) (line : Nat) : Lexer :=
  if r.head?.any isWordChar then facing r line 0 else facing r.tail line 1

theorem commentText_eq {c : List Char} (hc : '\n' ∉ c) (r : List Char) (line column : Nat) :
    commentText line ((c ++ '\n' :: r).map Cell.ofChar) column =
      .ok (c.filter (· != '/')) (behindBreak r (line + 1)) := by
  induction c generalizing column with
  | nil =>
    have hbreak : commentText line (Cell.ofChar '\n' :: r.map Cell.ofChar) column =
        (do unless ← peekIs isWordChar do discard read
            return [] : Scan (List Char)) (facing r (line + 1) 0) := rfl
    rw [List.nil_append, List.map_cons, hbreak, behindBreak]
    cases r with
    | nil => rfl
    | cons d r =>
      by_cases hd : isWordChar d
      · simp [hd, peekIs, peek, facing, Cell.ofChar, bind, EStateM.bind, pure, EStateM.pure]
      · simp [hd, peekIs, peek, read, facing, Cell.ofChar, bind, EStateM.bind, pure, EStateM.pure,
          discard, Functor.discard, EStateM.map, Functor.mapConst]
  | cons x c ih =>
    have hx : x ≠ '\n' := by
      rintro rfl
      exact hc List.mem_cons_self
    have hmore := ih (fun h => hc (List.mem_cons_of_mem x h)) (column + 1)
    rw [List.cons_append, List.map_cons, commentText, hmore]
    by_cases hslash : x = '/'
    · subst hslash
      rfl
    · simp [Cell.ofChar, hx, hslash]

theorem next_comment {c : List Char} (hc : '\n' ∉ c) (r : List Char) (line column : Nat) :
    next (facing ('/' :: '/' :: c ++ '\n' :: r) line column) =
      .ok ⟨.comment, String.ofList (c.filter (· != '/')), line, column + 1⟩
        (behindBreak r (line + 1)) := by
  -- the second slash is read as part of the text, which drops all slashes
  have htext := commentText_eq (c := '/' :: c) (by simpa using hc) r line (column + 1)
  have hnext : next (facing ('/' :: '/' :: c ++ '\n' :: r) line column) =
      slash (facing ('/' :: c ++ '\n' :: r) line (column + 1)) := rfl
  have hslash : slash (facing ('/' :: c ++ '\n' :: r) line (column + 1)) =
      (do let text ← (fun s => commentText s.line s.rest s.column : Scan (List Char))
          return ⟨.comment, String.ofList text, line, column + 1⟩ : Scan Token)
        (facing ('/' :: c ++ '\n' :: r) line (column + 1)) := rfl
  rw [hnext, hslash]
  simp only [bind, EStateM.bind, facing, htext]
  rfl

section Behind

variable {r : List Char} (line : Nat)

theorem lowered_behindBreak :
    ((behindBreak r (line + 1)).tokens.tokens, (behindBreak r (line + 1)).tokens.failure) =
      (behindBreak r line).tokens.lowered := by
  unfold behindBreak
  split
  · exact tokens_lowered r line 0
  · exact tokens_lowered r.tail line 1

theorem behindBreak_of_word (hr : r.head?.any isWordChar) : behindBreak r line = facing r line 0 :=
  if_pos hr

theorem unplaced_behindBreak (hr : ¬r.head?.any isWordChar) :
    (behindBreak r line).tokens.unplaced = (facing r.tail line 0).tokens.unplaced := by
  rw [behindBreak, if_neg hr]
  exact tokens_unplaced line 1 line 0

theorem unplaced_behindBreak_of_blank (hr : r.head?.all isBlank) :
    (behindBreak r line).tokens.unplaced = (facing r line 0).tokens.unplaced := by
  by_cases hword : r.head?.any isWordChar
  · rw [behindBreak_of_word line hword]
  · rw [unplaced_behindBreak line hword]
    cases r with
    | nil => rfl
    | cons b r => exact (tokens_blank hr r line 0 line 0).symm

end Behind

/-- A comment gives one token, which holds its text without slashes. What follows the line break is
read as it is at the start of a source, a line further down, if it begins with a letter or a digit.
Otherwise its first character is skipped, which makes no difference if that is a blank. -/
theorem tokens_comment (c r : String) (hc : '\n' ∉ c.toList) :
    ∃ more : Listing,
      (ofSource (.ofText ("//" ++ c ++ "\n" ++ r))).tokens.tokens =
        ⟨.comment, String.ofList (c.toList.filter (· != '/')), 1, 1⟩ :: more.lowered.1 ∧
      (ofSource (.ofText ("//" ++ c ++ "\n" ++ r))).tokens.failure = more.lowered.2 ∧
      (r.toList.head?.any isWordChar → more = (ofSource (.ofText r)).tokens) ∧
      (¬r.toList.head?.any isWordChar →
        more.unplaced = (ofSource (.ofText (String.ofList r.toList.tail))).tokens.unplaced) ∧
      (r.toList.head?.all isBlank → more.unplaced = (ofSource (.ofText r)).tokens.unplaced) := by
  have hsource : ofSource (.ofText ("//" ++ c ++ "\n" ++ r)) =
      facing ('/' :: '/' :: c.toList ++ '\n' :: r.toList) 1 0 := by
    simp [ofSource, Source.ofText, facing]
  have htail : ofSource (.ofText (String.ofList r.toList.tail)) = facing r.toList.tail 1 0 := by
    simp [ofSource, Source.ofText, facing]
  obtain ⟨htokens, hfailure⟩ := tokens_of_next (next_comment hc r.toList 1 0) (by simp)
  obtain ⟨hfirst, hsecond⟩ := Prod.mk.inj (lowered_behindBreak (r := r.toList) 1)
  rw [hsource, htokens, hfailure, hfirst, hsecond, htail]
  exact ⟨_, rfl, rfl, fun h => congrArg tokens (behindBreak_of_word 1 h), unplaced_behindBreak 1,
    unplaced_behindBreak_of_blank 1⟩

theorem tokens_comment_word : '\n' ∉ "a/b".toList ∧
    (ofSource (.ofText ("//" ++ "a/b" ++ "\n" ++ "x;"))).tokens.tokens =
      ⟨.comment, "ab", 1, 1⟩ :: (ofSource (.ofText "x;")).tokens.lowered.1 := by
  have hc : '\n' ∉ "a/b".toList := by decide
  obtain ⟨more, htokens, -, hword, -⟩ := tokens_comment "a/b" "x;" hc
  have hfirst : "x;".toList.head?.any isWordChar := by decide
  rw [hword hfirst] at htokens
  exact ⟨hc, htokens⟩

/-- A sign at the start of the next line is lost. -/
theorem tokens_comment_sign : ¬∀ c r : String, '\n' ∉ c.toList →
    (ofSource (.ofText ("//" ++ c ++ "\n" ++ r))).tokens.unplaced.1.tail =
      (ofSource (.ofText r)).tokens.unplaced.1 := by
  intro h
  have hsemicolon := h "c" ";x" (by decide)
  revert hsemicolon
  decide +kernel

end Lexer
end StackLang
