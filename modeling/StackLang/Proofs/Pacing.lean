import StackLang.Proofs.Descent

namespace StackLang

def Ending.failure? : Ending → Option Failure
  | .marks _ _ => none
  | .failure e _ _ _ => some e

theorem Token.Kind.ne_eos_of_isOperator {k : Token.Kind} (h : k.isOperator) : k ≠ .eos := by
  rintro rfl
  cases h

namespace Feed

/-- The number of tokens to be consumed: those ahead, and the current one if it is no end mark. -/
def left (s : Feed) : Nat :=
  s.ahead.length + if s.current.all (·.kind = .eos) then 0 else 1

variable {s s' : Feed}

theorem advance_cases (h : Parse.advance s = .ok () s') :
    (∃ r, s.ahead = r :: s'.ahead ∧ s'.current = some r.token ∧ s'.ending = s.ending) ∨
    ∃ t, s'.ahead = [] ∧ s'.current = some t ∧ t.kind = .eos ∧
      s'.ending.failure? = none ∧ s.ending.failure? = none := by
  unfold Parse.advance at h
  split at h
  · rename_i r rs hahead
    cases h
    exact .inl ⟨r, hahead, rfl, rfl⟩
  · split at h
    · rename_i hending
      cases h
      rw [hending]
      exact .inr ⟨_, rfl, rfl, rfl, rfl, rfl⟩
    · cases h

theorem left_advance (h : Parse.advance s = .ok () s') : s'.left ≤ s.left ∧
    ∀ t, s.current = some t → t.kind ≠ .eos → s'.left < s.left := by
  unfold left
  obtain ⟨r, hahead, -, -⟩ | ⟨t', hahead, ht', heos, -, -⟩ := advance_cases h
  · rw [hahead, List.length_cons]
    refine ⟨?_, fun t ht hkind => ?_⟩
    · split <;> omega
    · simp only [ht, Option.all_some, hkind, decide_false, Bool.false_eq_true, ↓reduceIte]
      split <;> omega
  · simp only [hahead, ht', Option.all_some, heos, decide_true]
    exact ⟨Nat.zero_le _, fun t ht hkind => by simp [ht, hkind]⟩

theorem current_advance (h : Parse.advance s = .ok () s') : ∃ t, s'.current = some t := by
  obtain ⟨r, -, hcurrent, -⟩ | ⟨t, -, hcurrent, -⟩ := advance_cases h
  · exact ⟨_, hcurrent⟩
  · exact ⟨t, hcurrent⟩

theorem failure_advance (h : Parse.advance s = .ok () s') :
    s'.ending.failure? = s.ending.failure? := by
  obtain ⟨r, -, -, hending⟩ | ⟨t, -, -, -, hs', hs⟩ := advance_cases h
  · rw [hending]
  · rw [hs', hs]

theorem failure_of_advance {e : Failure} (h : Parse.advance s = .error e s') :
    s.ending.failure? = some e := by
  unfold Parse.advance at h
  split at h
  · cases h
  · split at h
    · cases h
    · rename_i hending
      cases h
      rw [hending]
      rfl

end Feed

/-- A routine that calls another one before it has advanced has the greater rank. -/
@[simp] def Routine.rank : Routine → Nat
  | returnedCalls | moreParameters => 0
  | arguments | moreArguments => 1
  | callee => 2
  | operation => 3
  | selectors => 4
  | index => 5
  | path | creation => 6
  | operand => 7
  | expr | dataType => 8
  | stmt => 9
  | body | block | stmts | fields => 10
  | alternatives => 11
  | definitions => 12

namespace Descent

/-- A bound on the ranks, which leaves room for one token between any two of its multiples. -/
@[simp] def span : Nat := 16

theorem rank_lt_span (r : Routine) : r.rank < span := by
  cases r <;> decide

variable {C : Type → Type} [Plans C] {α β : Type}

def rank (c : C β) : Nat := (Plans.routine c).rank

def Visit.height (v : Visit C) : Nat := span * v.feed.left + rank v.call

def Falls : Nat → List (Visit C) → Nat → Prop
  | b, [], b' => b' ≤ b
  | b, v :: l, b' => v.height < b ∧ Falls v.height l b'

namespace Falls

variable {b b' b₁ b₂ : Nat} {l l' : List (Visit C)}

theorem mono (h : Falls b l b') (hb : b ≤ b₁) (hb' : b₂ ≤ b') : Falls b₁ l b₂ := by
  induction l generalizing b b₁ with
  | nil => exact Nat.le_trans hb' (Nat.le_trans h hb)
  | cons v l ih => exact ⟨Nat.lt_of_lt_of_le h.1 hb, ih h.2 (Nat.le_refl _)⟩

theorem append (h : Falls b l b') (h' : Falls b' l' b₁) : Falls b (l ++ l') b₁ := by
  induction l generalizing b with
  | nil => exact h'.mono h (Nat.le_refl _)
  | cons v l ih => exact ⟨h.1, ih h.2⟩

theorem length_add_le (h : Falls b l b') : l.length + b' ≤ b := by
  induction l generalizing b with
  | nil => rwa [List.length_nil, Nat.zero_add]
  | cons v l ih =>
    have := ih h.2
    have := h.1
    rw [List.length_cons]
    omega

theorem lt (h : Falls b l b') {v : Visit C} (hv : v ∈ l) : v.height < b := by
  induction l generalizing b with
  | nil => cases hv
  | cons w l ih =>
    obtain rfl | hv := List.mem_cons.1 hv
    · exact h.1
    · exact Nat.lt_trans (ih h.2 hv) h.1

theorem pairwise (h : Falls b l b') : l.Pairwise fun v w => w.height < v.height := by
  induction l generalizing b with
  | nil => exact .nil
  | cons v l ih => exact .cons (fun _ hw => h.2.lt hw) (ih h.2)

end Falls

/-- What is promised for the calls of a parser. A call with the token `t` in view is made only as
`needs` allows. Behind it, routines below the rank `exit` may be called before the next advance, or
below `span` if it has ended with an advance. Its result satisfies `holds`. If it fails, other than
by rejecting a token, then as `fails` allows. -/
structure Pace (C : Type → Type) where
  needs {β : Type} : C β → Token → Prop
  exit {β : Type} : C β → Nat
  holds {β : Type} : C β → β → Prop
  fails {β : Type} : C β → Token → Failure → Prop

/-- The descent, with a token in view, calls only routines below the rank `g` before it advances,
and routines behind others only as far as these allow it. -/
def Paced (P : Pace C) (F : Failure → Prop) :
    Descent C α → Token → Nat → (α → Token → Nat → Prop) → Prop
  | .done a, t, g, Q => Q a t g
  | .fail e, _, _, _ => (∃ x, e = .syntactic x) ∨ F e
  | .looking next, t, g, Q => (next t).Paced P F t g Q
  | .advancing next, t, g, Q => ∀ t', next.Paced P F t' (if t.kind = .eos then g else span) Q
  | .calling c next, t, g, Q => P.needs c t ∧ rank c < g ∧ ∀ a t', P.holds c a →
    (next a).Paced P F t' (P.exit c) Q

def Pace.Fulfils (P : Pace C) (c : C β) : Prop :=
  ∀ t, P.needs c t →
    (plan c).Paced P (P.fails c t) t (rank c) fun a _ g => P.holds c a ∧ P.exit c ≤ g

def Pace.Kept (P : Pace C) : Prop := ∀ ⦃β : Type⦄ (c : C β), P.Fulfils c

section Rules

variable {P : Pace C} {F : Failure → Prop} {t : Token} {g : Nat} {Q : α → Token → Nat → Prop}

@[simp] theorem paced_pure {a : α} : (pure a : Descent C α).Paced P F t g Q ↔ Q a t g := .rfl

@[simp] theorem paced_fail {e : Failure} :
    (fail e : Descent C α).Paced P F t g Q ↔ (∃ x, e = .syntactic x) ∨ F e := .rfl

@[simp] theorem paced_bind {p : Descent C β} {f : β → Descent C α} :
    (p >>= f).Paced P F t g Q ↔ p.Paced P F t g fun a t' g' => (f a).Paced P F t' g' Q := by
  change (p.bind f).Paced P F t g Q ↔ _
  induction p generalizing t g with
  | done | fail => exact .rfl
  | looking next ih => exact ih t
  | advancing next ih => exact forall_congr' fun t' => ih
  | calling c next ih =>
    exact and_congr_right fun _ => and_congr_right fun _ => forall_congr' fun a =>
      forall_congr' fun _ => imp_congr_right fun _ => ih a

@[simp] theorem paced_ite {c : Prop} [Decidable c] {p q : Descent C α} :
    (if c then p else q).Paced P F t g Q ↔
      (c → p.Paced P F t g Q) ∧ (¬c → q.Paced P F t g Q) := by
  split <;> simp [*]

@[simp] theorem paced_look {Q : Token → Token → Nat → Prop} :
    (look : Descent C Token).Paced P F t g Q ↔ Q t t g := .rfl

@[simp] theorem paced_kind {Q : Token.Kind → Token → Nat → Prop} :
    (kind : Descent C Token.Kind).Paced P F t g Q ↔ Q t.kind t g := .rfl

@[simp] theorem paced_sees {k : Token.Kind} {Q : Bool → Token → Nat → Prop} :
    (sees k : Descent C Bool).Paced P F t g Q ↔ Q (t.kind == k) t g := .rfl

@[simp] theorem paced_reject {wanted : Expectation} :
    (reject wanted : Descent C α).Paced P F t g Q := .inl ⟨_, rfl⟩

@[simp] theorem paced_advance {Q : Unit → Token → Nat → Prop} :
    (advance : Descent C Unit).Paced P F t g Q ↔
      ∀ t', Q () t' (if t.kind = .eos then g else span) := .rfl

@[simp] theorem paced_call {c : C α} : (call c).Paced P F t g Q ↔
    P.needs c t ∧ rank c < g ∧ ∀ a t', P.holds c a → Q a t' (P.exit c) := .rfl

@[simp] theorem paced_expect {k : Token.Kind} {wanted : Expectation}
    {Q : Unit → Token → Nat → Prop} : (expect k wanted : Descent C Unit).Paced P F t g Q ↔
      (t.kind = k → ∀ t', Q () t' (if k = .eos then g else span)) := by
  simp only [expect, paced_bind, paced_sees, paced_ite, paced_advance, paced_reject, beq_iff_eq,
    implies_true, and_true]
  exact imp_congr_right fun h => by rw [h]

@[simp] theorem paced_eat {k : Token.Kind} {Q : Unit → Token → Nat → Prop} :
    (eat k : Descent C Unit).Paced P F t g Q ↔
      (t.kind = k → ∀ t', Q () t' (if k = .eos then g else span)) := paced_expect

@[simp] theorem paced_take {k : Token.Kind} {Q : Token → Token → Nat → Prop} :
    (take k : Descent C Token).Paced P F t g Q ↔
      (t.kind = k → ∀ t', Q t t' (if k = .eos then g else span)) := by
  simp only [take, paced_bind, paced_look, paced_eat, paced_pure]

end Rules

/-- The failures of a run: a token was rejected, the lexer has failed, or the failure is one that
the descent itself or a call may end in. -/
def Pace.Permits (P : Pace C) (F : Failure → Prop) (s : Feed) (l : List (Visit C)) (e : Failure) :
    Prop :=
  (∃ x, e = .syntactic x) ∨ s.ending.failure? = some e ∨ F e ∨
    ∃ v ∈ l, ∃ t, v.feed.current = some t ∧ P.needs v.call t ∧ P.fails v.call t e

namespace Pace.Permits

omit [Plans C]

variable {P : Pace C} {F : Failure → Prop} {s s' : Feed} {l l' : List (Visit C)} {e : Failure}

theorem visit {c : C β} {t : Token} (h : P.Permits (P.fails c t) s l e) (ht : s.current = some t)
    (hc : P.needs c t) : P.Permits F s (⟨c, s⟩ :: l) e := by
  obtain hx | hending | hfails | ⟨v, hv, hfails⟩ := h
  · exact .inl hx
  · exact .inr (.inl hending)
  · exact .inr (.inr (.inr ⟨_, List.mem_cons_self, t, ht, hc, hfails⟩))
  · exact .inr (.inr (.inr ⟨v, List.mem_cons_of_mem _ hv, hfails⟩))

theorem append (h : P.Permits F s' l' e) (hs : s'.ending.failure? = s.ending.failure?) :
    P.Permits F s (l ++ l') e := by
  obtain hx | hending | hF | ⟨v, hv, hfails⟩ := h
  · exact .inl hx
  · exact .inr (.inl (hs ▸ hending))
  · exact .inr (.inr (.inl hF))
  · exact .inr (.inr (.inr ⟨v, List.mem_append_right l hv, hfails⟩))

end Pace.Permits

def Concludes (P : Pace C) (F : Failure → Prop) (Q : α → Token → Nat → Prop) (s : Feed) (b : Nat)
    (l : List (Visit C)) : Outcome α → Prop
  | .ok a s' => ∃ t g, s'.current = some t ∧ s'.ending.failure? = s.ending.failure? ∧
    Falls b l (span * s'.left + g) ∧ Q a t g
  | .error e _ => Falls b l 0 ∧ P.Permits F s l e

theorem Paced.runs {P : Pace C} (hP : P.Kept) {F : Failure → Prop} {Q : α → Token → Nat → Prop}
    {p : Descent C α} {s : Feed} {t : Token} {g b : Nat} (ht : s.current = some t)
    (h : p.Paced P F t g Q) (hb : span * s.left + g ≤ b) :
    ∃ r l, Runs p s r l ∧ Concludes P F Q s b l r := by
  -- A call is lower than `b`, and what is done behind it stays below a bound that is lower still.
  induction b using Nat.strongRecOn generalizing α F Q p s t g with
  | ind b ihb =>
    induction p generalizing s t g with
    | done a => exact ⟨_, _, .done, t, g, ht, rfl, hb, h⟩
    | fail e => exact ⟨_, _, .fail, Nat.zero_le b, h.imp_right fun hF => .inr (.inl hF)⟩
    | looking next ih =>
      obtain ⟨r, l, hrun, hends⟩ := ih t ht h hb
      exact ⟨r, l, .look ht hrun, hends⟩
    | advancing next ih =>
      cases hs : Parse.advance s with
      | error e s' =>
        exact ⟨_, _, .halt hs, Nat.zero_le b, .inr (.inl (Feed.failure_of_advance hs))⟩
      | ok a s' =>
        obtain ⟨t', ht'⟩ := Feed.current_advance hs
        obtain ⟨hle, hlt⟩ := Feed.left_advance hs
        have hb' : span * s'.left + (if t.kind = .eos then g else span) ≤ b := by
          unfold span at hb ⊢
          split
          · omega
          · have := hlt t ht ‹_›
            omega
        obtain ⟨r, l, hrun, hends⟩ := ih ht' (h t') hb'
        refine ⟨r, l, .advance hs hrun, ?_⟩
        cases r <;> simpa only [Concludes, Pace.Permits, Feed.failure_advance hs] using hends
    | calling c next =>
      obtain ⟨hneeds, hrank, hnext⟩ := h
      have hlt : span * s.left + rank c < b := by omega
      obtain ⟨r, l, hrun, hends⟩ := ihb _ hlt ht (hP c t hneeds) (Nat.le_refl _)
      cases r with
      | error e s' => exact ⟨_, _, .stop hrun, ⟨hlt, hends.1⟩, hends.2.visit ht hneeds⟩
      | ok a s' =>
        obtain ⟨t', g', ht', hending, hfalls, hholds, hexit⟩ := hends
        replace hfalls := hfalls.mono (Nat.le_refl _) (Nat.add_le_add_left hexit _)
        have hle := hfalls.length_add_le
        obtain ⟨r', l', hrun', hends'⟩ :=
          ihb (span * s'.left + P.exit c) (by omega) ht' (hnext a t' hholds) (Nat.le_refl _)
        refine ⟨r', _, .call hrun hrun', ?_⟩
        cases r' with
        | error e s'' =>
          exact ⟨⟨hlt, hfalls.append hends'.1⟩, hends'.2.append (l := ⟨c, s⟩ :: l) hending⟩
        | ok a' s'' =>
          obtain ⟨t'', g'', ht'', hending'', hfalls'', hQ⟩ := hends'
          exact ⟨t'', g'', ht'', hending''.trans hending, ⟨hlt, hfalls.append hfalls''⟩, hQ⟩

/-- As calls follow each other in a run, the tokens that are left become no more, and between any
two calls of the same routine some are consumed. -/
def Dwindles (l : List (Visit C)) : Prop :=
  l.Pairwise fun v w => w.feed.left ≤ v.feed.left ∧
    (Plans.routine v.call = Plans.routine w.call → w.feed.left < v.feed.left)

theorem Falls.orderly {b b' : Nat} {l : List (Visit C)} (h : Falls b l b') : Dwindles l := by
  refine h.pairwise.imp fun {v w} hlt => ?_
  have hv : rank v.call < span := rank_lt_span _
  unfold Visit.height rank span at hlt
  unfold rank span at hv
  refine ⟨by omega, fun hroutine => ?_⟩
  rw [hroutine] at hlt
  omega

def whole (c : C α) : Descent C α := do
  advance
  let a ← call c
  eat .eos
  return a

theorem runs_whole {P : Pace C} (hP : P.Kept) {c : C α} (hc : ∀ t, P.needs c t) (s : Feed) :
    ∃ r l, Runs (whole c) s r l ∧ Dwindles l ∧ l.length ≤ span * s.left + span ∧
      ∀ e s', r = .error e s' → P.Permits (fun _ => False) s l e := by
  cases hs : Parse.advance s with
  | error e s' =>
    refine ⟨_, _, .halt hs, .nil, Nat.zero_le _, fun e s' h => ?_⟩
    cases h
    exact .inr (.inl (Feed.failure_of_advance hs))
  | ok a s' =>
    obtain ⟨t, ht⟩ := Feed.current_advance hs
    have hrank : rank c < span := rank_lt_span _
    have hpaced : (do let a ← call c; eat .eos; return a : Descent C α).Paced P (fun _ => False) t
        span fun _ _ _ => True := by
      simp only [paced_bind, paced_call, paced_eat, paced_pure, implies_true, and_true]
      exact ⟨hc t, hrank⟩
    obtain ⟨r, l, hrun, hends⟩ := hpaced.runs hP ht (Nat.le_refl _)
    have hfalls : Falls (span * s'.left + span) l 0 := by
      cases r with
      | ok a s'' =>
        obtain ⟨_, _, -, -, hfalls, -⟩ := hends
        exact hfalls.mono (Nat.le_refl _) (Nat.zero_le _)
      | error e s'' => exact hends.1
    refine ⟨r, l, .advance hs hrun, hfalls.orderly, ?_, fun e s'' h => ?_⟩
    · exact Nat.le_trans hfalls.length_add_le
        (Nat.add_le_add_right (Nat.mul_le_mul_left span (Feed.left_advance hs).1) span)
    · subst h
      simpa only [Pace.Permits, Feed.failure_advance hs] using hends.2

end Descent
end StackLang
