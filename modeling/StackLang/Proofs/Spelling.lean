import StackLang.Proofs.Pacing

namespace StackLang

/-- The tokens in front of a parser, the current one first. Where none is left, the parser looks at
an end mark. -/
def Feed.Shows (s : Feed) : List Token → Prop
  | [] => (∃ t, s.current = some t ∧ t.kind = .eos) ∧ s.ahead = []
  | t :: a => s.current = some t ∧ s.ahead.map Reading.token = a

theorem Feed.shows_of_advance {s s' : Feed} (h : Parse.advance s = .ok () s') :
    s'.Shows (s.ahead.map Reading.token) := by
  unfold Parse.advance at h
  split at h
  · rename_i r rs hahead
    cases h
    rw [hahead]
    exact ⟨rfl, rfl⟩
  · rename_i hahead
    rw [hahead]
    split at h
    · cases h
      exact ⟨⟨_, rfl, rfl⟩, rfl⟩
    · cases h

theorem Feed.Shows.ahead {s : Feed} {a : List Token} (h : s.Shows a) :
    s.ahead.map Reading.token = a.tail := by
  cases a with
  | nil => rw [h.2, List.map_nil, List.tail_nil]
  | cons t a => exact h.2

namespace Descent

variable {C : Type → Type} {α β : Type}

abbrev Contract (C : Type → Type) := ⦃β : Type⦄ → C β → List Token → β → List Token → Prop

def Fronts : List Token → Token → Prop
  | [], t => t.kind = .eos
  | u :: _, t => t = u

theorem Fronts.eq_cons {a : List Token} {t : Token} (h : Fronts a t) (ht : t.kind ≠ .eos) :
    ∃ b, a = t :: b := by
  cases a with
  | nil => exact (ht h).elim
  | cons u a => exact ⟨a, congrArg (· :: a) h.symm⟩

theorem Fronts.of_shows {s : Feed} {a : List Token} {t : Token} (h : s.Shows a)
    (ht : s.current = some t) : Fronts a t := by
  cases a with
  | nil =>
    obtain ⟨⟨u, hu, heos⟩, -⟩ := h
    cases ht.symm.trans hu
    exact heos
  | cons u a => exact Option.some.inj (ht.symm.trans h.1)

/-- If the descent succeeds in front of the tokens `a`, and its calls do as the contract says, then
`Q` holds for its result and the tokens that it leaves. -/
def Spells (S : Contract C) : Descent C α → List Token → (α → List Token → Prop) → Prop
  | .done x, a, Q => Q x a
  | .fail _, _, _ => True
  | .looking next, a, Q => ∀ t, Fronts a t → (next t).Spells S a Q
  | .advancing next, a, Q => next.Spells S a.tail Q
  | .calling c next, a, Q => ∀ x b, S c a x b → (next x).Spells S b Q

section Rules

variable {S : Contract C} {a : List Token} {Q : α → List Token → Prop}

@[simp] theorem spells_pure {x : α} : (pure x : Descent C α).Spells S a Q ↔ Q x a := .rfl

@[simp] theorem spells_fail {e : Failure} : (fail e : Descent C α).Spells S a Q := trivial

@[simp] theorem spells_bind {p : Descent C β} {f : β → Descent C α} :
    (p >>= f).Spells S a Q ↔ p.Spells S a fun x b => (f x).Spells S b Q := by
  change (p.bind f).Spells S a Q ↔ _
  induction p generalizing a with
  | done | fail => exact .rfl
  | looking next ih => exact forall_congr' fun t => imp_congr_right fun _ => ih t
  | advancing next ih => exact ih
  | calling c next ih =>
    exact forall_congr' fun x => forall_congr' fun b => imp_congr_right fun _ => ih x

@[simp] theorem spells_ite {c : Prop} [Decidable c] {p q : Descent C α} :
    (if c then p else q).Spells S a Q ↔ (c → p.Spells S a Q) ∧ (¬c → q.Spells S a Q) := by
  split <;> simp [*]

@[simp] theorem spells_look {Q : Token → List Token → Prop} :
    (look : Descent C Token).Spells S a Q ↔ ∀ t, Fronts a t → Q t a := .rfl

@[simp] theorem spells_kind {Q : Token.Kind → List Token → Prop} :
    (kind : Descent C Token.Kind).Spells S a Q ↔ ∀ t, Fronts a t → Q t.kind a := .rfl

@[simp] theorem spells_sees {k : Token.Kind} {Q : Bool → List Token → Prop} :
    (sees k : Descent C Bool).Spells S a Q ↔ ∀ t, Fronts a t → Q (t.kind == k) a := .rfl

@[simp] theorem spells_reject {wanted : Expectation} :
    (reject wanted : Descent C α).Spells S a Q := fun _ _ => trivial

@[simp] theorem spells_advance {Q : Unit → List Token → Prop} :
    (advance : Descent C Unit).Spells S a Q ↔ Q () a.tail := .rfl

@[simp] theorem spells_call {c : C α} :
    (call c).Spells S a Q ↔ ∀ x b, S c a x b → Q x b := .rfl

theorem forall_fronts {k : Token.Kind} (hk : k ≠ .eos) {P : Token → List Token → Prop} :
    (∀ t, Fronts a t → t.kind = k → P t a.tail) ↔ ∀ t b, a = t :: b → t.kind = k → P t b := by
  constructor
  · rintro h t b rfl
    exact h t rfl
  · rintro h t ht hkind
    obtain ⟨b, rfl⟩ := ht.eq_cons (hkind ▸ hk)
    exact h t b rfl hkind

@[simp] theorem spells_expect {k : Token.Kind} (hk : k ≠ .eos) {wanted : Expectation}
    {Q : Unit → List Token → Prop} : (expect k wanted : Descent C Unit).Spells S a Q ↔
      ∀ t b, a = t :: b → t.kind = k → Q () b := by
  simp only [expect, spells_bind, spells_sees, spells_ite, spells_advance, spells_reject,
    beq_iff_eq, implies_true, and_true]
  exact forall_fronts hk

@[simp] theorem spells_eat {k : Token.Kind} (hk : k ≠ .eos) {Q : Unit → List Token → Prop} :
    (eat k : Descent C Unit).Spells S a Q ↔ ∀ t b, a = t :: b → t.kind = k → Q () b :=
  spells_expect hk

@[simp] theorem spells_take {k : Token.Kind} (hk : k ≠ .eos) {Q : Token → List Token → Prop} :
    (take k : Descent C Token).Spells S a Q ↔ ∀ t b, a = t :: b → t.kind = k → Q t b := by
  simp only [take, spells_bind, spells_look, spells_eat hk, spells_pure]
  constructor
  · rintro h t b rfl
    exact h t rfl t b rfl
  · rintro h u hu t b rfl hkind
    obtain rfl : u = t := hu
    exact h u b rfl hkind

end Rules

variable [Plans C]

/-- Somewhere in front of the tokens `a` the call is made, gives `x` and leaves `b`. -/
def Made (c : C β) (a : List Token) (x : β) (b : List Token) : Prop :=
  ∃ n s s', s.Shows a ∧ perform n c s = .ok x s' ∧ s'.Shows b

/-- The call is made and does as the contract says. -/
def Contract.Met (S : Contract C) : Contract C := fun _ c a x b => S c a x b ∧ Made c a x b

def Contract.Honoured (S : Contract C) : Prop :=
  ∀ ⦃β : Type⦄ (c : C β) (a : List Token), (plan c).Spells S.Met a (S c a)

theorem Runs.spells {S : Contract C} (hS : S.Honoured) {p : Descent C α} {s : Feed} {r : Outcome α}
    {l : List (Visit C)} (h : Runs p s r l) {x : α} {s' : Feed} (hr : r = .ok x s')
    {a : List Token} {Q : α → List Token → Prop} (hs : s.Shows a) (hp : p.Spells S.Met a Q) :
    ∃ b, s'.Shows b ∧ Q x b := by
  induction h generalizing s' a with
  | done =>
    cases hr
    exact ⟨a, hs, hp⟩
  | fail | blind | halt | stop => cases hr
  | look ht _ ih => exact ih hr hs (hp _ (.of_shows hs ht))
  | advance hadvance _ ih =>
    have hshows := Feed.shows_of_advance hadvance
    rw [hs.ahead] at hshows
    exact ih hr hshows hp
  | @call _ _ c _ s s₁ y _ l _ hrun _ ih ih' =>
    obtain ⟨b, hb, hmet⟩ := ih rfl hs (hS c a)
    have hperform : perform (l.length + 1) c s = .ok y s₁ := by
      rw [Plans.perform_succ]
      exact hrun.interp_eq (Nat.le_refl _)
    exact ih' hr hb (hp y b ⟨hmet, _, s, _, hs, hperform, hb⟩)

end Descent
end StackLang
