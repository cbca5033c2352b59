import StackLang.Proofs.Passing

namespace StackLang

/-- Whether end marks stand behind the tokens. -/
def Feed.complete (s : Feed) : Bool :=
  match s.ending with
  | .marks _ _ => true
  | .failure _ _ _ _ => false

namespace Parse

open Grammar (front)

variable {α β : Type} {a b : List Token.Kind} {R : α → List Token.Kind → Prop}
  {S : β → List Token.Kind → Prop}

/-- The feed shows the first of tokens of the kinds `a`, and holds the others. -/
def Faces (s : Feed) : List Token.Kind → Prop
  | [] => s.current.map Token.kind = some .eos ∧ s.ahead = [] ∧ s.complete
  | k :: a => s.current.map Token.kind = some k ∧ kinds s.ahead = a

/-- If the parser succeeds in front of tokens of the kinds `a`, then it stops in front of the last
of them, and `R` holds for its result and these. -/
def Yields (p : Parse α) (a : List Token.Kind) (R : α → List Token.Kind → Prop) : Prop :=
  ∀ (s s' : Feed) (x : α), Faces s a → p s = .ok x s' →
    ∃ b, Faces s' b ∧ b <:+ a ∧ s'.complete = s.complete ∧ R x b

theorem Faces.current {s : Feed} (h : Faces s a) : s.current.map Token.kind = some (front a) := by
  cases a with
  | nil => exact h.1
  | cons k a => exact h.1

theorem eq_cons_of_front {k : Token.Kind} (h : front a = k) (hk : k ≠ .eos) : ∃ b, a = k :: b := by
  cases a with
  | nil => exact (hk h.symm).elim
  | cons j a => exact ⟨a, congrArg (· :: a) h⟩

theorem exists_of_bind {p : Parse α} {f : α → Parse β} {s s' : Feed} {y : β}
    (h : (p >>= f) s = .ok y s') : ∃ x t, p s = .ok x t ∧ f x t = .ok y s' := by
  cases hx : p s with
  | error e t =>
    simp only [bind, EStateM.bind, hx] at h
    cases h
  | ok x t =>
    rw [bind_of_ok hx] at h
    exact ⟨x, t, rfl, h⟩

namespace Yields

theorem pure {x : α} (h : R x a) : Yields (pure x) a R := by
  intro s s' y hs hy
  cases hy
  exact ⟨a, hs, List.suffix_rfl, rfl, h⟩

theorem throw {f : Failure} : Yields (throw f : Parse α) a R := by
  intro s s' x _ hx
  cases hx

theorem bind {p : Parse α} {f : α → Parse β} (hp : Yields p a R)
    (hf : ∀ x b, R x b → Yields (f x) b S) : Yields (p >>= f) a S := by
  intro s s' y hs h
  obtain ⟨x, t, hx, hy⟩ := exists_of_bind h
  obtain ⟨b, ht, hb, hcomplete, hR⟩ := hp s t x hs hx
  obtain ⟨c, hs', hc, hcomplete', hS⟩ := hf x b hR t s' y ht hy
  exact ⟨c, hs', hc.trans hb, hcomplete'.trans hcomplete, hS⟩

theorem weaken {p : Parse α} {R' : α → List Token.Kind → Prop} (hp : Yields p a R)
    (h : ∀ x b, R x b → R' x b) : Yields p a R' := by
  intro s s' x hs hx
  obtain ⟨b, hs', hb, hcomplete, hR⟩ := hp s s' x hs hx
  exact ⟨b, hs', hb, hcomplete, h x b hR⟩

theorem look {f : Token → Parse β} (h : ∀ t, t.kind = front a → Yields (f t) a S) :
    Yields (look >>= f) a S := by
  intro s s' y hs hy
  obtain ⟨t, ht, hkind⟩ := Option.map_eq_some_iff.mp hs.current
  have hlook : Parse.look s = .ok t s := by rw [Parse.look, ht]
  rw [bind_of_ok hlook] at hy
  exact h t hkind s s' y hs hy

theorem kind {f : Token.Kind → Parse β} (h : Yields (f (front a)) a S) :
    Yields (kind >>= f) a S := by
  rw [Parse.kind, bind_assoc]
  refine look fun t ht => ?_
  rw [pure_bind, ht]
  exact h

theorem sees {k : Token.Kind} {f : Bool → Parse β} (hpos : front a = k → Yields (f true) a S)
    (hneg : front a ≠ k → Yields (f false) a S) : Yields (sees k >>= f) a S := by
  rw [Parse.sees, bind_assoc]
  refine kind ?_
  rw [pure_bind]
  by_cases hk : front a = k
  · rw [hk, beq_self_eq_true]
    exact hpos hk
  · rw [beq_eq_false_iff_ne.mpr hk]
    exact hneg hk

theorem reject {wanted : Expectation} : Yields (reject wanted : Parse α) a R :=
  look fun _ _ => throw

theorem advance : Yields advance a fun _ b => b = a.tail := by
  intro s s' x hs hx
  obtain ⟨current, line, column, ahead, ending⟩ := s
  cases ahead with
  | cons r rs =>
    cases hx
    cases a with
    | nil => cases hs.2.1
    | cons k a =>
      have ha : kinds (r :: rs) = a := hs.2
      subst ha
      exact ⟨kinds (r :: rs), ⟨rfl, rfl⟩, List.suffix_cons _ _, rfl, rfl⟩
  | nil =>
    have htail : a.tail = [] := by
      cases a with
      | nil => rfl
      | cons k a => exact hs.2.symm
    cases ending with
    | failure => cases hx
    | marks =>
      cases hx
      exact ⟨[], ⟨rfl, rfl, rfl⟩, List.nil_suffix, rfl, htail.symm⟩

theorem advance_bind {f : Unit → Parse β} (h : Yields (f ()) a.tail S) :
    Yields (Parse.advance >>= f) a S :=
  advance.bind fun _ _ hb => hb ▸ h

theorem expect {k : Token.Kind} {wanted : Expectation} (hk : k ≠ .eos) :
    Yields (expect k wanted) a fun _ b => a = k :: b := by
  refine sees (fun ha => ?_) fun _ => reject
  obtain ⟨b, rfl⟩ := eq_cons_of_front ha hk
  exact advance.weaken fun _ _ hb => by rw [hb, List.tail_cons]

theorem expect_bind {k : Token.Kind} {wanted : Expectation} {f : Unit → Parse β} (hk : k ≠ .eos)
    (h : ∀ b, a = k :: b → Yields (f ()) b S) : Yields (Parse.expect k wanted >>= f) a S :=
  (expect hk).bind fun _ b hb => h b hb

theorem eat {k : Token.Kind} (hk : k ≠ .eos) : Yields (eat k) a fun _ b => a = k :: b := expect hk

theorem eat_bind {k : Token.Kind} {f : Unit → Parse β} (hk : k ≠ .eos)
    (h : ∀ b, a = k :: b → Yields (f ()) b S) : Yields (Parse.eat k >>= f) a S :=
  expect_bind hk h

theorem take_bind {k : Token.Kind} {f : Token → Parse β} (hk : k ≠ .eos)
    (h : ∀ t b, a = k :: b → Yields (f t) b S) : Yields (Parse.take k >>= f) a S := by
  rw [Parse.take, bind_assoc]
  refine look fun t _ => ?_
  rw [bind_assoc]
  refine eat_bind hk fun b hb => ?_
  rw [pure_bind]
  exact h t b hb

end Yields
end Parse
end StackLang
