import StackLang.Proofs.Grammar
import StackLang.Proofs.Reads

namespace StackLang.Parse

open Feed
open Grammar (front)

variable {α β : Type} {a b c : List Token.Kind} {P : α → Prop} {Q : β → Prop}

def kinds (rs : List Reading) : List Token.Kind := rs.map (·.token.kind)

theorem nextKind_eq (rs : List Reading) : nextKind rs = front (kinds rs) := by
  cases rs <;> rfl

/-- In front of tokens of the kinds `a` the parser succeeds with a result for which `P` holds, and
it stops in front of those of the kinds `b`. -/
def Passes (p : Parse α) (a b : List Token.Kind) (P : α → Prop) : Prop :=
  ∀ (line column : Nat) (rs : List Reading), kinds rs = a → ∃ x rs',
    p (facing line column rs) = .ok x (facing line column rs') ∧ kinds rs' = b ∧ P x

theorem kinds_cons {rs : List Reading} {k : Token.Kind} (h : kinds rs = k :: a) :
    ∃ r rs', rs = r :: rs' ∧ r.token.kind = k ∧ kinds rs' = a := by
  cases rs with
  | nil => cases h
  | cons r rs => exact ⟨r, rs, rfl, (List.cons.inj h).1, (List.cons.inj h).2⟩

namespace Passes

theorem pure {x : α} (h : P x) : Passes (pure x) a a P :=
  fun _ _ rs hrs => ⟨x, rs, rfl, hrs, h⟩

theorem bind {p : Parse α} {f : α → Parse β} (hp : Passes p a b P)
    (hf : ∀ x, P x → Passes (f x) b c Q) : Passes (p >>= f) a c Q := by
  intro line column rs hrs
  obtain ⟨x, rs', hx, hrs', hP⟩ := hp line column rs hrs
  rw [bind_of_ok hx]
  exact hf x hP line column rs' hrs'

theorem weaken {p : Parse α} {P' : α → Prop} (hp : Passes p a b P) (h : ∀ x, P x → P' x) :
    Passes p a b P' := by
  intro line column rs hrs
  obtain ⟨x, rs', hx, hrs', hP⟩ := hp line column rs hrs
  exact ⟨x, rs', hx, hrs', h x hP⟩

theorem advance {k : Token.Kind} {P : Unit → Prop} (h : P ()) : Passes advance (k :: a) a P := by
  intro line column rs hrs
  obtain ⟨r, rs', rfl, -, hrs'⟩ := kinds_cons hrs
  exact ⟨(), rs', advance_facing line column r rs', hrs', h⟩

theorem kind {f : Token.Kind → Parse β} (h : Passes (f (front a)) a b Q) :
    Passes (kind >>= f) a b Q := by
  intro line column rs hrs
  rw [bind_of_ok (kind_facing line column rs), nextKind_eq, hrs]
  exact h line column rs hrs

theorem look {f : Token → Parse β} (h : ∀ t, t.kind = front a → Passes (f t) a b Q) :
    Passes (look >>= f) a b Q := by
  intro line column rs hrs
  obtain ⟨t, ht, hlook⟩ := look_facing line column rs
  rw [bind_of_ok hlook]
  exact h t (by rw [ht, nextKind_eq, hrs]) line column rs hrs

theorem sees {k : Token.Kind} {f : Bool → Parse β} (h : Passes (f (front a == k)) a b Q) :
    Passes (sees k >>= f) a b Q := by
  rw [Parse.sees, bind_assoc]
  exact kind h

theorem sees_next {k : Token.Kind} {f : Bool → Parse β} (h : Passes (f true) (k :: a) b Q) :
    Passes (Parse.sees k >>= f) (k :: a) b Q := by
  refine sees ?_
  rwa [Grammar.front_cons, beq_self_eq_true]

theorem sees_other {k : Token.Kind} {f : Bool → Parse β} (hk : front a ≠ k)
    (h : Passes (f false) a b Q) : Passes (Parse.sees k >>= f) a b Q := by
  refine sees ?_
  rwa [beq_eq_false_iff_ne.mpr hk]

theorem expect {k : Token.Kind} {wanted : Expectation} {P : Unit → Prop} (h : P ()) :
    Passes (expect k wanted) (k :: a) a P :=
  sees_next (advance h)

theorem eat {k : Token.Kind} {P : Unit → Prop} (h : P ()) : Passes (eat k) (k :: a) a P := expect h

/-- A token that is consumed first. -/
theorem advance_bind {k : Token.Kind} {f : Unit → Parse β} (h : Passes (f ()) a b Q) :
    Passes (Parse.advance >>= f) (k :: a) b Q :=
  (advance (P := fun _ => True) trivial).bind fun _ _ => h

theorem eat_bind {k : Token.Kind} {f : Unit → Parse β} (h : Passes (f ()) a b Q) :
    Passes (Parse.eat k >>= f) (k :: a) b Q :=
  (eat (P := fun _ => True) trivial).bind fun _ _ => h

theorem take_bind {k : Token.Kind} {f : Token → Parse β} (h : ∀ t, Passes (f t) a b Q) :
    Passes (Parse.take k >>= f) (k :: a) b Q := by
  rw [Parse.take, bind_assoc]
  refine look fun t _ => ?_
  rw [bind_assoc]
  exact eat_bind (by rw [pure_bind]; exact h t)

end Passes
end StackLang.Parse
