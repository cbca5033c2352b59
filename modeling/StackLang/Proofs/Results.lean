import StackLang.Failure

namespace StackLang

section Bind

variable {ε σ α β : Type} {x : EStateM ε σ α} {f : α → EStateM ε σ β} {s s' : σ}

theorem bind_eq_ok {b : β} :
    (x >>= f) s = .ok b s' ↔ ∃ a s₁, x s = .ok a s₁ ∧ f a s₁ = .ok b s' := by
  simp only [bind, EStateM.bind]
  cases x s <;> simp [and_assoc]

theorem bind_eq_error {e : ε} : (x >>= f) s = .error e s' ↔
    x s = .error e s' ∨ ∃ a s₁, x s = .ok a s₁ ∧ f a s₁ = .error e s' := by
  simp only [bind, EStateM.bind]
  cases x s <;> simp [and_assoc]

theorem bind_of_ok {a : α} (h : x s = .ok a s') : (x >>= f) s = f a s' := by
  simp only [bind, EStateM.bind, h]

end Bind

section ForM

variable {ε σ α : Type} {f : α → EStateM ε σ Unit} {s s' : σ}

theorem forM_cons_eq_ok {a : α} {l : List α} :
    (a :: l).forM f s = .ok () s' ↔ ∃ s₁, f a s = .ok () s₁ ∧ l.forM f s₁ = .ok () s' := by
  have hcons : (a :: l).forM f s = (f a >>= fun _ => l.forM f) s := rfl
  rw [hcons, bind_eq_ok]
  constructor
  · rintro ⟨_, s₁, ha, hl⟩
    exact ⟨s₁, ha, hl⟩
  · rintro ⟨s₁, ha, hl⟩
    exact ⟨(), s₁, ha, hl⟩

theorem forM_append_eq_ok {a b : List α} :
    (a ++ b).forM f s = .ok () s' ↔ ∃ s₁, a.forM f s = .ok () s₁ ∧ b.forM f s₁ = .ok () s' := by
  induction a generalizing s with
  | nil =>
    constructor
    · intro h
      exact ⟨s, rfl, h⟩
    · rintro ⟨s₁, h₁, h⟩
      cases h₁
      exact h
  | cons x a ih =>
    simp only [List.cons_append, forM_cons_eq_ok, ih]
    constructor
    · rintro ⟨s₁, hx, s₂, ha, hb⟩
      exact ⟨s₂, ⟨s₁, hx, ha⟩, hb⟩
    · rintro ⟨s₂, ⟨s₁, hx, ha⟩, hb⟩
      exact ⟨s₁, hx, s₂, ha, hb⟩

end ForM

theorem need_eq_ok {α σ : Type} {o : Option α} {a : α} {s s' : σ} :
    need o s = .ok a s' ↔ o = some a ∧ s = s' := by
  cases o with
  | none =>
    have hfail : need (none : Option α) s = .error (.crash .missingPart) s := rfl
    simp [hfail]
  | some b =>
    have hrun : need (some b) s = .ok b s := rfl
    simp [hrun]

section OnState

variable {α σ τ : Type} {h : σ → τ} {r : EStateM.Result Failure σ α}

/-- A result with the state that another one stands for. -/
def onState (h : σ → τ) : EStateM.Result Failure σ α → EStateM.Result Failure τ α
  | .ok a m => .ok a (h m)
  | .error e m => .error e (h m)

theorem onState_eq_ok {a : α} {t : τ} : onState h r = .ok a t ↔ ∃ s, r = .ok a s ∧ h s = t := by
  cases r <;> simp [onState, and_assoc]

theorem onState_eq_error {e : Failure} {t : τ} :
    onState h r = .error e t ↔ ∃ s, r = .error e s ∧ h s = t := by
  cases r <;> simp [onState, and_assoc]

end OnState

end StackLang
