import StackLang.Proofs.Flow

namespace StackLang.Machine

/-- The next instruction belongs to the call on top of `d` others and stands in the span. -/
def inside (d lo hi : Nat) (m : Machine) : Bool :=
  match m.frames with
  | [] => false
  | f :: rest =>
    rest.length == d &&
      match f.pc with
      | .int k => decide (lo ≤ k) && decide (k < hi)
      | _ => false

def span (image : Image) (d lo hi : Nat) : Nat → Machine → Option Finish
  | 0, _ => none
  | n + 1, m =>
    if inside d lo hi m then
      match step image false m with
      | .ok _ m' => span image d lo hi n m'
      | .error e m' => some (.raises e m'.output)
    else if m.calls.length = d + 1 then some (.falls m)
    else some (.returns m)

/-- A number of steps inside a span. -/
inductive Moves (image : Image) (d lo hi : Nat) : Nat → Machine → Machine → Prop
  | none (m : Machine) : Moves image d lo hi 0 m m
  | step {n : Nat} {m m₁ m₂ : Machine} : inside d lo hi m → step image false m = .ok true m₁ →
      Moves image d lo hi n m₁ m₂ → Moves image d lo hi (n + 1) m m₂

variable {image : Image} {d lo hi : Nat}

theorem Moves.trans {j k : Nat} {m₁ m₂ m₃ : Machine} (h : Moves image d lo hi j m₁ m₂)
    (h' : Moves image d lo hi k m₂ m₃) : Moves image d lo hi (j + k) m₁ m₃ := by
  induction h with
  | none m => simpa using h'
  | @step n _ _ _ hin hstep _ ih =>
    rw [Nat.add_right_comm]
    exact .step hin hstep (ih h')

theorem span_of_inside {n : Nat} {m m' : Machine} (hin : inside d lo hi m)
    (h : step image false m = .ok true m') :
    span image d lo hi (n + 1) m = span image d lo hi n m' := by
  simp only [span, hin, h, if_true]

theorem Moves.span_iff {c n : Nat} {m m' : Machine} {r : Finish} (h : Moves image d lo hi c m m') :
    span image d lo hi n m = some r ↔ ∃ j, n = j + c ∧ span image d lo hi j m' = some r := by
  induction h generalizing n with
  | none m => simp
  | step hin hstep _ ih =>
    cases n with
    | zero => simp [span]
    | succ n => simp only [span_of_inside hin hstep, ih, ← Nat.add_assoc, Nat.add_right_cancel_iff]

theorem span_succ {n : Nat} {m : Machine} {r : Finish} (h : span image d lo hi n m = some r) :
    span image d lo hi (n + 1) m = some r := by
  induction n generalizing m with
  | zero => cases h
  | succ n ih =>
    rw [span] at h ⊢
    by_cases hin : inside d lo hi m
    · rw [if_pos hin] at h ⊢
      cases hstep : step image false m with
      | ok b m' =>
        rw [hstep] at h
        exact ih h
      | error e m' =>
        rw [hstep] at h
        exact h
    · rw [if_neg hin] at h ⊢
      exact h

theorem span_mono {j n : Nat} {m : Machine} {r : Finish} (hjn : j ≤ n)
    (h : span image d lo hi j m = some r) : span image d lo hi n m = some r := by
  induction hjn with
  | refl => exact h
  | step _ ih => exact span_succ ih

theorem span_unique {j n : Nat} {m : Machine} {r r' : Finish}
    (h : span image d lo hi j m = some r) (h' : span image d lo hi n m = some r') : r = r' := by
  have hmax := span_mono (Nat.le_max_left j n) h
  rw [span_mono (Nat.le_max_right j n) h'] at hmax
  exact (Option.some.inj hmax).symm

def Breaks (image : Image) (d lo hi : Nat) (m : Machine) (e : Failure) (output : String) : Prop :=
  ∃ c m₁ m₂, Moves image d lo hi c m m₁ ∧ inside d lo hi m₁ ∧
    step image false m₁ = .error e m₂ ∧ m₂.output = output

theorem Moves.breaks {c : Nat} {m m' : Machine} {e : Failure} {output : String}
    (h : Moves image d lo hi c m m') (h' : Breaks image d lo hi m' e output) :
    Breaks image d lo hi m e output := by
  obtain ⟨c', m₁, m₂, hc', hstep⟩ := h'
  exact ⟨c + c', m₁, m₂, h.trans hc', hstep⟩

theorem Breaks.span {m : Machine} {e : Failure} {output : String}
    (h : Breaks image d lo hi m e output) :
    ∃ n, Machine.span image d lo hi n m = some (.raises e output) := by
  obtain ⟨c, m₁, m₂, hc, hin, hstep, rfl⟩ := h
  refine ⟨1 + c, hc.span_iff.2 ⟨1, rfl, ?_⟩⟩
  rw [Machine.span, if_pos hin, hstep]

theorem not_inside {m : Machine} (h : m.calls.length ≠ d + 1) : ¬inside d lo hi m := by
  obtain ⟨heap, _ | ⟨f, rest⟩, input, output⟩ := m
  · simp [inside]
  · simp_all [inside, calls]

theorem span_left {m : Machine} (h : m.calls.length ≠ d + 1) :
    Machine.span image d lo hi 1 m = some (.returns m) := by
  rw [span, if_neg (not_inside h), if_neg h]

theorem inside_seek {m : Machine} {t : Template} {ts : List Template} {k : Nat}
    (hm : m.calls = t :: ts) : inside ts.length lo hi (m.seek k) ↔ lo ≤ k ∧ k < hi := by
  obtain ⟨heap, _ | ⟨f, rest⟩, input, output⟩ := m
  · cases hm
  · obtain ⟨-, rfl⟩ := List.cons.inj hm
    simp [inside, seek]

end StackLang.Machine
