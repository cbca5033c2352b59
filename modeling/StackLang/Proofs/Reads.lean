import StackLang.Parser
import StackLang.Proofs.Results
import StackLang.Proofs.Rendering

namespace StackLang

/-- The feed in front of readings, with end marks behind them. -/
def Feed.facing (line column : Nat) : List Reading → Feed
  | [] => ⟨some ⟨.eos, "", line, column⟩, line, column, [], .marks line (column + 1)⟩
  | r :: rs => ⟨some r.token, r.line, r.column, rs, .marks line column⟩

namespace Parse

open Feed

variable {α β : Type} {follow before : Token.Kind → Prop} {ms ns : List Mark}

def nextKind : List Reading → Token.Kind
  | [] => .eos
  | r :: _ => r.token.kind

/-- The kind that marks start with in front of a token of kind `k`. -/
def lead (k : Token.Kind) : List Mark → Token.Kind
  | [] => k
  | m :: _ => m.kind

/-- Wherever tokens come that are written as `ms`, the parser consumes just these and gives `a`,
provided that they are followed by a token of a kind in `follow`. -/
def Reads (follow : Token.Kind → Prop) (p : Parse α) (ms : List Mark) (a : α) : Prop :=
  ∀ (line column : Nat) (rs rest : List Reading), Fits ms (rs.map Reading.token) →
    follow (nextKind rest) → p (facing line column (rs ++ rest)) = .ok a (facing line column rest)

theorem fits_nil {rs : List Reading} (h : Fits [] (rs.map Reading.token)) : rs = [] := by
  cases rs with
  | nil => rfl
  | cons r rs => cases h

theorem fits_cons {m : Mark} {rs : List Reading} (h : Fits (m :: ms) (rs.map Reading.token)) :
    ∃ r rs', rs = r :: rs' ∧ m.fits r.token ∧ Fits ms (rs'.map Reading.token) := by
  cases rs with
  | nil => cases h
  | cons r rs =>
    cases h with
    | cons hm hms => exact ⟨r, rs, rfl, hm, hms⟩

theorem fits_append {rs : List Reading} (h : Fits (ms ++ ns) (rs.map Reading.token)) :
    ∃ rs₁ rs₂, rs = rs₁ ++ rs₂ ∧ Fits ms (rs₁.map Reading.token) ∧
      Fits ns (rs₂.map Reading.token) := by
  induction ms generalizing rs with
  | nil => exact ⟨[], rs, rfl, .nil, h⟩
  | cons m ms ih =>
    obtain ⟨r, rs', rfl, hm, hms⟩ := fits_cons h
    obtain ⟨rs₁, rs₂, rfl, h₁, h₂⟩ := ih hms
    exact ⟨r :: rs₁, rs₂, rfl, .cons hm h₁, h₂⟩

theorem nextKind_append {rs rest : List Reading} (h : Fits ms (rs.map Reading.token)) :
    nextKind (rs ++ rest) = lead (nextKind rest) ms := by
  cases ms with
  | nil => rw [fits_nil h, List.nil_append, lead]
  | cons m ms =>
    obtain ⟨r, rs', rfl, hm, -⟩ := fits_cons h
    exact Mark.kind_of_fits hm

theorem lead_append (k : Token.Kind) (ms ns : List Mark) :
    lead k (ms ++ ns) = lead (lead k ns) ms := by
  cases ms <;> rfl

theorem look_facing (line column : Nat) (rs : List Reading) :
    ∃ t, t.kind = nextKind rs ∧ look (facing line column rs) = .ok t (facing line column rs) := by
  cases rs with
  | nil => exact ⟨_, rfl, rfl⟩
  | cons r rs => exact ⟨_, rfl, rfl⟩

theorem kind_facing (line column : Nat) (rs : List Reading) :
    kind (facing line column rs) = .ok (nextKind rs) (facing line column rs) := by
  cases rs <;> rfl

theorem advance_facing (line column : Nat) (r : Reading) (rs : List Reading) :
    advance (facing line column (r :: rs)) = .ok () (facing line column rs) := by
  cases rs <;> rfl

namespace Reads

theorem pure (a : α) : Reads follow (pure a) [] a := by
  intro line column rs rest hrs _
  rw [fits_nil hrs]
  rfl

theorem bind {p : Parse α} {f : α → Parse β} {a : α} {b : β} (hp : Reads before p ms a)
    (hf : Reads follow (f a) ns b) (h : ∀ k, follow k → before (lead k ns)) :
    Reads follow (p >>= f) (ms ++ ns) b := by
  intro line column rs rest hrs hrest
  obtain ⟨rs₁, rs₂, rfl, h₁, h₂⟩ := fits_append hrs
  have hk : before (nextKind (rs₂ ++ rest)) := by
    rw [nextKind_append h₂]
    exact h _ hrest
  rw [List.append_assoc, bind_of_ok (hp line column rs₁ (rs₂ ++ rest) h₁ hk)]
  exact hf line column rs₂ rest h₂ hrest

/-- A parser that does not look beyond what it reads, and one of what follows. -/
theorem append {p : Parse α} {f : α → Parse β} {a : α} {b : β}
    (hp : Reads (fun _ => True) p ms a) (hf : Reads follow (f a) ns b) :
    Reads follow (p >>= f) (ms ++ ns) b :=
  bind hp hf fun _ _ => trivial

theorem cons {p : Parse α} {f : α → Parse β} {m : Mark} {a : α} {b : β}
    (hp : Reads (fun _ => True) p [m] a) (hf : Reads follow (f a) ns b) :
    Reads follow (p >>= f) (m :: ns) b :=
  append hp hf

theorem last {p : Parse α} {f : α → Parse β} {a : α} {b : β} (hp : Reads follow p ms a)
    (hf : Reads follow (f a) [] b) : Reads follow (p >>= f) ms b := by
  have h := bind hp hf fun _ hk => hk
  rwa [List.append_nil] at h

theorem weaken {p : Parse α} {a : α} (hp : Reads before p ms a) (h : ∀ k, follow k → before k) :
    Reads follow p ms a :=
  fun line column rs rest hrs hrest => hp line column rs rest hrs (h _ hrest)

theorem advance (m : Mark) : Reads follow advance [m] () := by
  intro line column rs rest hrs _
  obtain ⟨r, rs', rfl, -, hrs'⟩ := fits_cons hrs
  rw [fits_nil hrs']
  exact advance_facing line column r rest

theorem kind {f : Token.Kind → Parse β} {b : β}
    (h : ∀ k, follow k → Reads (· = k) (f (lead k ms)) ms b) : Reads follow (kind >>= f) ms b := by
  intro line column rs rest hrs hrest
  rw [bind_of_ok (kind_facing line column (rs ++ rest)), nextKind_append hrs]
  exact h _ hrest line column rs rest hrs rfl

theorem sees {k : Token.Kind} {f : Bool → Parse β} {b : β} (seen : Bool)
    (hk : ∀ k', follow k' → (lead k' ms == k) = seen) (h : Reads follow (f seen) ms b) :
    Reads follow (sees k >>= f) ms b := by
  intro line column rs rest hrs hrest
  have hs : Parse.sees k (facing line column (rs ++ rest)) =
      .ok seen (facing line column (rs ++ rest)) := by
    rw [Parse.sees, bind_of_ok (kind_facing line column (rs ++ rest)), nextKind_append hrs,
      hk _ hrest]
    rfl
  rw [bind_of_ok hs]
  exact h line column rs rest hrs hrest

theorem sees_next {k : Token.Kind} {f : Bool → Parse β} {b : β} (h : Reads (· = k) (f true) [] b) :
    Reads (· = k) (Parse.sees k >>= f) [] b :=
  sees true (fun _ hk => beq_iff_eq.mpr hk) h

theorem look {m : Mark} {f : Token → Parse β} {b : β}
    (h : ∀ t, m.fits t → Reads follow (f t) (m :: ms) b) : Reads follow (look >>= f) (m :: ms) b := by
  intro line column rs rest hrs hrest
  obtain ⟨r, rs', rfl, hm, hrs'⟩ := fits_cons hrs
  exact h r.token hm line column (r :: rs') rest (.cons hm hrs') hrest

theorem look_held {t : Token} {f : Token → Parse β} {b : β}
    (h : Reads follow (f t) (.held t :: ms) b) : Reads follow (Parse.look >>= f) (.held t :: ms) b :=
  look fun u hu => by rwa [eq_of_beq hu]

theorem look_nil {f : Token → Parse β} {b : β}
    (h : ∀ t, follow t.kind → Reads follow (f t) [] b) : Reads follow (Parse.look >>= f) [] b := by
  intro line column rs rest hrs hrest
  rw [fits_nil hrs, List.nil_append]
  obtain ⟨t, ht, hl⟩ := look_facing line column rest
  rw [bind_of_ok hl]
  exact h t (by rwa [ht]) line column [] rest .nil hrest

theorem expect {m : Mark} {k : Token.Kind} {wanted : Expectation} (h : m.kind = k) :
    Reads follow (expect k wanted) [m] () :=
  sees true (fun _ _ => beq_iff_eq.mpr h) (advance m)

theorem eat {k : Token.Kind} : Reads follow (eat k) [.sign k] () := expect rfl

theorem take {t : Token} {k : Token.Kind} (h : t.kind = k) : Reads follow (take k) [.held t] t :=
  look_held (last (expect h) (pure t))

end Reads
end Parse
end StackLang
