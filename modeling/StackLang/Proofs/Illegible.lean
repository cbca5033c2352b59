import StackLang.Proofs.Evaluation

namespace StackLang

section Plain

variable {literal : Token → Bool} {names : List String}

mutual

theorem Expr.plain_of_values (hvalue : ∀ t, literal t → t.value?.isSome) :
    (e : Expr) → e.over literal names → e.plain
  | .mk negated first op rest, h => by
    simp only [Expr.over, Bool.and_eq_true] at h
    simp only [Expr.plain, Bool.and_eq_true]
    exact ⟨⟨Term.plain_of_values hvalue first h.1.1.1.1,
      plain_of_valuesRest hvalue rest h.1.1.1.2⟩, h.1.1.2⟩

theorem Term.plain_of_values (hvalue : ∀ t, literal t → t.value?.isSome) :
    (t : Term) → t.over literal names → t.plain
  | .literal t, h => hvalue t h
  | .path refs, h => by
    obtain ⟨t, ht, -⟩ := (Option.any_eq_true _ _).1 h
    simp only [Term.plain, ht, Option.isSome_some]
  | .group e, h => Expr.plain_of_values hvalue e h
  | .create .., h | .call .., h => by cases h

theorem plain_of_valuesRest (hvalue : ∀ t, literal t → t.value?.isSome) :
    (e : Option Expr) → overRest literal names e → plainRest e
  | none, _ => rfl
  | some e, h => Expr.plain_of_values hvalue e h

end

end Plain

theorem Token.value?_of_isLegible (t : Token) (h : t.isLegible) : t.value?.isSome := by
  simp only [Token.isLegible, Bool.and_eq_true] at h
  rw [Token.value?_eq h.1, h.2]

theorem Expr.plain_of_over {names : List String} (e : Expr) (h : e.over Token.isLegible names) :
    e.plain := e.plain_of_values Token.value?_of_isLegible h

namespace Generator

variable {o o' : Offsets} {names : List String}

/-- Generation fails at a numeral, in whatever function. -/
def Stumbles (p : Gen Unit) (o : Offsets) : Prop :=
  ∀ image t structs, ∃ g, p ⟨image, some t, o, structs⟩ = .error (.crash .badNumeral) g

theorem Stumbles.first {p : Gen Unit} {q : Unit → Gen Unit} (h : Stumbles p o) :
    Stumbles (p >>= q) o := by
  intro image t structs
  obtain ⟨g, hg⟩ := h image t structs
  exact ⟨g, by simp only [bind, EStateM.bind, hg]⟩

theorem Stumbles.after {p q : Gen Unit} {c : Nat → List Op} (hp : Emits p o o' c)
    (hq : Stumbles q o') : Stumbles (do p; q) o := by
  intro image t structs
  have hfirst := hp t.code.size image t structs rfl
  rw [Template.append_nil] at hfirst
  obtain ⟨g, hg⟩ := hq image (t.append (c t.code.size)) structs
  exact ⟨g, by simp only [bind, EStateM.bind, hfirst, hg]⟩

theorem literal_stumbles {t : Token} (hkind : t.kind = .intVal ∨ t.kind = .doubleVal)
    (hnone : t.value? = none) : Stumbles (literal t) o := by
  obtain ⟨kind, lexeme, line, column⟩ := t
  intro image u structs
  refine ⟨⟨image, some u, o, structs⟩, ?_⟩
  obtain rfl | rfl := hkind
  all_goals
    have hnumeral := Option.map_eq_none_iff.1 hnone
    simp only [literal, literalValue, hnumeral]
    rfl

section Stumbles

variable {literal legible : Token → Bool}

mutual

/-- The first literal that is not legible ends generation. -/
theorem expr_stumbles_of (hvalue : ∀ t, legible t → t.value?.isSome)
    (hliteral : ∀ t, literal t → legible t = false → Stumbles (Generator.literal t) o) :
    (e : Expr) → e.over literal names → e.over legible names = false → Stumbles (expr e) o
  | .mk negated first op none, h, hnone => by
    obtain ⟨rfl, hfirst⟩ := Expr.over_operand h
    have hbad : first.over legible names = false := by
      simpa [Expr.over, overRest] using hnone
    exact (term_stumbles_of hvalue hliteral first hfirst hbad).first
  | .mk negated first op (some e), h, hnone => by
    obtain ⟨t, f, swapped, rfl, hf, hneg, hfirst, he⟩ := Expr.over_operation h
    have hbad : first.over legible names = false ∨ e.over legible names = false :=
      Bool.and_eq_false_iff.1 (by simpa [Expr.over, overRest, hf, hneg] using hnone)
    by_cases hswaps : swaps (some t)
    · simp only [expr, hswaps, if_true]
      cases hlegible : e.over legible names with
      | false => exact (expr_stumbles_of hvalue hliteral e he hlegible).first
      | true =>
        have hbad := hbad.resolve_right (by simp [hlegible])
        exact .after (expr_emits e (e.plain_of_values hvalue hlegible))
          (term_stumbles_of hvalue hliteral first hfirst hbad).first
    · simp only [expr, hswaps, hneg, if_false, Bool.false_eq_true]
      cases hlegible : first.over legible names with
      | false => exact (term_stumbles_of hvalue hliteral first hfirst hlegible).first
      | true =>
        have hbad := hbad.resolve_left (by simp [hlegible])
        exact .after (term_emits first (first.plain_of_values hvalue hlegible))
          (expr_stumbles_of hvalue hliteral e he hbad).first

theorem term_stumbles_of (hvalue : ∀ t, legible t → t.value?.isSome)
    (hliteral : ∀ t, literal t → legible t = false → Stumbles (Generator.literal t) o) :
    (t : Term) → t.over literal names → t.over legible names = false → Stumbles (term t) o
  | .literal t, h, hnone => hliteral t h hnone
  | .path refs, h, hnone => by
    simp only [Term.over] at h hnone
    rw [h] at hnone
    cases hnone
  | .group e, h, hnone => expr_stumbles_of hvalue hliteral e h hnone
  | .create .., h, _ | .call .., h, _ => by cases h

end

end Stumbles

theorem literal_stumbles_of_isLiteral {t : Token} (ht : t.isLiteral) (hbad : t.isLegible = false) :
    Stumbles (literal t) o := by
  have hdenoted : t.denoted? = none := by simpa [Token.isLegible, ht] using hbad
  refine literal_stumbles ?_ (by rw [Token.value?_eq ht, hdenoted])
  obtain ⟨kind, lexeme, line, column⟩ := t
  cases kind with
  | intVal => exact .inl rfl
  | doubleVal => exact .inr rfl
  | stringVal | boolVal | nullVal => cases hdenoted
  | _ => cases ht

theorem expr_stumbles {literal : Token → Bool} (hliteral : ∀ t, literal t → t.isLiteral) (e : Expr)
    (h : e.over literal names) (hnone : e.over Token.isLegible names = false) :
    Stumbles (expr e) o :=
  expr_stumbles_of Token.value?_of_isLegible
    (fun t ht hbad => literal_stumbles_of_isLiteral (hliteral t ht) hbad) e h hnone

end Generator
end StackLang
