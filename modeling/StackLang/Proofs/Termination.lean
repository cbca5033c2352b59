import StackLang.Proofs.ParserPlan
import StackLang.Proofs.Progress
import StackLang.Proofs.RecognizerPlan

namespace StackLang

open Descent

namespace Feed

variable (source : Source)

theorem left_ofSource : (ofSource source).left = (ofSource source).ahead.length := rfl

theorem exists_gathers_ofSource :
    ∃ l, Gathers none (.ofSource source) l ((ofSource source).ahead, (ofSource source).ending) :=
  exists_gathers (Nat.lt_succ_self _) none

theorem length_ahead_le : (ofSource source).ahead.length ≤ source.length := by
  obtain ⟨l, hl⟩ := exists_gathers_ofSource source
  exact Nat.le_of_lt_succ (Nat.lt_of_lt_of_le hl.length_lt hl.length_le)

theorem faults_ofSource {e : Failure} (h : (ofSource source).ending.failure? = some e) :
    Lexer.Faults source e := by
  obtain ⟨l, hl⟩ := exists_gathers_ofSource source
  exact hl.faults h

end Feed

namespace Descent

variable {C : Type → Type} [Plans C] {α : Type}

theorem exists_runs {P : Pace C} (hP : P.Kept) {c : C α} (hc : ∀ t, P.needs c t) {p : Parse α}
    (hp : ∀ s, p s = (whole c).interp (perform (Parse.depth s)) s) (source : Source) :
    ∃ r l, Runs (whole c) (.ofSource source) r l ∧ p (.ofSource source) = r ∧
      Dwindles l ∧ l.length ≤ span * source.length + span ∧
      ∀ e s', r = .error e s' → Lexer.Faults source e ∨ (∃ x, e = .syntactic x) ∨
        ∃ v ∈ l, ∃ t, v.feed.current = some t ∧ P.needs v.call t ∧ P.fails v.call t e := by
  obtain ⟨r, l, hrun, horderly, hlength, hadmits⟩ := runs_whole hP hc (.ofSource source)
  have hahead := Feed.length_ahead_le source
  rw [Feed.left_ofSource] at hlength
  refine ⟨r, l, hrun, ?_, horderly, ?_, fun e s' hr => ?_⟩
  · rw [hp]
    apply hrun.interp_eq
    unfold span at hlength
    unfold Parse.depth
    omega
  · unfold span at hlength ⊢
    omega
  · obtain hx | hending | hF | hv := hadmits e s' hr
    · exact .inr (.inl hx)
    · exact .inl (Feed.faults_ofSource source hending)
    · exact hF.elim
    · exact .inr (.inr hv)

/-- In front of a feed, a parser does the same as the descent that starts with the call `c`. This
comes to an end after at most `n` calls, and it is no bound on the depth that ends it. -/
def Terminates (c : C α) (p : Parse α) (s : Feed) (n : Nat) : Prop :=
  ∃ r l, Runs (whole c) s r l ∧ p s = r ∧ (∀ s', r ≠ .error (.crash .exhausted) s') ∧
    Dwindles l ∧ l.length ≤ n

end Descent

theorem Lexer.Faults.ne_exhausted {source : Source} {e : Failure} (h : Faults source e) :
    e ≠ .crash .exhausted := by
  rintro rfl
  obtain ⟨x, hx⟩ | ⟨hx, -⟩ := h <;> cases hx

section

variable (source : Source)

theorem Parser.exists_runs :
    ∃ r l, Runs (whole Call.definitions) (.ofSource source) r l ∧
      program (.ofSource source) = r ∧ Dwindles l ∧ l.length ≤ span * source.length + span ∧
      ∀ e s', r = .error e s' → Lexer.Faults source e ∨ (∃ x, e = .syntactic x) ∨
        ∃ v ∈ l, ∃ t, v.feed.current = some t ∧ v.call.needs t ∧ v.call.fails t e := by
  refine Descent.exists_runs (c := Call.definitions) pace_kept (fun _ => trivial) ?_ source
  intro s
  simp only [whole, interp_bind, interp_advance, interp_call, interp_eat, interp_pure]
  rfl

theorem Recognizer.exists_runs :
    ∃ r l, Runs (whole Call.definitions) (.ofSource source) r l ∧
      program (.ofSource source) = r ∧ Dwindles l ∧ l.length ≤ span * source.length + span ∧
      ∀ e s', r = .error e s' → Lexer.Faults source e ∨ ∃ x, e = .syntactic x := by
  obtain ⟨r, l, hrun, hr, horderly, hlength, hfails⟩ :=
    Descent.exists_runs (p := program) (c := Call.definitions) pace_kept (fun _ => trivial)
      (fun s => by
        simp only [whole, interp_bind, interp_advance, interp_call, interp_eat, interp_pure,
          bind_pure_unit]
        rfl)
      source
  refine ⟨r, l, hrun, hr, horderly, hlength, fun e s' he => ?_⟩
  obtain hx | hx | ⟨v, -, t, -, -, hv⟩ := hfails e s' he
  · exact .inl hx
  · exact .inr hx
  · exact hv.elim

/-- Both parsers end on every source. -/
theorem parsers_stop :
    (∃ l, Feed.Gathers none (.ofSource source) l
        ((Feed.ofSource source).ahead, (Feed.ofSource source).ending) ∧
      l.Pairwise (fun a b => b.rest.length < a.rest.length) ∧ l.length ≤ source.length + 1) ∧
    Terminates Parser.Call.definitions Parser.program (.ofSource source) (16 * source.length + 16) ∧
    Terminates Recognizer.Call.definitions Recognizer.program (.ofSource source)
      (16 * source.length + 16) := by
  refine ⟨?_, ?_, ?_⟩
  · obtain ⟨l, hl⟩ := Feed.exists_gathers_ofSource source
    exact ⟨l, hl, hl.pairwise, hl.length_le⟩
  · obtain ⟨r, l, hrun, hr, horderly, hlength, hfails⟩ := Parser.exists_runs source
    refine ⟨r, l, hrun, hr, fun s' he => ?_, horderly, hlength⟩
    obtain hfault | ⟨x, hx⟩ | ⟨⟨c, _⟩, -, t, -, -, hv⟩ := hfails _ s' he
    · exact hfault.ne_exhausted rfl
    · cases hx
    · cases c <;> simp at hv
  · obtain ⟨r, l, hrun, hr, horderly, hlength, hfails⟩ := Recognizer.exists_runs source
    refine ⟨r, l, hrun, hr, fun s' he => ?_, horderly, hlength⟩
    obtain hfault | ⟨x, hx⟩ := hfails _ s' he
    · exact hfault.ne_exhausted rfl
    · cases hx

end

end StackLang
