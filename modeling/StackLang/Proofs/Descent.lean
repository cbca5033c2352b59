import StackLang.Feed

namespace StackLang

/-- The routines of a recursive descent. A loop is a routine that calls itself. -/
inductive Routine where
  | definitions | fields | moreParameters | body | block | stmts | stmt | alternatives | dataType
  | expr | operand | creation | path | index | selectors | operation | callee | arguments
  | moreArguments | returnedCalls
  deriving Repr, DecidableEq

inductive Descent (C : Type → Type) (α : Type) : Type 1 where
  | done (a : α)
  | fail (e : Failure)
  | looking (next : Token → Descent C α)
  | advancing (next : Descent C α)
  | calling {β : Type} (c : C β) (next : β → Descent C α)

namespace Descent

variable {C : Type → Type} {α β : Type}

def bind : Descent C α → (α → Descent C β) → Descent C β
  | done a, f => f a
  | fail e, _ => fail e
  | looking next, f => looking fun t => (next t).bind f
  | advancing next, f => advancing (next.bind f)
  | calling c next, f => calling c fun a => (next a).bind f

instance : Monad (Descent C) where
  pure := done
  bind := bind

def look : Descent C Token := looking done

def advance : Descent C Unit := advancing (done ())

def call (c : C α) : Descent C α := calling c done

def kind : Descent C Token.Kind := do
  return (← look).kind

def sees (k : Token.Kind) : Descent C Bool := do
  return (← kind) == k

def reject (wanted : Expectation) : Descent C α := do
  fail (.syntactic ⟨wanted, ← look⟩)

def expect (k : Token.Kind) (wanted : Expectation) : Descent C Unit := do
  if ← sees k then advance else reject wanted

def eat (k : Token.Kind) : Descent C Unit := expect k (.token k)

def take (k : Token.Kind) : Descent C Token := do
  let t ← look
  eat k
  return t

/-- The parser that a descent describes, given what its calls do. -/
def interp (perform : ⦃β : Type⦄ → C β → Parse β) : Descent C α → Parse α
  | done a => pure a
  | fail e => throw e
  | looking next => do (next (← Parse.look)).interp perform
  | advancing next => do Parse.advance; next.interp perform
  | calling c next => do (next (← perform c)).interp perform

section Interp

variable {perform : ⦃β : Type⦄ → C β → Parse β}

@[simp] theorem interp_pure (a : α) : (pure a : Descent C α).interp perform = pure a := rfl

@[simp] theorem interp_fail (e : Failure) : (fail e : Descent C α).interp perform = throw e := rfl

@[simp] theorem interp_bind (p : Descent C α) (f : α → Descent C β) :
    (p >>= f).interp perform = (do (f (← p.interp perform)).interp perform) := by
  change (p.bind f).interp perform = _
  induction p with
  | done a => rfl
  | fail e => rfl
  | looking next ih => simp only [bind, interp, ih, bind_assoc]
  | advancing next ih => simp only [bind, interp, ih, bind_assoc]
  | calling c next ih => simp only [bind, interp, ih, bind_assoc]

@[simp] theorem interp_ite (p : Prop) [Decidable p] (x y : Descent C α) :
    (if p then x else y).interp perform = if p then x.interp perform else y.interp perform :=
  apply_ite (interp perform) p x y

@[simp] theorem interp_look : (look : Descent C Token).interp perform = Parse.look := bind_pure _

@[simp] theorem interp_advance : (advance : Descent C Unit).interp perform = Parse.advance :=
  bind_pure _

@[simp] theorem interp_call (c : C α) : (call c).interp perform = perform c := bind_pure _

@[simp] theorem interp_kind : (kind : Descent C Token.Kind).interp perform = Parse.kind := by
  simp only [kind, interp_bind, interp_look, interp_pure, Parse.kind]

@[simp] theorem interp_sees (k : Token.Kind) :
    (sees k : Descent C Bool).interp perform = Parse.sees k := by
  simp only [sees, interp_bind, interp_kind, interp_pure, Parse.sees]

@[simp] theorem interp_reject (wanted : Expectation) :
    (reject wanted : Descent C α).interp perform = Parse.reject wanted := by
  simp only [reject, interp_bind, interp_look, interp_fail, Parse.reject]

@[simp] theorem interp_expect (k : Token.Kind) (wanted : Expectation) :
    (expect k wanted : Descent C Unit).interp perform = Parse.expect k wanted := by
  simp only [expect, interp_bind, interp_sees, interp_ite, interp_advance, interp_reject,
    Parse.expect]

@[simp] theorem interp_eat (k : Token.Kind) :
    (eat k : Descent C Unit).interp perform = Parse.eat k := interp_expect k (.token k)

@[simp] theorem interp_take (k : Token.Kind) :
    (take k : Descent C Token).interp perform = Parse.take k := by
  simp only [take, interp_bind, interp_look, interp_eat, interp_pure, Parse.take]

end Interp

/-- The calls of a parser: the routine that each one enters, what it does there, and the parser
that is run for it, which does the same as long as it has depth left. -/
class Plans (C : Type → Type) where
  routine {β : Type} : C β → Routine
  plan {β : Type} : C β → Descent C β
  perform (n : Nat) ⦃β : Type⦄ : C β → Parse β
  perform_succ {β : Type} (n : Nat) (c : C β) : perform (n + 1) c = (plan c).interp (perform n)

export Plans (plan perform)

/-- A call that was made, and where. -/
structure Visit (C : Type → Type) : Type 1 where
  {Result : Type}
  call : C Result
  feed : Feed

abbrev Outcome (α : Type) := EStateM.Result Failure Feed α

variable [Plans C]

/-- A descent runs from a feed to an outcome, and makes certain calls on its way, in this order. -/
inductive Runs : {α : Type} → Descent C α → Feed → Outcome α → List (Visit C) → Prop where
  | done {α : Type} {a : α} {s : Feed} : Runs (.done a) s (.ok a s) []
  | fail {α : Type} {e : Failure} {s : Feed} : Runs (α := α) (.fail e) s (.error e s) []
  | look {α : Type} {next : Token → Descent C α} {s : Feed} {t : Token} {r : Outcome α}
      {l : List (Visit C)} : s.current = some t → Runs (next t) s r l → Runs (.looking next) s r l
  | blind {α : Type} {next : Token → Descent C α} {s : Feed} :
      s.current = none → Runs (.looking next) s (.error (.crash .missingPart) s) []
  | advance {α : Type} {next : Descent C α} {s s' : Feed} {r : Outcome α} {l : List (Visit C)} :
      Parse.advance s = .ok () s' → Runs next s' r l → Runs (.advancing next) s r l
  | halt {α : Type} {next : Descent C α} {s s' : Feed} {e : Failure} :
      Parse.advance s = .error e s' → Runs (.advancing next) s (.error e s') []
  | call {α β : Type} {c : C β} {next : β → Descent C α} {s s' : Feed} {b : β} {r : Outcome α}
      {l l' : List (Visit C)} : Runs (plan c) s (.ok b s') l → Runs (next b) s' r l' →
      Runs (.calling c next) s r (⟨c, s⟩ :: (l ++ l'))
  | stop {α β : Type} {c : C β} {next : β → Descent C α} {s s' : Feed} {e : Failure}
      {l : List (Visit C)} : Runs (plan c) s (.error e s') l →
      Runs (.calling c next) s (.error e s') (⟨c, s⟩ :: l)

theorem Runs.interp_eq {p : Descent C α} {s : Feed} {r : Outcome α} {l : List (Visit C)}
    (h : Runs p s r l) {n : Nat} (hn : l.length ≤ n) : p.interp (perform n) s = r := by
  induction h generalizing n with
  | done => rfl
  | fail => rfl
  | look ht _ ih =>
    simp only [interp, Parse.look, ht, Bind.bind, EStateM.bind]
    exact ih hn
  | blind hs => simp only [interp, Parse.look, hs, Bind.bind, EStateM.bind]
  | advance hs _ ih =>
    simp only [interp, hs, Bind.bind, EStateM.bind]
    exact ih hn
  | halt hs => simp only [interp, hs, Bind.bind, EStateM.bind]
  | @call _ _ c _ _ _ _ _ _ _ _ _ ih ih' =>
    obtain ⟨n, rfl⟩ := Nat.exists_eq_succ_of_ne_zero (Nat.ne_zero_of_lt hn)
    rw [List.length_cons, List.length_append] at hn
    simp only [interp, Plans.perform_succ, ih (n := n) (by omega), Bind.bind, EStateM.bind]
    exact ih' (by omega)
  | stop _ ih =>
    obtain ⟨n, rfl⟩ := Nat.exists_eq_succ_of_ne_zero (Nat.ne_zero_of_lt hn)
    simp only [interp, Plans.perform_succ, ih (Nat.le_of_succ_le_succ hn), Bind.bind, EStateM.bind]

theorem Runs.visit {p : Descent C α} {s : Feed} {r : Outcome α} {l : List (Visit C)}
    (h : Runs p s r l) {v : Visit C} (hv : v ∈ l) : ∃ r' l', Runs (plan v.call) v.feed r' l' ∧
      ∀ e s', r' = .error e s' → r = .error e s' := by
  induction h with
  | done | fail | blind | halt => cases hv
  | look _ _ ih | advance _ _ ih => exact ih hv
  | call hrun _ ih ih' =>
    obtain rfl | hv := List.mem_cons.1 hv
    · exact ⟨_, _, hrun, fun _ _ h => by cases h⟩
    · obtain hv | hv := List.mem_append.1 hv
      · obtain ⟨r', l', hr', hfail⟩ := ih hv
        exact ⟨r', l', hr', fun e s' h => by cases hfail e s' h⟩
      · exact ih' hv
  | stop hrun ih =>
    obtain rfl | hv := List.mem_cons.1 hv
    · exact ⟨_, _, hrun, fun _ _ h => by cases h; rfl⟩
    · obtain ⟨r', l', hr', hfail⟩ := ih hv
      exact ⟨r', l', hr', fun e s' h => by cases hfail e s' h; rfl⟩

theorem Runs.eq_of_visit {p : Descent C α} {s s' : Feed} {r : Outcome α} {l : List (Visit C)}
    (h : Runs p s r l) {v : Visit C} (hv : v ∈ l) {e : Failure}
    (hfail : ∀ n, perform (n + 1) v.call v.feed = .error e s') : r = .error e s' := by
  obtain ⟨r', l', hr', hr⟩ := h.visit hv
  apply hr
  rw [← hr'.interp_eq (Nat.le_refl _), ← Plans.perform_succ]
  exact hfail l'.length

end Descent
end StackLang
