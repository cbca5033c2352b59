import StackLang.Proofs.RunningCount
import StackLang.Proofs.Separation

namespace StackLang

variable {α : Type}

/-- What can be done to scopes and to offsets alike. -/
inductive Update (α : Type) where
  | enter
  | leave
  | put (name : String) (a : α)
  deriving Repr, DecidableEq

namespace Update

def change : Update α → Change
  | enter => .enter
  | leave => .leave
  | put name _ => .declare name

/-- How many scopes are open inside a scope behind an update, if there were `k` before it. There is
no answer behind the update that leaves the scope itself. -/
def inner? (k : Nat) : Update α → Option Nat
  | enter => some (k + 1)
  | leave =>
    match k with
    | 0 => none
    | k + 1 => some k
  | put _ _ => some k

/-- How many scopes are open inside a scope behind the updates since it was entered, if it is still
open itself. -/
def within? (l : List (Update α)) : Option Nat := l.foldlM inner? 0

/-- A scope that is still open behind the updates `l`, with the updates `inside` since it was
entered. -/
def Open (l inside : List (Update α)) : Prop :=
  ∃ before, l = before ++ enter :: inside ∧ (within? inside).isSome

/-- A name was put into the scope that was entered before the updates `inside`, when no other was
open in it, and `rest` has followed. -/
def PutIn (inside : List (Update α)) (name : String) (a : α) (rest : List (Update α)) : Prop :=
  ∃ own, inside = own ++ put name a :: rest ∧ within? own = some 0

/-- What was put last for a name into the scope that was entered before the updates `inside`. -/
def Latest (inside : List (Update α)) (name : String) (a : α) : Prop :=
  ∃ rest, PutIn inside name a rest ∧ ∀ b rest', ¬PutIn rest name b rest'

variable {l l' inside inside' rest : List (Update α)} {u : Update α} {name : String} {a : α}
  {i k : Nat}

theorem within?_concat : within? (l ++ [u]) = (within? l).bind (inner? · u) := by
  simp [within?, List.foldlM_append]

theorem inner?_add (m : Nat) (h : inner? i u = some k) : inner? (i + m) u = some (k + m) := by
  cases u with
  | enter =>
    cases h
    exact congrArg some (Nat.add_right_comm ..)
  | leave =>
    cases i with
    | zero => cases h
    | succ i =>
      cases h
      rw [Nat.add_right_comm]
      rfl
  | put name a =>
    cases h
    rfl

theorem foldlM_inner?_add (m : Nat) (h : l.foldlM inner? i = some k) :
    l.foldlM inner? (i + m) = some (k + m) := by
  induction l generalizing i with
  | nil =>
    cases h
    rfl
  | cons u l ih =>
    rw [List.foldlM_cons] at h ⊢
    obtain ⟨j, hj, hrest⟩ := Option.bind_eq_some_iff.1 h
    rw [inner?_add m hj]
    exact ih hrest

theorem within?_append (h : within? l = some i) (h' : within? l' = some k) :
    within? (l ++ l') = some (k + i) := by
  have hshift := foldlM_inner?_add i h'
  rw [Nat.zero_add] at hshift
  rw [within?, List.foldlM_append, ← within?, h]
  exact hshift

theorem exists_within?_of_append (h : within? (l ++ l') = some k) : ∃ i, within? l = some i := by
  rw [within?, List.foldlM_append] at h
  obtain ⟨i, hi, -⟩ := Option.bind_eq_some_iff.1 h
  exact ⟨i, hi⟩

theorem within?_own_append (h : within? l = some 0) : within? (l ++ l') = within? l' := by
  rw [within?, List.foldlM_append, ← within?, h]
  rfl

theorem Open.trans (h : Open l inside) (h' : Open inside inside') : Open l inside' := by
  obtain ⟨before, rfl, -⟩ := h
  obtain ⟨before', rfl, hopen⟩ := h'
  exact ⟨before ++ enter :: before', by simp, hopen⟩

theorem Open.lt (h : Open inside inside') (hi : within? inside' = some i)
    (hk : within? inside = some k) : i < k := by
  obtain ⟨before, rfl, -⟩ := h
  obtain ⟨j, hj⟩ := exists_within?_of_append hk
  have henter : within? (before ++ [enter]) = some (j + 1) := by
    rw [within?_concat, hj]
    rfl
  have hall := within?_append henter hi
  rw [List.append_assoc, List.singleton_append, hk, Option.some.injEq] at hall
  omega

theorem Open.trichotomy (h : Open l inside) (h' : Open l inside') :
    Open inside inside' ∨ inside = inside' ∨ Open inside' inside := by
  obtain ⟨before, rfl, hopen⟩ := h
  obtain ⟨before', hl, hopen'⟩ := h'
  obtain ⟨mid, -, hmid⟩ | ⟨mid, -, hmid⟩ := List.append_eq_append_iff.1 hl
  · obtain ⟨-, heq⟩ | ⟨mid, -, hmid⟩ := List.cons_eq_append_iff.1 hmid
    · exact .inr (.inl (List.cons.inj heq).2.symm)
    · exact .inl ⟨mid, hmid, hopen'⟩
  · obtain ⟨-, heq⟩ | ⟨mid, -, hmid⟩ := List.cons_eq_append_iff.1 hmid
    · exact .inr (.inl (List.cons.inj heq).2)
    · exact .inr (.inr ⟨mid, hmid, hopen⟩)

theorem not_putIn_nil : ¬PutIn [] name a rest := by
  rintro ⟨own, hown, -⟩
  simp at hown

theorem putIn_concat : PutIn (inside ++ [u]) name a rest ↔
    (rest = [] ∧ u = put name a ∧ within? inside = some 0) ∨
      ∃ rest', rest = rest' ++ [u] ∧ PutIn inside name a rest' := by
  constructor
  · rintro ⟨own, hinside, hown⟩
    obtain rfl | ⟨rest', u', rfl⟩ := List.eq_nil_or_concat' rest
    · obtain ⟨rfl, hu⟩ := List.append_inj' hinside rfl
      exact .inl ⟨rfl, (List.cons.inj hu).1, hown⟩
    · rw [← List.cons_append, ← List.append_assoc] at hinside
      obtain ⟨hinside, hu⟩ := List.append_inj' hinside rfl
      exact .inr ⟨rest', by rw [hu], own, hinside, hown⟩
  · rintro (⟨rfl, rfl, hinside⟩ | ⟨rest', rfl, own, rfl, hown⟩)
    · exact ⟨inside, rfl, hinside⟩
    · exact ⟨own, by simp, hown⟩

theorem PutIn.within?_eq (h : PutIn inside name a rest) : within? inside = within? rest := by
  obtain ⟨own, rfl, hown⟩ := h
  rw [within?_own_append hown]
  rfl

theorem PutIn.trans {b : α} {rest' : List (Update α)} (h : PutIn inside name a rest)
    (h' : PutIn rest name b rest') : PutIn inside name b rest' := by
  obtain ⟨own, rfl, hown⟩ := h
  obtain ⟨own', rfl, hown'⟩ := h'
  refine ⟨own ++ put name a :: own', by simp, ?_⟩
  rw [within?_own_append hown]
  exact hown'

theorem PutIn.exists_latest (h : PutIn inside name a rest) : ∃ b, Latest inside name b := by
  induction hn : rest.length using Nat.strong_induction_on generalizing a rest with
  | h n ih =>
    by_cases hlater : ∃ b rest', PutIn rest name b rest'
    · obtain ⟨b, rest', hrest⟩ := hlater
      have hlt : rest'.length < n := by
        obtain ⟨own, rfl, -⟩ := hrest
        simp only [List.length_append, List.length_cons] at hn
        omega
      exact ih _ hlt (h.trans hrest) rfl
    · exact ⟨a, rest, h, fun b rest' hb => hlater ⟨b, rest', hb⟩⟩

theorem latest_concat (h : within? inside = some i) : Latest (inside ++ [u]) name a ↔
    (i = 0 ∧ u = put name a) ∨ (Latest inside name a ∧ ∀ b, ¬(i = 0 ∧ u = put name b)) := by
  constructor
  · rintro ⟨rest, hput, hlast⟩
    obtain ⟨-, hu, hzero⟩ | ⟨rest, rfl, hbefore⟩ := putIn_concat.1 hput
    · exact .inl ⟨Option.some.inj (h.symm.trans hzero), hu⟩
    · refine .inr ⟨⟨rest, hbefore, fun b rest' hb => ?_⟩, fun b hb => ?_⟩
      · exact hlast b (rest' ++ [u]) (putIn_concat.2 (.inr ⟨rest', rfl, hb⟩))
      · obtain ⟨rfl, hu⟩ := hb
        exact hlast b [] (putIn_concat.2 (.inl ⟨rfl, hu, hbefore.within?_eq.symm.trans h⟩))
  · rintro (⟨rfl, rfl⟩ | ⟨⟨rest, hput, hlast⟩, hother⟩)
    · exact ⟨[], putIn_concat.2 (.inl ⟨rfl, rfl, h⟩), fun _ _ => not_putIn_nil⟩
    · refine ⟨rest ++ [u], putIn_concat.2 (.inr ⟨rest, rfl, hput⟩), fun b rest' hb => ?_⟩
      obtain ⟨-, hu, hzero⟩ | ⟨rest', rfl, hbefore⟩ := putIn_concat.1 hb
      · exact hother b ⟨Option.some.inj (h.symm.trans (hput.within?_eq.trans hzero)), hu⟩
      · exact hlast b rest' hbefore

end Update

namespace Table

variable {κ : Type} [BEq κ]

theorem isSome_get? (t : Table κ α) (k : κ) : (t.get? k).isSome = t.contains k := by
  rw [get?, Option.isSome_map, List.isSome_find?]
  rfl

theorem contains_put [LawfulBEq κ] {t : Table κ α} {k k' : κ} {a : α} :
    (t.put k a).contains k' ↔ k' = k ∨ t.contains k' := by
  rw [← isSome_get?, get?_put, ← isSome_get?]
  by_cases hk : k' = k <;> simp [hk]

end Table

open Update

namespace Scopes

def apply (s : Scopes α) : Update α → Scopes α
  | .enter => s.enter
  | .leave => s.leave
  | .put name a => s.put name a

def after (l : List (Update α)) : Scopes α := l.foldl apply .empty

theorem after_concat (l : List (Update α)) (u : Update α) : after (l ++ [u]) = (after l).apply u :=
  List.foldl_append

@[simp] theorem depth_put (s : Scopes α) (name : String) (a : α) :
    (s.put name a).depth = s.depth := by
  obtain ⟨levels⟩ := s
  cases levels <;> rfl

variable {s : Scopes α} {l inside : List (Update α)} {u : Update α} {name : String} {a : α}
  {i k : Nat}

theorem level_apply {t : Table String α} (ht : s.levels[i]? = some t)
    (hk : inner? i u = some k) : ∃ t', (s.apply u).levels[k]? = some t' ∧ ∀ name a,
      t'.get? name = some a ↔
        (i = 0 ∧ u = .put name a) ∨ (t.get? name = some a ∧ ∀ b, ¬(i = 0 ∧ u = .put name b)) := by
  cases u with
  | enter =>
    cases hk
    exact ⟨t, ht, by simp⟩
  | leave =>
    cases i with
    | zero => cases hk
    | succ i =>
      cases hk
      refine ⟨t, ?_, by simp⟩
      rw [apply, leave, List.getElem?_tail, ht]
  | put name a =>
    cases hk
    obtain ⟨levels⟩ := s
    cases levels with
    | nil => cases ht
    | cons level outer =>
      cases i with
      | zero =>
        obtain rfl : level = t := Option.some.inj ht
        refine ⟨level.put name a, rfl, fun name' a' => ?_⟩
        rw [Table.get?_put]
        by_cases hname : name' = name
        · simp [hname]
        · simp [hname, Ne.symm hname]
      | succ i => exact ⟨t, ht, by simp⟩

theorem exists_level (before : List (Update α)) (h : within? inside = some k) :
    ∃ t, (after (before ++ .enter :: inside)).levels[k]? = some t ∧
      ∀ name a, t.get? name = some a ↔ Latest inside name a := by
  induction inside using List.reverseRecOn generalizing k with
  | nil =>
    cases h
    refine ⟨∅, ?_, fun name a => ?_⟩
    · rw [after_concat]
      rfl
    · constructor
      · intro hget
        cases hget
      · rintro ⟨rest, hput, -⟩
        exact absurd hput not_putIn_nil
  | append_singleton inside u ih =>
    rw [within?_concat] at h
    obtain ⟨i, hi, hk⟩ := Option.bind_eq_some_iff.1 h
    obtain ⟨t, ht, hget⟩ := ih hi
    obtain ⟨t', ht', hget'⟩ := level_apply ht hk
    refine ⟨t', ?_, fun name a => ?_⟩
    · rw [← List.cons_append, ← List.append_assoc, after_concat]
      exact ht'
    · rw [hget', hget, latest_concat hi]

theorem exists_open (h : k < (after l).depth) :
    ∃ inside, Open l inside ∧ within? inside = some k := by
  induction l using List.reverseRecOn generalizing k with
  | nil => cases h
  | append_singleton l u ih =>
    rw [after_concat] at h
    -- A scope that was there before the update is at another place behind it.
    have hkeep {i : Nat} (hi : i < (after l).depth) (hk : inner? i u = some k) :
        ∃ inside, Open (l ++ [u]) inside ∧ within? inside = some k := by
      obtain ⟨inside, ⟨before, rfl, -⟩, hinside⟩ := ih hi
      have hwithin : within? (inside ++ [u]) = some k := by
        rw [within?_concat, hinside]
        exact hk
      exact ⟨inside ++ [u], ⟨before, by simp, by rw [hwithin]; rfl⟩, hwithin⟩
    cases u with
    | enter =>
      cases k with
      | zero => exact ⟨[], ⟨l, rfl, rfl⟩, rfl⟩
      | succ k => exact hkeep (Nat.lt_of_succ_lt_succ h) rfl
    | leave =>
      rw [apply, leave, depth, List.length_tail] at h
      exact hkeep (Nat.add_lt_of_lt_sub h) rfl
    | put name a =>
      rw [apply, depth_put] at h
      exact hkeep h rfl

theorem exists_open_of_level {t : Table String α} (h : (after l).levels[k]? = some t) :
    ∃ inside, Open l inside ∧ within? inside = some k ∧
      ∀ name a, t.get? name = some a ↔ Latest inside name a := by
  obtain ⟨inside, hopen, hinside⟩ := exists_open (List.getElem?_eq_some_iff.1 h).1
  obtain ⟨before, rfl, hsome⟩ := hopen
  obtain ⟨t', ht', hlatest⟩ := exists_level before hinside
  obtain rfl : t = t' := Option.some.inj (h.symm.trans ht')
  exact ⟨inside, ⟨before, rfl, hsome⟩, hinside, hlatest⟩

theorem exists_level_of_open (h : Open l inside) :
    ∃ k t, within? inside = some k ∧ (after l).levels[k]? = some t ∧
      ∀ name a, t.get? name = some a ↔ Latest inside name a := by
  obtain ⟨before, rfl, hopen⟩ := h
  obtain ⟨k, hk⟩ := Option.isSome_iff_exists.1 hopen
  obtain ⟨t, ht, hlatest⟩ := exists_level before hk
  exact ⟨k, t, hk, ht, hlatest⟩

theorem get?_eq_some : s.get? name = some a ↔
    ∃ (k : Nat) (t : Table String α), s.levels[k]? = some t ∧ t.get? name = some a ∧
      ∀ (i : Nat) (t' : Table String α), i < k → s.levels[i]? = some t' → t'.get? name = none := by
  rw [get?, List.findSome?_eq_some_iff]
  constructor
  · rintro ⟨inner, t, outer, hlevels, ht, hinner⟩
    refine ⟨inner.length, t, by simp [hlevels], ht, fun i t' hi ht' => ?_⟩
    rw [hlevels, List.getElem?_append_left hi] at ht'
    exact hinner t' (List.mem_of_getElem? ht')
  · rintro ⟨k, t, hk, ht, hinner⟩
    obtain ⟨hlt, hget⟩ := List.getElem?_eq_some_iff.1 hk
    refine ⟨s.levels.take k, t, s.levels.drop (k + 1), ?_, ht, fun t' ht' => ?_⟩
    · rw [← hget, ← List.drop_eq_getElem_cons hlt, List.take_append_drop]
    · obtain ⟨i, hi, hget'⟩ := List.mem_take_iff_getElem.1 ht'
      exact hinner i t' (by omega) (List.getElem?_eq_some_iff.2 ⟨by omega, hget'⟩)

theorem get?_after : (after l).get? name = some a ↔ ∃ inside, Open l inside ∧ Latest inside name a ∧
    ∀ inside', Open inside inside' → ∀ b rest, ¬PutIn inside' name b rest := by
  rw [get?_eq_some]
  constructor
  · rintro ⟨k, t, hk, ht, hinner⟩
    obtain ⟨inside, hopen, hinside, hlatest⟩ := exists_open_of_level hk
    refine ⟨inside, hopen, (hlatest name a).1 ht, fun inside' hopen' b rest hput => ?_⟩
    obtain ⟨i, t', hi, ht', hlatest'⟩ := exists_level_of_open (hopen.trans hopen')
    obtain ⟨b', hb'⟩ := hput.exists_latest
    have hnone := hinner i t' (hopen'.lt hi hinside) ht'
    rw [(hlatest' name b').2 hb'] at hnone
    cases hnone
  · rintro ⟨inside, hopen, hlatest, hinner⟩
    obtain ⟨k, t, hk, ht, hget⟩ := exists_level_of_open hopen
    refine ⟨k, t, ht, (hget name a).2 hlatest, fun i t' hi ht' => ?_⟩
    obtain ⟨inside', hopen', hi', hget'⟩ := exists_open_of_level ht'
    -- The scope at `i` has fewer scopes inside, so it is the inner one of the two.
    obtain hin | rfl | hout := hopen.trichotomy hopen'
    · refine Option.eq_none_iff_forall_ne_some.2 fun b hb => ?_
      obtain ⟨rest, hput, -⟩ := (hget' name b).1 hb
      exact hinner inside' hin b rest hput
    · have hik : i = k := Option.some.inj (hi'.symm.trans hk)
      omega
    · have hki := hout.lt hk hi'
      omega

example : (after [.put "x" 0, .enter, .put "x" 1, .put "x" 2, .enter, .put "x" 3, .leave]).get?
    "x" = some 2 := by decide

theorem contains_iff_get? : s.contains name ↔ s.get? name ≠ none := by
  rw [← Option.isSome_iff_ne_none, get?, List.findSome?_isSome_iff, contains, List.any_eq_true]
  simp only [Table.isSome_get?]

end Scopes

def Alike (s : Scopes α) (o : Offsets) : Prop :=
  List.Forall₂ (fun level block => ∀ name, level.contains name ↔ name ∈ block) s.levels o.blocks

namespace Alike

variable {s : Scopes α} {o : Offsets} {name : String}

theorem apply (h : Alike s o) (u : Update α) : Alike (s.apply u) (o.apply u.change) := by
  obtain ⟨levels⟩ := s
  obtain ⟨blocks⟩ := o
  cases u with
  | enter => exact .cons (fun _ => iff_of_false Bool.false_ne_true List.not_mem_nil) h
  | leave =>
    cases h with
    | nil => exact .nil
    | cons _ houter => exact houter
  | put name a =>
    cases h with
    | nil => exact .nil
    | cons hhere houter =>
      refine .cons (fun name' => ?_) houter
      rw [Table.contains_put, hhere, List.mem_append, List.mem_singleton, or_comm]

theorem after (l : List (Update α)) : Alike (.after l) (.after (l.map Update.change)) := by
  induction l using List.reverseRecOn with
  | nil => exact .nil
  | append_singleton l u ih =>
    rw [Scopes.after_concat, List.map_append, Offsets.after_append]
    exact ih.apply u

theorem depth_eq (h : Alike s o) : s.depth = o.depth := List.Forall₂.length_eq h

theorem contains_iff (h : Alike s o) : s.contains name ↔ o.offset? name ≠ none := by
  rw [Ne, Offsets.offset?_eq_none, not_not, Scopes.contains]
  obtain ⟨levels⟩ := s
  obtain ⟨blocks⟩ := o
  change List.Forall₂ _ levels blocks at h
  induction h with
  | nil => simp
  | cons hhere _ ih =>
    rw [List.any_cons, Bool.or_eq_true, hhere, ih, List.flatten_cons, List.mem_append]

theorem containsHere_iff (h : Alike s o) :
    s.containsHere name ↔ ∃ block, o.blocks.head? = some block ∧ name ∈ block := by
  obtain ⟨levels⟩ := s
  obtain ⟨blocks⟩ := o
  cases h with
  | nil => simp [Scopes.containsHere]
  | cons hhere _ => simp [Scopes.containsHere, hhere]

end Alike

/-- Behind any updates, from no scope and no block on, there are as many scopes as blocks. They have
the same names, in all and innermost, and a search by the running count finds these as well. The
scopes give something for each name that they have: what was put last into the innermost open scope
that had the name put into it. -/
theorem scopes_offsets_agree (l : List (Update α)) :
    let s := Scopes.after l
    let o := Offsets.after (l.map Update.change)
    s.depth = o.depth ∧
    (∀ name, s.contains name ↔ o.offset? name ≠ none) ∧
    (∀ name, s.contains name ↔ (Tally.after (l.map Update.change)).offset? name ≠ none) ∧
    (∀ name, s.containsHere name ↔ ∃ block, o.blocks.head? = some block ∧ name ∈ block) ∧
    (∀ name, s.contains name ↔ s.get? name ≠ none) ∧
    ∀ name a, s.get? name = some a ↔ ∃ inside, Open l inside ∧ Latest inside name a ∧
      ∀ inside', Open inside inside' → ∀ b rest, ¬PutIn inside' name b rest := by
  intro s o
  have halike : Alike s o := .after l
  refine ⟨halike.depth_eq, fun name => halike.contains_iff, fun name => ?_,
    fun name => halike.containsHere_iff, fun name => Scopes.contains_iff_get?,
    fun name a => Scopes.get?_after⟩
  rw [halike.contains_iff, Tally.after_eq, Tally.offset?_ofOffsets, Ne, Ne, Option.map_eq_none_iff]

end StackLang
