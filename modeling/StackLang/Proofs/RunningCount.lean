import Mathlib
import StackLang.Proofs.Numbering

namespace StackLang

inductive Change where
  | enter
  | leave
  | declare (name : String)
  deriving Repr, DecidableEq

/-- Whether changes leave each block that they enter and no other, when `depth` blocks are to be left
besides. -/
def balanced : Nat → List Change → Bool
  | depth, [] => depth == 0
  | depth, .enter :: l => balanced (depth + 1) l
  | 0, .leave :: _ => false
  | depth + 1, .leave :: l => balanced depth l
  | depth, .declare _ :: l => balanced depth l

namespace Offsets

def apply (o : Offsets) : Change → Offsets
  | .enter => o.enter
  | .leave => o.leave
  | .declare name => o.declare name

def after (l : List Change) : Offsets := l.foldl apply .empty

end Offsets

/-- A table with a running count of its variables. -/
structure Tally where
  blocks : List (List String)
  count : Int
  deriving DecidableEq

namespace Tally

def empty : Tally := ⟨[], 0⟩

def apply (t : Tally) : Change → Tally
  | .enter => { t with blocks := [] :: t.blocks }
  | .leave =>
    match t.blocks with
    | [] => t
    | block :: outer => ⟨outer, t.count - block.length⟩
  | .declare name =>
    match t.blocks with
    | [] => t
    | block :: outer => ⟨(block ++ [name]) :: outer, t.count + 1⟩

def after (l : List Change) : Tally := l.foldl apply empty

def search (name : String) (left : Int) : List (List String) → Option Int
  | [] => none
  | block :: outer =>
    if name ∈ block then some (left - block.length + block.idxOf name)
    else search name (left - block.length) outer

def offset? (t : Tally) (name : String) : Option Int := search name t.count t.blocks

theorem search_eq (name : String) (blocks : List (List String)) :
    search name blocks.flatten.length blocks = (Offsets.find blocks name).map Int.ofNat := by
  induction blocks with
  | nil => rfl
  | cons block outer ih =>
    have hleft : ((block :: outer).flatten.length : Int) - block.length = outer.flatten.length := by
      rw [List.flatten_cons, List.length_append]
      omega
    rw [search, hleft, ih, Offsets.find]
    cases hplace : block.idxOf? name with
    | none => rw [if_neg (List.idxOf?_eq_none_iff.1 hplace)]
    | some i =>
      have hmem : name ∈ block := by
        rw [← List.isSome_idxOf?, hplace]
        rfl
      have hi : block.idxOf name = i := by rw [List.idxOf_eq_getD_idxOf?, hplace, Option.getD_some]
      rw [if_pos hmem, hi]
      rfl

def ofOffsets (o : Offsets) : Tally := ⟨o.blocks, o.total⟩

theorem apply_ofOffsets (o : Offsets) (c : Change) :
    (ofOffsets o).apply c = ofOffsets (o.apply c) := by
  obtain ⟨blocks⟩ := o
  cases c with
  | enter => rfl
  | leave =>
    cases blocks with
    | nil => rfl
    | cons block outer =>
      simp only [apply, ofOffsets, Offsets.apply, Offsets.leave, Offsets.total, List.flatten_cons,
        List.length_append, List.tail_cons, Tally.mk.injEq, true_and]
      omega
  | declare name =>
    cases blocks with
    | nil => rfl
    | cons block outer =>
      simp only [apply, ofOffsets, Offsets.apply, Offsets.declare, Offsets.total, List.flatten_cons,
        List.length_append, List.length_singleton, Tally.mk.injEq, true_and]
      omega

theorem after_eq (l : List Change) : after l = ofOffsets (.after l) := by
  have hrun (o : Offsets) : l.foldl apply (ofOffsets o) = ofOffsets (l.foldl Offsets.apply o) := by
    induction l generalizing o with
    | nil => rfl
    | cons c l ih => rw [List.foldl_cons, apply_ofOffsets, ih, List.foldl_cons]
  exact hrun .empty

theorem offset?_ofOffsets (o : Offsets) (name : String) :
    (ofOffsets o).offset? name = (o.offset? name).map Int.ofNat := search_eq name o.blocks

end Tally

namespace Offsets

variable {o : Offsets} {name : String} {blocks : List (List String)} {k : Nat}

/-- The variables before the first one of a name in the innermost block that has one: those of the
blocks outside, and those that stand before it in its own. -/
def Ahead (o : Offsets) (name : String) (before : List String) : Prop :=
  ∃ inner own rest outer, o.blocks = inner ++ (own ++ name :: rest) :: outer ∧
    (∀ block ∈ inner, name ∉ block) ∧ name ∉ own ∧ before = outer.reverse.flatten ++ own

theorem Ahead.scope_eq {before : List String} (h : o.Ahead name before) :
    ∃ behind, o.scope = before ++ name :: behind := by
  obtain ⟨inner, own, rest, outer, hblocks, -, -, rfl⟩ := h
  refine ⟨rest ++ inner.reverse.flatten, ?_⟩
  rw [scope, hblocks]
  simp

theorem Ahead.offset?_eq {before : List String} (h : o.Ahead name before) :
    o.offset? name = some before.length := by
  obtain ⟨inner, own, rest, outer, hblocks, hinner, hown, rfl⟩ := h
  have hskip : find inner name = none := by
    rw [find_eq_none, List.mem_flatten]
    rintro ⟨block, hblock, hname⟩
    exact hinner block hblock hname
  have hlength : outer.flatten.length = outer.reverse.flatten.length := by simp
  rw [offset?, hblocks, find_append, hskip, find, idxOf?_append_cons hown, hlength,
    List.length_append]

theorem exists_ahead (h : name ∈ o.blocks.flatten) : ∃ before, o.Ahead name before := by
  obtain ⟨blocks⟩ := o
  induction blocks with
  | nil => cases h
  | cons block outer ih =>
    by_cases hmem : name ∈ block
    · obtain ⟨own, rest, rfl, hown⟩ := List.eq_append_cons_of_mem hmem
      exact ⟨_, [], own, rest, outer, rfl, List.forall_mem_nil _, hown, rfl⟩
    · have houter : name ∈ outer.flatten := by
        rw [List.flatten_cons, List.mem_append] at h
        exact h.resolve_left hmem
      obtain ⟨before, inner, own, rest, outer', hblocks, hinner, hown, hbefore⟩ := ih houter
      refine ⟨before, block :: inner, own, rest, outer', ?_, ?_, hown, hbefore⟩
      · exact congrArg (block :: ·) hblocks
      · exact List.forall_mem_cons.2 ⟨hmem, hinner⟩

theorem offset?_eq_none : o.offset? name = none ↔ name ∉ o.blocks.flatten := find_eq_none

theorem offset?_eq_some :
    o.offset? name = some k ↔ ∃ before, o.Ahead name before ∧ before.length = k := by
  constructor
  · intro h
    have hmem : name ∈ o.blocks.flatten := by
      by_contra hname
      rw [offset?_eq_none.2 hname] at h
      cases h
    obtain ⟨before, hbefore⟩ := exists_ahead hmem
    exact ⟨before, hbefore, Option.some.inj (hbefore.offset?_eq.symm.trans h)⟩
  · rintro ⟨before, hbefore, rfl⟩
    exact hbefore.offset?_eq

theorem scope_getElem? (h : o.offset? name = some k) : o.scope[k]? = some name := by
  obtain ⟨before, hbefore, rfl⟩ := offset?_eq_some.1 h
  obtain ⟨behind, hscope⟩ := hbefore.scope_eq
  rw [hscope, List.getElem?_append_right (Nat.le_refl _), Nat.sub_self]
  rfl

theorem after_append (l l' : List Change) : after (l ++ l') = l'.foldl apply (after l) :=
  List.foldl_append

theorem foldl_balanced {depth : Nat} {l : List Change} (h : balanced depth l)
    (own outer : List (List String)) (hown : own.length = depth + 1) :
    ∃ block, l.foldl apply ⟨own ++ outer⟩ = ⟨block :: outer⟩ := by
  induction l generalizing depth own with
  | nil =>
    obtain rfl : depth = 0 := by simpa [balanced] using h
    obtain ⟨block, rfl⟩ := List.length_eq_one_iff.1 hown
    exact ⟨block, rfl⟩
  | cons c l ih =>
    cases c with
    | enter => exact ih h ([] :: own) (by rw [List.length_cons, hown])
    | leave =>
      cases depth with
      | zero => cases h
      | succ depth =>
        obtain ⟨block, own, rfl⟩ := List.exists_cons_of_length_eq_add_one hown
        exact ih h own (Nat.succ.inj hown)
    | declare name =>
      obtain ⟨block, own, rfl⟩ := List.exists_cons_of_length_eq_add_one hown
      rw [balanced] at h
      exact ih h ((block ++ [name]) :: own) hown

theorem after_block (l : List Change) {l' : List Change} (h : balanced 0 l') :
    after (l ++ .enter :: l' ++ [.leave]) = after l := by
  obtain ⟨block, hblock⟩ := foldl_balanced h [[]] (after l).blocks rfl
  have hrun : (Change.enter :: l').foldl apply (after l) = ⟨block :: (after l).blocks⟩ := hblock
  rw [after_append, after_append, hrun]
  rfl

/-- After any changes to an empty table, the running count and the search by it give what the blocks
give. The variables in the blocks are counted; a name that no block has is not found; one that is
found has its place among all variables in scope for an offset, so that this is less than their
number and no other name has it. A block with balanced changes in it leaves the table as it was. -/
theorem after_offsets (l : List Change) :
    let o := after l
    Tally.after l = ⟨o.blocks, o.total⟩ ∧
    (∀ name, (Tally.after l).offset? name = (o.offset? name).map Int.ofNat) ∧
    o.total = (o.blocks.map List.length).sum ∧
    (∀ name, o.offset? name = none ↔ ∀ block ∈ o.blocks, name ∉ block) ∧
    (∀ name k, o.offset? name = some k ↔ ∃ before behind, o.scope = before ++ name :: behind ∧
      o.Ahead name before ∧ before.length = k) ∧
    (∀ name k, o.offset? name = some k → k < o.total) ∧
    (∀ name name' k, o.offset? name = some k → o.offset? name' = some k → name = name') ∧
    ∀ l', balanced 0 l' → after (l ++ .enter :: l' ++ [.leave]) = o := by
  intro o
  have htally := Tally.after_eq l
  refine ⟨htally, ?_, List.length_flatten, ?_, ?_, ?_, ?_, ?_⟩
  · intro name
    rw [htally, Tally.offset?_ofOffsets]
  · intro name
    rw [offset?_eq_none]
    simp
  · intro name k
    rw [offset?_eq_some]
    constructor
    · rintro ⟨before, hbefore, hk⟩
      obtain ⟨behind, hscope⟩ := hbefore.scope_eq
      exact ⟨before, behind, hscope, hbefore, hk⟩
    · rintro ⟨before, -, -, hbefore, hk⟩
      exact ⟨before, hbefore, hk⟩
  · intro name k h
    rw [← length_scope]
    exact (List.getElem?_eq_some_iff.1 (scope_getElem? h)).1
  · intro name name' k h h'
    exact Option.some.inj ((scope_getElem? h).symm.trans (scope_getElem? h'))
  · intro l' hl'
    exact after_block l hl'

end Offsets

end StackLang
