import StackLang.Proofs.Chains
import StackLang.Proofs.Generation

namespace StackLang

/-- Where a variable is: one of the function by its number in the function, or whichever of that
name was left. -/
inductive Place where
  | own (k : Nat)
  | left (name : String)
  deriving Repr, DecidableEq

/-- An operation whose variable is not numbered yet. -/
inductive Loose where
  | op (o : Op)
  | load (p : Place)
  | store (p : Place)
  | item (name : String)
  deriving Repr, DecidableEq

def Place.operand (base : Offsets) : Place → Value
  | own k => .int (base.total + k : Nat)
  | left name => base.operand name

/-- The operation behind the variables that were left. -/
def Loose.link (base : Offsets) : Loose → Op
  | op o => o
  | load p => .load (p.operand base)
  | store p => .store (p.operand base)
  | item name =>
    if base.operand name = .absent then .getField (.text name) else .load (base.operand name)

def link (base : Offsets) (c : List Loose) : Array Instr :=
  (c.map fun l => Instr.plain (l.link base)).toArray

theorem link_concat (base : Offsets) (c : List Loose) (l : Loose) :
    link base (c ++ [l]) = (link base c).push (.plain (l.link base)) := by
  simp [link]

theorem link_set (base : Offsets) (c : List Loose) (i : Nat) (op : Op) :
    link base (c.set i (.op op)) = (link base c).setIfInBounds i (.plain op) := by
  apply Array.ext'
  simp [link, List.map_set, Loose.link]

theorem size_link (base : Offsets) (c : List Loose) : (link base c).size = c.length := by
  simp [link]

theorem Loose.link_eq {base : Offsets} {l : Loose} {op : Op}
    (hop : ∀ v, op ≠ .load v ∧ op ≠ .store v ∧ op ≠ .getField v) :
    l.link base = op ↔ l = .op op := by
  cases l with
  | op o => simp [link]
  | load p => simpa [link] using (hop _).1.symm
  | store p => simpa [link] using (hop _).2.1.symm
  | item name =>
    have hne : link base (.item name) ≠ op := by
      rw [link]
      split
      · exact (hop _).2.2.symm
      · exact (hop _).1.symm
    simpa using hne

theorem back?_link_map (base : Offsets) (c : List Loose) :
    (link base c).back? = c.getLast?.map fun l => Instr.plain (l.link base) := by
  simp [link]

theorem back?_link {base : Offsets} {c : List Loose} {op : Op}
    (hop : ∀ v, op ≠ .load v ∧ op ≠ .store v ∧ op ≠ .getField v) :
    (link base c).back? = some (.plain op) ↔ c.getLast? = some (.op op) := by
  rw [back?_link_map, Option.map_eq_some_iff]
  constructor
  · rintro ⟨l, hl, hlink⟩
    rw [hl, (Loose.link_eq hop).1 (congrArg Instr.op hlink)]
  · intro h
    exact ⟨_, h, rfl⟩

namespace Offsets

/-- Where the variable of a name is, given the open blocks of the function. -/
def place (own : List (List String)) (name : String) : Place :=
  match find own name with
  | some k => .own k
  | none => .left name

theorem find_append (own outer : List (List String)) (name : String) :
    find (own ++ outer) name = match find own name with
      | some k => some (outer.flatten.length + k)
      | none => find outer name := by
  induction own with
  | nil => rfl
  | cons block own ih =>
    rw [List.cons_append, find, find]
    cases block.idxOf? name with
    | none => exact ih
    | some i =>
      simp only [List.flatten_append, List.length_append, Option.some.injEq]
      omega

theorem operand_append (own : List (List String)) (base : Offsets) (name : String) :
    operand ⟨own ++ base.blocks⟩ name = (place own name).operand base := by
  rw [operand, offset?, find_append, place]
  cases find own name with
  | none => rfl
  | some k => rfl

theorem find_eq_none {blocks : List (List String)} {name : String} :
    find blocks name = none ↔ name ∉ blocks.flatten := by
  induction blocks with
  | nil => simp [find]
  | cons block outer ih =>
    rw [find, List.flatten_cons, List.mem_append, not_or, ← ih, ← List.idxOf?_eq_none_iff]
    cases block.idxOf? name <;> simp

theorem operand_eq_absent {o : Offsets} {name : String} :
    o.operand name = .absent ↔ name ∉ o.blocks.flatten := by
  rw [← find_eq_none, operand, offset?]
  cases find o.blocks name <;> simp

end Offsets

namespace Loose

def inline : Loose → Bool
  | op o => o.inline
  | _ => true

def passes : Loose → Bool
  | op o => o.passes
  | _ => true

/-- What an operation may be later on: an empty literal whose length is taken changes. -/
def Becomes (l l' : Loose) : Prop :=
  l' = l ∨ (l = .op (.push (.text " ")) ∧ l' = .op (.push (.text "")))

theorem Becomes.trans {l l' l'' : Loose} (h : l.Becomes l') (h' : l'.Becomes l'') :
    l.Becomes l'' := by
  obtain rfl | ⟨rfl, rfl⟩ := h
  · exact h'
  · obtain rfl | ⟨h', -⟩ := h'
    · exact .inr ⟨rfl, rfl⟩
    · simp at h'

theorem Becomes.cases {l l' : Loose} (h : l.Becomes l') : l' = l ∨ (l.inline ∧ l'.inline) := by
  obtain rfl | ⟨rfl, rfl⟩ := h
  · exact .inl rfl
  · exact .inr ⟨rfl, rfl⟩

theorem passes_of_inline {l : Loose} (h : l.inline) : l.passes := by
  cases l with
  | op o =>
    cases o with
    | jump | ret => cases h
    | _ => rfl
  | _ => rfl

theorem inline_of_loose {l : Loose} (h : ∀ o, l ≠ .op o) : l.inline := by
  cases l with
  | op o => exact absurd rfl (h o)
  | _ => rfl

theorem jumps_of_inline {o : Op} (h : (op o).inline) : o.jumps = false := by
  cases o with
  | jump | jumpFalse => cases h
  | _ => rfl

end Loose

def Op.aims (n : Nat) (op : Op) : Prop :=
  op.jumps → op.operand = Generator.pending ∨ ∃ k ≤ n, op.operand = Generator.address k

/-- Code to which something was added, with jumps no further than behind its end. -/
structure Grows (a b : List Loose) : Prop where
  length_le : a.length ≤ b.length
  keeps : ∀ (i : Nat) (l : Loose), a[i]? = some l → ∃ l', b[i]? = some l' ∧ l.Becomes l'
  aims : ∀ (i : Nat) (op : Op), a.length ≤ i → b[i]? = some (.op op) → op.aims b.length

/-- Code to which nothing was added but what goes on at the next operation. -/
structure Prolongs (a b : List Loose) : Prop extends Grows a b where
  inline : ∀ (i : Nat) (l : Loose), a.length ≤ i → b[i]? = some l → l.inline

section Growth

variable {a b c : List Loose} {n k : Nat} {op : Op} {l : Loose}

theorem Op.aims_jump (h : k ≤ n) : (Op.jump (Generator.address k)).aims n :=
  fun _ => .inr ⟨k, h, rfl⟩

theorem Op.aims_jumpFalse (h : k ≤ n) : (Op.jumpFalse (Generator.address k)).aims n :=
  fun _ => .inr ⟨k, h, rfl⟩

theorem Op.aims_pending (h : op.operand = Generator.pending) : op.aims n := fun _ => .inl h

theorem Op.aims_of_not_jumps (h : op.jumps = false) : op.aims n := by
  intro hjumps
  rw [h] at hjumps
  cases hjumps

theorem Op.aims.mono (h : op.aims n) (hk : n ≤ k) : op.aims k := by
  intro hjumps
  obtain hpending | ⟨j, hj, hop⟩ := h hjumps
  · exact .inl hpending
  · exact .inr ⟨j, Nat.le_trans hj hk, hop⟩

theorem getElem?_concat_cases {i : Nat} {l' : Loose} (h : (b ++ [l])[i]? = some l') :
    b[i]? = some l' ∨ (i = b.length ∧ l' = l) := by
  by_cases hi : i < b.length
  · rw [List.getElem?_append_left hi] at h
    exact .inl h
  · have hlt := (List.getElem?_eq_some_iff.1 h).1
    rw [List.length_append, List.length_singleton] at hlt
    obtain rfl : i = b.length := by omega
    rw [List.getElem?_concat_length] at h
    cases h
    exact .inr ⟨rfl, rfl⟩

namespace Grows

theorem refl (a : List Loose) : Grows a a where
  length_le := Nat.le_refl _
  keeps i l h := ⟨l, h, .inl rfl⟩
  aims i op hi h := by
    have hlt := (List.getElem?_eq_some_iff.1 h).1
    omega

theorem trans (h : Grows a b) (h' : Grows b c) : Grows a c where
  length_le := Nat.le_trans h.length_le h'.length_le
  keeps i l hl := by
    obtain ⟨l₁, hl₁, hbecomes⟩ := h.keeps i l hl
    obtain ⟨l₂, hl₂, hbecomes'⟩ := h'.keeps i l₁ hl₁
    exact ⟨l₂, hl₂, hbecomes.trans hbecomes'⟩
  aims i op hi hop := by
    by_cases hib : b.length ≤ i
    · exact h'.aims i op hib hop
    · obtain ⟨l, hl⟩ : ∃ l, b[i]? = some l := ⟨_, List.getElem?_eq_getElem (by omega)⟩
      obtain ⟨l', hl', hbecomes⟩ := h'.keeps i l hl
      cases hop.symm.trans hl'
      obtain rfl | ⟨-, hinline⟩ := hbecomes.cases
      · exact (h.aims i op hi hl).mono h'.length_le
      · exact Op.aims_of_not_jumps (Loose.jumps_of_inline hinline)

theorem concat (h : Grows a b) (hl : ∀ op, l = .op op → op.aims b.length) :
    Grows a (b ++ [l]) where
  length_le := by
    rw [List.length_append]
    exact Nat.le_add_right_of_le h.length_le
  keeps i l hl := by
    obtain ⟨l', hl', hbecomes⟩ := h.keeps i l hl
    have hlt := (List.getElem?_eq_some_iff.1 hl').1
    exact ⟨l', by rwa [List.getElem?_append_left hlt], hbecomes⟩
  aims i op hi hop := by
    rw [List.length_append]
    apply Op.aims.mono (n := b.length) _ (Nat.le_add_right _ _)
    obtain hop | ⟨-, hop⟩ := getElem?_concat_cases hop
    · exact h.aims i op hi hop
    · exact hl op hop.symm

theorem length_lt (h : Grows (a ++ [l]) b) : a.length < b.length := by
  have hle := h.length_le
  rwa [List.length_append] at hle

theorem push (h : Grows a b) (hop : op.aims b.length) : Grows a (b ++ [.op op]) := by
  apply h.concat
  intro op' hop'
  cases hop'
  exact hop

theorem set (h : Grows a b) {i : Nat} (hi : a.length ≤ i) (hop : op.aims b.length) :
    Grows a (b.set i (.op op)) where
  length_le := by
    rw [List.length_set]
    exact h.length_le
  keeps j l hl := by
    have hj := (List.getElem?_eq_some_iff.1 hl).1
    rw [List.getElem?_set_ne (by omega)]
    exact h.keeps j l hl
  aims j op' hj hop' := by
    rw [List.length_set]
    by_cases hij : i = j
    · subst hij
      have hlt := (List.getElem?_eq_some_iff.1 hop').1
      rw [List.length_set] at hlt
      rw [List.getElem?_set_self hlt] at hop'
      cases hop'
      exact hop
    · rw [List.getElem?_set_ne hij] at hop'
      exact h.aims j op' hj hop'

end Grows

namespace Prolongs

theorem refl (a : List Loose) : Prolongs a a where
  toGrows := .refl a
  inline i l hi h := by
    have hlt := (List.getElem?_eq_some_iff.1 h).1
    omega

theorem trans (h : Prolongs a b) (h' : Prolongs b c) : Prolongs a c where
  toGrows := h.toGrows.trans h'.toGrows
  inline i l hi hl := by
    by_cases hib : b.length ≤ i
    · exact h'.inline i l hib hl
    · obtain ⟨l₀, hl₀⟩ : ∃ l, b[i]? = some l := ⟨_, List.getElem?_eq_getElem (by omega)⟩
      obtain ⟨l', hl', hbecomes⟩ := h'.keeps i l₀ hl₀
      cases hl.symm.trans hl'
      obtain rfl | ⟨-, hinline⟩ := hbecomes.cases
      · exact h.inline i l hi hl₀
      · exact hinline

theorem push (h : Prolongs a b) (hl : l.inline) : Prolongs a (b ++ [l]) where
  toGrows := by
    apply h.toGrows.concat
    rintro op rfl
    exact Op.aims_of_not_jumps (Loose.jumps_of_inline hl)
  inline i l' hi hl' := by
    obtain hl' | ⟨-, rfl⟩ := getElem?_concat_cases hl'
    · exact h.inline i l' hi hl'
    · exact hl

end Prolongs

def endsReturning (c : List Loose) : Prop := c.getLast? = some (.op .ret)

/-- Something was added, and a return is not the last of it. -/
structure Past (a b : List Loose) : Prop where
  lt : a.length < b.length
  not_endsReturning : ¬endsReturning b

theorem Past.concat (h : a.length ≤ b.length) (hl : l ≠ .op .ret) : Past a (b ++ [l]) where
  lt := by
    rw [List.length_append, List.length_singleton]
    omega
  not_endsReturning := by
    rw [endsReturning, List.getLast?_concat, Option.some.injEq]
    exact hl

theorem Past.of_le (h : Past b c) (hle : a.length ≤ b.length) : Past a c :=
  ⟨Nat.lt_of_le_of_lt hle h.lt, h.not_endsReturning⟩

theorem getLast?_set_of_lt {i : Nat} (h : i + 1 < b.length) :
    (b.set i l).getLast? = b.getLast? := by
  rw [List.getLast?_eq_getElem?, List.getLast?_eq_getElem?, List.length_set,
    List.getElem?_set_ne (by omega)]

theorem Past.set {i : Nat} (h : Past a b) (hi : i + 1 < b.length) : Past a (b.set i l) where
  lt := by
    rw [List.length_set]
    exact h.lt
  not_endsReturning := by
    rw [endsReturning, getLast?_set_of_lt hi]
    exact h.not_endsReturning

end Growth

namespace Generator

/-- Generation in the midst of a function: its code so far, linked behind the variables that were
left, and its open blocks on top of these. -/
def amid (structs : Table String StructDef) (own : List (List String)) (c : List Loose)
    (base : Offsets) (image : Image) (t : Template) : Generator :=
  ⟨image, some { t with code := link base c }, ⟨own ++ base.blocks⟩, structs⟩

/-- Generation that does the same to the code of a function before it is linked, whatever variables
were left, or always fails with the same failure. -/
def Uniform (structs : Table String StructDef) (own : List (List String)) (c : List Loose)
    (x : Offsets → Gen Unit) (Q : List (List String) → List Loose → Prop) : Prop :=
  (∃ own' c', Q own' c' ∧ ∀ base image t,
    x base (amid structs own c base image t) = .ok () (amid structs own' c' base image t)) ∨
  ∃ e, ∀ base image t, ∃ g, x base (amid structs own c base image t) = .error e g

namespace Uniform

variable {structs : Table String StructDef} {own : List (List String)} {c : List Loose}
  {Q : List (List String) → List Loose → Prop} {x y : Offsets → Gen Unit}

protected theorem pure (h : Q own c) : Uniform structs own c (fun _ => pure ()) Q :=
  .inl ⟨own, c, h, fun _ _ _ => rfl⟩

protected theorem throw (e : Failure) : Uniform structs own c (fun _ => throw e) Q :=
  .inr ⟨e, fun _ _ _ => ⟨_, rfl⟩⟩

theorem seq (h : Uniform structs own c x fun own' c' => Uniform structs own' c' y Q) :
    Uniform structs own c (fun base => do x base; y base) Q := by
  obtain ⟨own₁, c₁, hy, hx⟩ | ⟨e, hx⟩ := h
  · obtain ⟨own₂, c₂, hQ, hy⟩ | ⟨e, hy⟩ := hy
    · refine .inl ⟨own₂, c₂, hQ, fun base image t => ?_⟩
      simp only [bind, EStateM.bind, hx, hy]
    · refine .inr ⟨e, fun base image t => ?_⟩
      obtain ⟨g, hg⟩ := hy base image t
      exact ⟨g, by simp only [bind, EStateM.bind, hx, hg]⟩
  · refine .inr ⟨e, fun base image t => ?_⟩
    obtain ⟨g, hg⟩ := hx base image t
    exact ⟨g, by simp only [bind, EStateM.bind, hg]⟩

theorem congr (h : Uniform structs own c x Q) (hxy : ∀ base image t,
    y base (amid structs own c base image t) = x base (amid structs own c base image t)) :
    Uniform structs own c y Q := by
  simpa only [Uniform, hxy] using h

theorem emit (l : Loose) (h : Q own (c ++ [l])) :
    Uniform structs own c (fun base => Generator.emit (l.link base)) Q := by
  refine .inl ⟨own, c ++ [l], h, fun base image t => ?_⟩
  rw [amid, amid, link_concat]
  rfl

theorem emit_loose {l : Loose} (hl : ∀ o, l ≠ .op o)
    (h : ∀ c', Prolongs c c' → Past c c' → Q own c') :
    Uniform structs own c (fun base => Generator.emit (l.link base)) Q :=
  emit l (h _ (.push (.refl c) (Loose.inline_of_loose hl)) (.concat (Nat.le_refl _) (hl .ret)))

theorem patch {i : Nat} {op : Op} (h : Q own (c.set i (.op op))) :
    Uniform structs own c (fun _ => Generator.patch i op) Q := by
  refine .inl ⟨own, c.set i (.op op), h, fun base image t => ?_⟩
  rw [amid, amid, link_set]
  rfl

theorem here {f : Offsets → Nat → Gen Unit}
    (h : Uniform structs own c (fun base => f base c.length) Q) :
    Uniform structs own c (fun base => Generator.here >>= f base) Q := by
  refine h.congr fun base image t => ?_
  rw [← size_link base c]
  rfl

theorem offset {name : String} {f : Offsets → Value → Gen Unit}
    (h : Uniform structs own c (fun base => f base ((Offsets.place own name).operand base)) Q) :
    Uniform structs own c (fun base => Generator.offset name >>= f base) Q := by
  refine h.congr fun base image t => ?_
  simp only [bind, EStateM.bind, offset_eq, amid, Offsets.operand_append]

theorem enter (h : Q ([] :: own) c) :
    Uniform structs own c (fun _ => onOffsets Offsets.enter) Q :=
  .inl ⟨[] :: own, c, h, fun _ _ _ => rfl⟩

theorem leave {block : List String} (h : Q own c) :
    Uniform structs (block :: own) c (fun _ => onOffsets Offsets.leave) Q :=
  .inl ⟨own, c, h, fun _ _ _ => rfl⟩

theorem declare {block : List String} {name : String} (h : Q ((block ++ [name]) :: own) c) :
    Uniform structs (block :: own) c (fun _ => onOffsets (·.declare name)) Q :=
  .inl ⟨(block ++ [name]) :: own, c, h, fun _ _ _ => rfl⟩

theorem need {α : Type} {o : Option α} {f : Offsets → α → Gen Unit}
    (h : ∀ a, o = some a → Uniform structs own c (fun base => f base a) Q) :
    Uniform structs own c (fun base => StackLang.need o >>= f base) Q := by
  cases o with
  | some a => exact h a rfl
  | none => exact .inr ⟨_, fun _ _ _ => ⟨_, rfl⟩⟩

end Uniform
end Generator
end StackLang
