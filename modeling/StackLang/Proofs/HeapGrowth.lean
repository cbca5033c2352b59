import StackLang.Proofs.Calls

namespace StackLang

/-- A position that is not below zero. -/
theorem Value.position_nonneg {n : Value} {k : Int} (hk : n.position = .ok k)
    (h : n.less (.int 0) = .ok false) : 0 ≤ k := by
  have hless : n.less (.int 0) = Value.less (.int k) (.int 0) := by
    cases n <;> cases hk <;> rfl
  rw [hless, Value.less_int] at h
  simpa using h

/-- Whether an object is a struct or an array, and how long an array is. -/
inductive Object.Kind where
  | record
  | array (length : Nat)

def Object.kind? : Object → Option Object.Kind
  | record _ => some .record
  | array items => some (.array items.size)
  | missing => none

def Object.fields? : Object → Option Fields
  | record fields => some fields
  | _ => none

def Object.items? : Object → Option (Array Value)
  | array items => some items
  | _ => none

namespace Heap

/-- The kind of the object at a place. -/
def kind? (h : Heap) (i : Nat) : Option Object.Kind := h.objects[i]?.bind Object.kind?

/-- A heap has all places of another, and objects of the same kind wherever that has some. -/
structure Extends (h h' : Heap) : Prop where
  size : h.objects.size ≤ h'.objects.size
  kind : ∀ i k, h.kind? i = some k → h'.kind? i = some k

variable {h h' h'' : Heap} {V : Value → Prop}

theorem Extends.refl (h : Heap) : h.Extends h := ⟨Nat.le_refl _, fun _ _ hk => hk⟩

theorem Extends.trans (h₁ : h.Extends h') (h₂ : h'.Extends h'') : h.Extends h'' :=
  ⟨Nat.le_trans h₁.size h₂.size, fun i k hk => h₂.kind i k (h₁.kind i k hk)⟩

theorem kind?_alloc (h : Heap) (o : Object) (i : Nat) :
    (h.alloc o).kind? i = if i = h.objects.size then o.kind? else h.kind? i := by
  by_cases hi : i = h.objects.size
  · subst hi
    simp [kind?, alloc]
  · simp [kind?, alloc, Array.getElem?_push, hi]

theorem kind?_replace {owner : Value} {o o' : Object} (ho : h.object? owner = some o)
    (hkind : o'.kind? = o.kind?) (i : Nat) : (h.replace owner o').kind? i = h.kind? i := by
  obtain ⟨p, hp, hget⟩ := Option.bind_eq_some_iff.1 ho
  have hlt : p < h.objects.size := (Array.getElem?_eq_some_iff.1 hget).1
  have hset : h.replace owner o' = ⟨h.objects.setIfInBounds p o'⟩ := by rw [replace, hp]
  by_cases hi : p = i
  · subst hi
    simp only [hset, kind?, hget, Array.getElem?_setIfInBounds_self_of_lt hlt, Option.bind_some, hkind]
  · simp [hset, kind?, Array.getElem?_setIfInBounds_ne hi]

theorem size_replace (h : Heap) (owner : Value) (o : Object) :
    (h.replace owner o).objects.size = h.objects.size := by
  unfold replace
  split <;> simp

theorem extends_replace {owner : Value} {o o' : Object} (ho : h.object? owner = some o)
    (hkind : o'.kind? = o.kind?) : h.Extends (h.replace owner o') :=
  ⟨Nat.le_of_eq (size_replace h owner o').symm, fun i _ hk => (kind?_replace ho hkind i).trans hk⟩

theorem Next.extends (hnext : h.Next V h') : h.Extends h' := by
  cases hnext with
  | alloc h ho =>
    refine ⟨by simp [Heap.alloc], fun i k hk => ?_⟩
    have hi : i ≠ h.objects.size := by
      rintro rfl
      simp [kind?] at hk
    rw [kind?_alloc, if_neg hi, hk]
  | fill h ho =>
    refine ⟨by simp [Heap.alloc], fun i k hk => ?_⟩
    rw [kind?_alloc] at hk ⊢
    split at hk
    · cases hk
    · rw [if_neg ‹_›, hk]
  | record hfields _ => exact extends_replace (object_of_record hfields) rfl
  | array hitems hsize _ =>
    exact extends_replace (object_of_array hitems) (by simp [Object.kind?, hsize])

/-- The objects of one kind, with their numbers. -/
def select {α : Type} (p : Object → Option α) (h : Heap) : List (Nat × α) :=
  h.numbered.filterMap fun e => (p e.2).map (e.1, ·)

theorem records_eq (h : Heap) : h.records = h.select Object.fields? := by
  unfold records select
  congr 1
  funext e
  obtain ⟨id, _ | _ | _⟩ := e <;> rfl

theorem arrays_eq (h : Heap) : h.arrays = h.select Object.items? := by
  unfold arrays select
  congr 1
  funext e
  obtain ⟨id, _ | _ | _⟩ := e <;> rfl

theorem getElem?_numbered (h : Heap) (i : Nat) :
    h.numbered[i]? = h.objects[i]?.map (firstId + i, ·) := by
  simp only [numbered, List.getElem?_map, List.getElem?_zipIdx, Array.getElem?_toList,
    Option.map_map]
  congr 1
  funext o
  simp [Nat.add_comm]

theorem mem_numbered {id : Nat} {o : Object} :
    (id, o) ∈ h.numbered ↔ ∃ i, id = firstId + i ∧ h.objects[i]? = some o := by
  simp only [List.mem_iff_getElem?, getElem?_numbered, Option.map_eq_some_iff, Prod.mk.injEq]
  constructor
  · rintro ⟨i, o', hget, rfl, rfl⟩
    exact ⟨i, rfl, hget⟩
  · rintro ⟨i, rfl, hget⟩
    exact ⟨i, o, hget, rfl, rfl⟩

section Select

variable {α : Type} {p : Object → Option α}

theorem mem_select {id : Nat} {a : α} : (id, a) ∈ h.select p ↔
    ∃ i, id = firstId + i ∧ h.objects[i]?.bind p = some a := by
  simp only [select, List.mem_filterMap, Prod.exists, mem_numbered, Option.map_eq_some_iff,
    Option.bind_eq_some_iff, Prod.mk.injEq]
  constructor
  · rintro ⟨_, o, ⟨i, rfl, hget⟩, a, ha, rfl, rfl⟩
    exact ⟨i, rfl, o, hget, ha⟩
  · rintro ⟨i, rfl, o, hget, ha⟩
    exact ⟨_, o, ⟨i, rfl, hget⟩, a, ha, rfl, rfl⟩

theorem select_increasing (h : Heap) : (h.select p).Pairwise fun a b => a.1 < b.1 := by
  have hnumbered : h.numbered.Pairwise fun a b => a.1 < b.1 := by
    rw [numbered, List.pairwise_map, List.pairwise_iff_getElem]
    intro i j _ _ hij
    simpa using hij
  rw [select, List.pairwise_filterMap]
  refine hnumbered.imp fun {a b} hab a' ha b' hb => ?_
  obtain ⟨_, -, rfl⟩ := Option.map_eq_some_iff.1 ha
  obtain ⟨_, -, rfl⟩ := Option.map_eq_some_iff.1 hb
  exact hab

end Select

theorem mem_records {id : Nat} {fields : Fields} :
    (id, fields) ∈ h.records ↔ ∃ i, id = firstId + i ∧ h.objects[i]? = some (.record fields) := by
  have hfields (o : Object) : o.fields? = some fields ↔ o = .record fields := by
    cases o <;> simp [Object.fields?]
  simp only [records_eq, mem_select, Option.bind_eq_some_iff, hfields, exists_eq_right]

theorem mem_arrays {id : Nat} {items : Array Value} :
    (id, items) ∈ h.arrays ↔ ∃ i, id = firstId + i ∧ h.objects[i]? = some (.array items) := by
  have hitems (o : Object) : o.items? = some items ↔ o = .array items := by
    cases o <;> simp [Object.items?]
  simp only [arrays_eq, mem_select, Option.bind_eq_some_iff, hitems, exists_eq_right]

theorem mem_records_iff {id : Nat} : (∃ fields, (id, fields) ∈ h.records) ↔
    ∃ i, id = firstId + i ∧ h.kind? i = some .record := by
  simp only [mem_records]
  constructor
  · rintro ⟨fields, i, rfl, hget⟩
    exact ⟨i, rfl, by rw [kind?, hget]; rfl⟩
  · rintro ⟨i, rfl, hkind⟩
    obtain ⟨o, hget, ho⟩ := Option.bind_eq_some_iff.1 hkind
    cases o <;> cases ho
    exact ⟨_, i, rfl, hget⟩

theorem mem_arrays_iff {id n : Nat} : (∃ items, (id, items) ∈ h.arrays ∧ items.size = n) ↔
    ∃ i, id = firstId + i ∧ h.kind? i = some (.array n) := by
  simp only [mem_arrays]
  constructor
  · rintro ⟨items, ⟨i, rfl, hget⟩, rfl⟩
    exact ⟨i, rfl, by rw [kind?, hget]; rfl⟩
  · rintro ⟨i, rfl, hkind⟩
    obtain ⟨o, hget, ho⟩ := Option.bind_eq_some_iff.1 hkind
    cases o <;> cases ho
    exact ⟨_, ⟨i, rfl, hget⟩, rfl⟩

theorem lt_of_kind? {i : Nat} {k : Object.Kind} (hk : h.kind? i = some k) : i < h.objects.size := by
  obtain ⟨o, hget, -⟩ := Option.bind_eq_some_iff.1 hk
  exact (Array.getElem?_eq_some_iff.1 hget).1

end Heap

namespace Machine

theorem extends_roaming (h : Heap) :
    Roaming (fun _ => True) (fun _ => True) fun m => h.Extends m.heap where
  operands _ _ _ _ := trivial
  locals _ _ _ _ := trivial
  work hm _ _ _ := hm
  talk _ _ hm := hm
  objects _ o _ := by cases o <;> simp [Object.All]
  alter hm hnext := hm.trans hnext.extends
  code _ _ := trivial
  jump _ hm _ := hm
  enter hm _ := hm
  pass hm _ _ := hm
  leave hm := hm

theorem extends_of_reaches {images : Image → Prop} {m m' : Machine} (h : Reaches images m m') :
    m.heap.Extends m'.heap :=
  (extends_roaming m.heap).reaches admits_all (fun _ _ _ _ _ => trivial)
    (fun _ _ _ _ _ => trivial) h (.refl _)

section Allocation

variable {image : Image} {m m' : Machine} {f : Frame} {rest : List Frame} {comment : String}

theorem exec_allocStruct (hm : m.frames = f :: rest)
    (h : exec image ⟨.allocStruct, comment⟩ m = .ok () m') :
    m' = { m with
      heap := m.heap.alloc (.record ⟨[]⟩)
      frames := { f with stack := .int m.heap.nextId :: f.stack } :: rest } := by
  obtain ⟨heap, frames, input, output⟩ := m
  cases hm
  cases h
  rfl

theorem exec_allocArray (hm : m.frames = f :: rest)
    (h : exec image ⟨.allocArray, comment⟩ m = .ok () m') :
    ∃ (n : Value) (stack : List Value) (k : Nat), f.stack = n :: stack ∧ n.position = .ok k ∧
      m' = { m with
      heap := m.heap.alloc (.array (Array.replicate k Value.null))
      frames := { f with stack := .int m.heap.nextId :: stack } :: rest } := by
  obtain ⟨heap, frames, input, output⟩ := m
  cases hm
  obtain ⟨id, m₁, halloc, h⟩ := bind_eq_ok.1 h
  cases halloc
  obtain ⟨t, pc, vars, _ | ⟨n, stack⟩⟩ := f
  · cases h
  · obtain ⟨_, m₂, hpop, h⟩ := bind_eq_ok.1 h
    cases hpop
    split at h
    · cases h
    · obtain ⟨negative, m₃, hless, h⟩ := bind_eq_ok.1 h
      cases hnegative : n.less (.int 0) with
      | error c =>
        rw [hnegative] at hless
        cases hless
      | ok b =>
        rw [hnegative] at hless
        cases hless
        cases negative with
        | true => cases h
        | false =>
          cases hk : n.position with
          | error c =>
            rw [hk] at h
            cases h
          | ok k =>
            rw [hk] at h
            cases h
            obtain ⟨k, rfl⟩ := Int.eq_ofNat_of_zero_le (Value.position_nonneg hk hnegative)
            refine ⟨n, stack, k, rfl, hk, ?_⟩
            exact congrArg (fun h => Machine.mk h _ input output) (Heap.fill_alloc heap _)

end Allocation

end Machine
end StackLang
