import StackLang.Proofs.Places
import StackLang.Proofs.Variables

namespace StackLang

inductive Location where
  | var (offset : Nat)
  | item (place index : Nat)
  | field (place : Nat) (name : Key)
  deriving Repr, DecidableEq

def Location.inHeap : Location → Bool
  | var _ => false
  | item .. | field .. => true

/-- The variables of a call and the heap. -/
structure Memory where
  vars : List Value
  heap : Heap

namespace Memory

def get? (μ : Memory) : Location → Option Value
  | .var k => μ.vars[k]?
  | .item p i =>
    match μ.heap.objects[p]? with
    | some (.array items) => items[i]?
    | _ => none
  | .field p name =>
    match μ.heap.objects[p]? with
    | some (.record fields) => fields.get? name
    | _ => none

/-- Storing a variable moves those from its offset on; an item or a field is replaced. -/
def set (μ : Memory) (x : Value) : Location → Memory
  | .var k => { μ with vars := Machine.insertAt x k μ.vars }
  | .item p i =>
    match μ.heap.objects[p]? with
    | some (.array items) =>
      { μ with heap := ⟨μ.heap.objects.setIfInBounds p (.array (items.setIfInBounds i x))⟩ }
    | _ => μ
  | .field p name =>
    match μ.heap.objects[p]? with
    | some (.record fields) =>
      { μ with heap := ⟨μ.heap.objects.setIfInBounds p (.record (fields.put name x))⟩ }
    | _ => μ

/-- The item of an array at an index, if there is one. -/
def item? (μ : Memory) (owner i : Value) : Option Location := do
  let p ← μ.heap.place? owner
  let j ← i.position.toOption
  match μ.heap.objects[p]? with
  | some (.array items) => if 0 ≤ j ∧ j < items.size then some (.item p j.toNat) else none
  | _ => none

/-- The field of a struct, which need not have a value yet. -/
def field? (μ : Memory) (owner : Value) (name : String) : Option Location := do
  let p ← μ.heap.place? owner
  match μ.heap.objects[p]? with
  | some (.record _) => some (.field p (.ofText name))
  | _ => none

def along? (μ : Memory) (loc : Location) : List String → Option Location
  | [] => some loc
  | name :: l => do μ.along? (← μ.field? (← μ.get? loc) name) l

def passed (μ : Memory) (loc : Location) : List String → List Location
  | [] => []
  | name :: l =>
    loc :: match (μ.get? loc).bind (μ.field? · name) with
      | some next => μ.passed next l
      | none => []

end Memory

/-- A path: a variable, perhaps with the value of an index, and fields. -/
structure Route where
  offset : Nat
  index : Option Value
  fields : List String

namespace Route

def start? (r : Route) (μ : Memory) : Option Location :=
  match r.index with
  | none => if r.offset < μ.vars.length then some (.var r.offset) else none
  | some i => do μ.item? (← μ.vars[r.offset]?) i

def location? (r : Route) (μ : Memory) : Option Location := do
  μ.along? (← r.start? μ) r.fields

/-- The locations that a path reads before its last one. -/
def passed (r : Route) (μ : Memory) : List Location :=
  match r.start? μ with
  | some loc => μ.passed loc r.fields
  | none => []

end Route

namespace Memory

variable {μ : Memory} {x : Value} {loc loc' : Location}

def Has (μ : Memory) : Location → Prop
  | .var k => k < μ.vars.length
  | .item p i => ∃ items, μ.heap.objects[p]? = some (.array items) ∧ i < items.size
  | .field p name => ∃ fields s, μ.heap.objects[p]? = some (.record fields) ∧ name = .ofText s

section Set

theorem set_item {p : Nat} {items : Array Value} (i : Nat) (x : Value)
    (h : μ.heap.objects[p]? = some (.array items)) : μ.set x (.item p i) = { μ with
      heap := ⟨μ.heap.objects.setIfInBounds p (.array (items.setIfInBounds i x))⟩ } := by
  simp only [set, h]

theorem set_field {p : Nat} {fields : Fields} (name : Key) (x : Value)
    (h : μ.heap.objects[p]? = some (.record fields)) : μ.set x (.field p name) = { μ with
      heap := ⟨μ.heap.objects.setIfInBounds p (.record (fields.put name x))⟩ } := by
  simp only [set, h]

theorem kind?_set (h : μ.Has loc) (q : Nat) :
    (μ.set x loc).heap.kind? q = μ.heap.kind? q := by
  cases loc with
  | var k => rfl
  | item p i =>
    obtain ⟨items, hitems, -⟩ := h
    rw [set_item i x hitems, Heap.kind?, Heap.kind?, Array.getElem?_setIfInBounds]
    split
    · rename_i heq
      have hlt := (Array.getElem?_eq_some_iff.1 hitems).1
      rw [if_pos hlt, ← heq, hitems]
      simp [Object.kind?]
    · rfl
  | field p name =>
    obtain ⟨fields, s, hfields, -⟩ := h
    rw [set_field name x hfields, Heap.kind?, Heap.kind?, Array.getElem?_setIfInBounds]
    split
    · rename_i heq
      have hlt := (Array.getElem?_eq_some_iff.1 hfields).1
      rw [if_pos hlt, ← heq, hfields]
      rfl
    · rfl

theorem size_set (μ : Memory) (x : Value) (loc : Location) :
    (μ.set x loc).heap.objects.size = μ.heap.objects.size := by
  cases loc with
  | var k => rfl
  | item p i =>
    simp only [set]
    split <;> simp
  | field p name =>
    simp only [set]
    split <;> simp

theorem field?_eq (μ : Memory) (owner : Value) (name : String) : μ.field? owner name =
    (μ.heap.place? owner).bind fun p => match μ.heap.kind? p with
      | some .record => some (.field p (.ofText name))
      | _ => none := by
  simp only [field?, bind]
  congr 1
  funext p
  rw [Heap.kind?]
  rcases μ.heap.objects[p]? with _ | _ | _ | _ <;> rfl

theorem item?_eq (μ : Memory) (owner i : Value) : μ.item? owner i =
    (μ.heap.place? owner).bind fun p => i.position.toOption.bind fun j =>
      match μ.heap.kind? p with
      | some (.array n) => if 0 ≤ j ∧ j < n then some (.item p j.toNat) else none
      | _ => none := by
  simp only [item?, bind]
  congr 1
  funext p
  congr 1
  funext j
  rw [Heap.kind?]
  rcases μ.heap.objects[p]? with _ | _ | _ | _ <;> rfl

theorem field?_set (h : μ.Has loc) (owner : Value) (name : String) :
    (μ.set x loc).field? owner name = μ.field? owner name := by
  simp only [field?_eq, Heap.place?_congr (size_set μ x loc), kind?_set h]

theorem item?_set (h : μ.Has loc) (owner i : Value) :
    (μ.set x loc).item? owner i = μ.item? owner i := by
  simp only [item?_eq, Heap.place?_congr (size_set μ x loc), kind?_set h]

theorem getElem?_replaced {p : Nat} {o : Object} (h : μ.heap.objects[p]? = some o) (o' : Object) :
    (μ.heap.objects.setIfInBounds p o')[p]? = some o' :=
  Array.getElem?_setIfInBounds_self_of_lt (Array.getElem?_eq_some_iff.1 h).1

theorem get?_set (h : μ.Has loc) : (μ.set x loc).get? loc = some x := by
  cases loc with
  | var k => exact Machine.insertAt_same (Nat.le_of_lt h)
  | item p i =>
    obtain ⟨items, hitems, hi⟩ := h
    rw [set_item i x hitems]
    simp only [get?, getElem?_replaced hitems]
    exact Array.getElem?_setIfInBounds_self_of_lt hi
  | field p name =>
    obtain ⟨fields, s, hfields, rfl⟩ := h
    rw [set_field _ x hfields]
    simp only [get?, getElem?_replaced hfields, Fields.get?_put, if_true]

theorem get?_set_of_ne (h : μ.Has loc) (hne : loc' ≠ loc) (hheap : loc'.inHeap ∨ loc.inHeap) :
    (μ.set x loc).get? loc' = μ.get? loc' := by
  cases loc with
  | var k =>
    cases loc' with
    | var => simp [Location.inHeap] at hheap
    | item | field => rfl
  | item p i =>
    obtain ⟨items, hitems, -⟩ := h
    rw [set_item i x hitems]
    cases loc' with
    | var => rfl
    | item q j =>
      by_cases hq : p = q
      · have hj : i ≠ j := by
          rintro rfl
          exact hne (by rw [hq])
        simp only [get?, ← hq, hitems, getElem?_replaced hitems,
          Array.getElem?_setIfInBounds_ne hj]
      · simp only [get?, Array.getElem?_setIfInBounds_ne hq]
    | field q name =>
      by_cases hq : p = q
      · simp only [get?, ← hq, hitems, getElem?_replaced hitems]
      · simp only [get?, Array.getElem?_setIfInBounds_ne hq]
  | field p name =>
    obtain ⟨fields, s, hfields, rfl⟩ := h
    rw [set_field _ x hfields]
    cases loc' with
    | var => rfl
    | item q j =>
      by_cases hq : p = q
      · simp only [get?, ← hq, hfields, getElem?_replaced hfields]
      · simp only [get?, Array.getElem?_setIfInBounds_ne hq]
    | field q name =>
      by_cases hq : p = q
      · have hname : name ≠ .ofText s := by
          rintro rfl
          exact hne (by rw [hq])
        simp only [get?, ← hq, hfields, getElem?_replaced hfields, Fields.get?_put, if_neg hname]
      · simp only [get?, Array.getElem?_setIfInBounds_ne hq]

theorem vars_set (h : loc.inHeap) : (μ.set x loc).vars = μ.vars := by
  cases loc with
  | var => cases h
  | item p i =>
    simp only [set]
    split <;> rfl
  | field p name =>
    simp only [set]
    split <;> rfl

end Set

section Along

theorem has_of_field? {owner : Value} {name : String} (h : μ.field? owner name = some loc) :
    μ.Has loc ∧ loc.inHeap := by
  obtain ⟨p, -, h⟩ := Option.bind_eq_some_iff.1 h
  split at h
  · rename_i fields hfields
    cases h
    exact ⟨⟨fields, name, hfields, rfl⟩, rfl⟩
  · cases h

theorem has_of_item? {owner i : Value} (h : μ.item? owner i = some loc) :
    μ.Has loc ∧ loc.inHeap := by
  obtain ⟨p, -, h⟩ := Option.bind_eq_some_iff.1 h
  obtain ⟨j, -, h⟩ := Option.bind_eq_some_iff.1 h
  split at h
  · rename_i items hitems
    split at h
    · cases h
      exact ⟨⟨items, hitems, by omega⟩, rfl⟩
    · cases h
  · cases h

theorem record_of_field? {owner : Value} {name : String} (h : μ.field? owner name = some loc) :
    ∃ fields, μ.heap.record? owner = some fields ∧ μ.get? loc = fields.get? (.ofText name) ∧
      ∀ x, μ.set x loc =
        { μ with heap := μ.heap.replace owner (.record (fields.put (.ofText name) x)) } := by
  obtain ⟨p, hp, h⟩ := Option.bind_eq_some_iff.1 h
  split at h
  · rename_i fields hfields
    cases h
    refine ⟨fields, ?_, by simp only [get?, hfields], fun x => ?_⟩
    · simp only [Heap.record?, Heap.object?, hp, bind, Option.bind_some, hfields]
    · rw [set_field _ x hfields, Heap.replace_eq hp]
  · cases h

theorem array_of_item? {owner i : Value} (h : μ.item? owner i = some loc) :
    ∃ (items : Array Value) (j : Nat), μ.heap.array? owner = some items ∧ i.position = .ok j ∧
      j < items.size ∧ μ.get? loc = items[j]? ∧
      ∀ x, μ.set x loc =
        { μ with heap := μ.heap.replace owner (.array (items.setIfInBounds j x)) } := by
  obtain ⟨p, hp, h⟩ := Option.bind_eq_some_iff.1 h
  obtain ⟨j, hj, h⟩ := Option.bind_eq_some_iff.1 h
  split at h
  · rename_i items hitems
    split at h
    · rename_i hrange
      cases h
      obtain ⟨n, rfl⟩ := Int.eq_ofNat_of_zero_le hrange.1
      refine ⟨items, n, ?_, ?_, by omega, by simp only [get?, hitems]; rfl, fun x => ?_⟩
      · simp only [Heap.array?, Heap.object?, hp, bind, Option.bind_some, hitems]
      · cases hi : i.position with
        | error e =>
          rw [hi] at hj
          cases hj
        | ok k =>
          rw [hi] at hj
          cases hj
          rfl
      · rw [set_item _ x hitems, Heap.replace_eq hp]
        rfl
    · cases h
  · cases h

theorem along?_cons {name : String} {l : List String} : μ.along? loc (name :: l) = some loc' ↔
    ∃ v next, μ.get? loc = some v ∧ μ.field? v name = some next ∧ μ.along? next l = some loc' := by
  simp only [along?, bind, Option.bind_eq_some_iff]
  grind

theorem exists_of_along? {start : Location} {l : List String} {w : Value}
    (hl : μ.along? start l = some loc) (hw : μ.get? loc = some w) :
    ∃ v, μ.get? start = some v := by
  cases l with
  | nil =>
    cases hl
    exact ⟨w, hw⟩
  | cons name l =>
    obtain ⟨v, -, hv, -⟩ := along?_cons.1 hl
    exact ⟨v, hv⟩

theorem along?_concat {start : Location} {name : String} {l : List String} :
    μ.along? start (l ++ [name]) = some loc ↔ ∃ mid owner, μ.along? start l = some mid ∧
      μ.get? mid = some owner ∧ μ.field? owner name = some loc := by
  induction l generalizing start with
  | nil => simp [along?, Option.bind_eq_some_iff]
  | cons s l ih =>
    rw [List.cons_append, along?_cons]
    simp only [ih, along?_cons]
    grind

theorem along?_set {start : Location} {l : List String} (h : μ.Has loc) (hheap : loc.inHeap)
    (hpassed : loc ∉ μ.passed start l) (hl : μ.along? start l = some loc') :
    (μ.set x loc).along? start l = some loc' := by
  induction l generalizing start with
  | nil => exact hl
  | cons name l ih =>
    obtain ⟨v, next, hv, hnext, hl⟩ := along?_cons.1 hl
    have hstep : (μ.get? start).bind (μ.field? · name) = some next := by
      rw [hv, Option.bind_some, hnext]
    simp only [passed, hstep, List.mem_cons, not_or] at hpassed
    refine along?_cons.2 ⟨v, next, ?_, ?_, ih hpassed.2 hl⟩
    · rw [get?_set_of_ne h (Ne.symm hpassed.1) (.inr hheap), hv]
    · rw [field?_set h, hnext]

theorem has_of_along? {start : Location} {l : List String} (h : μ.Has start)
    (hl : μ.along? start l = some loc) : μ.Has loc ∧ (l ≠ [] → loc.inHeap) := by
  induction l generalizing start with
  | nil =>
    cases hl
    exact ⟨h, fun hne => absurd rfl hne⟩
  | cons name l ih =>
    obtain ⟨v, next, -, hnext, hl⟩ := along?_cons.1 hl
    obtain ⟨hhas, hheap⟩ := has_of_field? hnext
    cases l with
    | nil =>
      cases hl
      exact ⟨hhas, fun _ => hheap⟩
    | cons name' l =>
      obtain ⟨hloc, hloc'⟩ := ih hhas hl
      exact ⟨hloc, fun _ => hloc' (List.cons_ne_nil _ _)⟩

end Along

end Memory

namespace Route

variable {r : Route} {μ : Memory} {loc : Location} {x : Value}

theorem has_of_start? (h : r.start? μ = some loc) :
    μ.Has loc ∧ (r.index.isSome → loc.inHeap) := by
  unfold start? at h
  split at h
  · split at h
    · cases h
      rename_i hindex hlt
      exact ⟨hlt, fun hsome => by rw [hindex] at hsome; cases hsome⟩
    · cases h
  · obtain ⟨owner, -, h⟩ := Option.bind_eq_some_iff.1 h
    obtain ⟨hhas, hheap⟩ := Memory.has_of_item? h
    exact ⟨hhas, fun _ => hheap⟩

theorem has_of_location? (h : r.location? μ = some loc) :
    μ.Has loc ∧ (r.index.isSome ∨ r.fields ≠ [] → loc.inHeap) := by
  obtain ⟨start, hstart, h⟩ := Option.bind_eq_some_iff.1 h
  obtain ⟨hhas, hheap⟩ := has_of_start? hstart
  obtain ⟨hloc, hloc'⟩ := Memory.has_of_along? hhas h
  refine ⟨hloc, fun hr => ?_⟩
  by_cases hfields : r.fields = []
  · rw [hfields] at h
    cases h
    exact hheap (hr.resolve_right fun hne => hne hfields)
  · exact hloc' hfields

theorem location?_set (h : r.location? μ = some loc) (hpassed : loc ∉ r.passed μ) :
    r.location? (μ.set x loc) = some loc := by
  obtain ⟨hhas, hheap⟩ := has_of_location? h
  obtain ⟨start, hstart, halong⟩ := Option.bind_eq_some_iff.1 h
  by_cases hloc : loc.inHeap
  · have hstart' : r.start? (μ.set x loc) = some start := by
      rw [← hstart, start?, start?, Memory.vars_set hloc]
      simp only [Memory.item?_set hhas]
    simp only [passed, hstart] at hpassed
    exact Option.bind_eq_some_iff.2 ⟨start, hstart', Memory.along?_set hhas hloc hpassed halong⟩
  · -- The path is a variable alone.
    obtain ⟨offset, index, fields⟩ := r
    obtain rfl : index = none := by
      cases index with
      | none => rfl
      | some i => exact absurd (hheap (.inl rfl)) hloc
    obtain rfl : fields = [] := by
      by_contra hne
      exact hloc (hheap (.inr hne))
    cases halong
    simp only [start?] at hstart
    split at hstart
    · rename_i hlt
      cases hstart
      have hlt' : offset < (μ.set x (.var offset)).vars.length := by
        rw [Memory.set, Machine.length_insertAt]
        omega
      simp only [location?, start?, if_pos hlt']
      rfl
    · cases hstart

end Route

end StackLang
