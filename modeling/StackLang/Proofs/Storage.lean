import Mathlib.Data.List.Nodup
import StackLang.Proofs.Places

namespace StackLang

namespace Double

def withSign (negative : Bool) (n : Nat) : Int := if negative then -n else n

theorem withSign_mul (negative : Bool) (n k : Nat) :
    withSign negative (n * k) = withSign negative n * k := by
  cases negative <;> simp [withSign, Int.neg_mul]

theorem withSign_eq_mul {negative : Bool} {m k : Nat} {i : Int} (hk : 0 < k) :
    i * k = withSign negative m ↔ m % k = 0 ∧ withSign negative (m / k) = i := by
  have hk' : (k : Int) ≠ 0 := by omega
  constructor
  · intro h
    have hdvd : k ∣ m := by
      have hint : (k : Int) ∣ withSign negative m := ⟨i, by rw [← h, Int.mul_comm]⟩
      cases negative with
      | false => exact Int.natCast_dvd_natCast.1 hint
      | true => exact Int.natCast_dvd_natCast.1 (Int.dvd_neg.1 hint)
    obtain ⟨q, rfl⟩ := hdvd
    rw [Nat.mul_comm, withSign_mul] at h
    refine ⟨Nat.mul_mod_right k q, ?_⟩
    rw [Nat.mul_div_cancel_left q hk]
    exact (Int.eq_of_mul_eq_mul_right hk' h).symm
  · rintro ⟨hmod, rfl⟩
    rw [← withSign_mul, Nat.div_mul_cancel (Nat.dvd_of_mod_eq_zero hmod)]

theorem scaled_natAbs (i unit : Int) :
    scaled (i < 0) i.natAbs 0 unit = i * Nat.pow 2 (-unit).toNat := by
  have hi : withSign (i < 0) i.natAbs = i := by
    by_cases hneg : i < 0
    · rw [withSign, if_pos (decide_eq_true hneg)]
      omega
    · rw [withSign, if_neg (by simpa using hneg)]
      omega
  rw [scaled, Int.zero_sub]
  exact (withSign_mul _ _ _).trans (by rw [hi])

theorem compare_exactly (i : Int) (d : Double) :
    (exactly i).compare d = some .eq ↔ d.toInt? = some i := by
  cases d with
  | nan => simp [compare, exactly, toInt?]
  | infinite s => cases s <;> simp [compare, exactly, toInt?]
  | finite s m e =>
    have hwhole : (finite s m e).toInt? = some i ↔
        m * Nat.pow 2 e.toNat % Nat.pow 2 (-e).toNat = 0 ∧
          withSign s (m * Nat.pow 2 e.toNat / Nat.pow 2 (-e).toNat) = i := by
      have hdef : (finite s m e).toInt? =
          if m * Nat.pow 2 e.toNat % Nat.pow 2 (-e).toNat = 0 then
            some (withSign s (m * Nat.pow 2 e.toNat / Nat.pow 2 (-e).toNat)) else none := rfl
      rw [hdef, Option.ite_none_right_eq_some, Option.some.injEq]
    have hsame : (exactly i).compare (finite s m e) = some .eq ↔
        i * Nat.pow 2 (-e).toNat = withSign s (m * Nat.pow 2 e.toNat) := by
      have hunit : (-min 0 e).toNat = (-e).toNat ∧ (e - min 0 e).toNat = e.toNat := by omega
      simp only [compare, exactly, scaled_natAbs, Option.some.injEq, Int.compare_eq_eq, hunit.1]
      rw [scaled, hunit.2]
      rfl
    rw [hsame, hwhole]
    exact withSign_eq_mul (Nat.pow_pos (by decide))

end Double

namespace Value

theorem int_same (i : Int) (v : Value) : same (int i) v = decide (v.key? = some i) := by
  cases v with
  | absent | text => simp [same, key?, number?]
  | bool b =>
    refine (same_int i (if b then 1 else 0)).trans (decide_eq_decide.2 ?_)
    rw [key?, number?, Option.some.injEq, eq_comm]
  | int j =>
    refine (same_int i j).trans (decide_eq_decide.2 ?_)
    rw [key?, number?, Option.some.injEq, eq_comm]
  | double d =>
    rw [Bool.eq_iff_iff, decide_eq_true_iff]
    exact beq_iff_eq.trans (Double.compare_exactly i d)

end Value

/-- What a machine keeps of its objects: the structs and the arrays, each under its number, and the
number for the next one. -/
structure Store where
  structs : Table Key Fields
  arrays : Table Key (Array Value)
  nextId : Int

section Tabled

variable {α : Type} {l : List (Nat × α)} {v : Value} {id : Nat} {a : α}

/-- A table of numbered objects. -/
def tabled (l : List (Nat × α)) : Table Key α := ⟨l.map fun e => (⟨.int e.1⟩, e.2)⟩

theorem beq_key (id : Nat) (v : Value) :
    ((⟨.int id⟩ : Key) == ⟨v⟩) = decide (v.key? = some (id : Int)) := Value.int_same id v

theorem get?_tabled (hl : l.Pairwise fun a b => a.1 < b.1) :
    (tabled l).get? ⟨v⟩ = some a ↔ ∃ id : Nat, v.key? = some (id : Int) ∧ (id, a) ∈ l := by
  have hget : (tabled l).get? ⟨v⟩ =
      (l.find? fun e => decide (v.key? = some (e.1 : Int))).map Prod.snd := by
    simp only [Table.get?, tabled, List.find?_map, Option.map_map, Function.comp_def, beq_key]
  rw [hget, Option.map_eq_some_iff]
  constructor
  · rintro ⟨⟨id, a⟩, hfind, rfl⟩
    exact ⟨id, by simpa using List.find?_some hfind, List.mem_of_find?_eq_some hfind⟩
  · rintro ⟨id, hv, hmem⟩
    obtain ⟨e, he⟩ := Option.isSome_iff_exists.1
      (List.find?_isSome (p := fun e : Nat × α => decide (v.key? = some (e.1 : Int))).2
        ⟨_, hmem, decide_eq_true hv⟩)
    have hid : e.1 = id := by
      have hkey : (id : Int) = e.1 := by simpa [hv] using List.find?_some he
      omega
    -- numbers increase, so there is one object for each
    have hnodup : (l.map Prod.fst).Nodup := by
      rw [List.Nodup, List.pairwise_map]
      exact hl.imp fun h => Nat.ne_of_lt h
    refine ⟨e, he, ?_⟩
    exact congrArg Prod.snd (List.inj_on_of_nodup_map hnodup (List.mem_of_find?_eq_some he) hmem hid)

theorem contains_tabled : (tabled l).contains ⟨v⟩ ↔
    ∃ id : Nat, v.key? = some (id : Int) ∧ id ∈ l.map Prod.fst := by
  simp only [Table.contains, tabled, List.any_map, List.any_eq_true, Function.comp_def, beq_key,
    decide_eq_true_eq, List.mem_map]
  constructor
  · rintro ⟨e, he, hv⟩
    exact ⟨e.1, hv, e, he, rfl⟩
  · rintro ⟨_, hv, e, he, rfl⟩
    exact ⟨e, he, hv⟩

theorem put_tabled (hv : v.key? = some (id : Int)) (hid : id ∈ l.map Prod.fst) (a : α) :
    (tabled l).put ⟨v⟩ a = tabled (l.map fun e => if e.1 = id then (e.1, a) else e) := by
  rw [Table.put, if_pos (contains_tabled.2 ⟨id, hv, hid⟩)]
  simp only [tabled, List.map_map, Function.comp_def, beq_key, hv, Option.some.injEq,
    Int.ofNat_inj, decide_eq_true_eq]
  congr 1
  refine List.map_congr_left fun e _ => ?_
  by_cases he : id = e.1
  · rw [if_pos he, if_pos he.symm]
  · rw [if_neg he, if_neg (Ne.symm he)]

theorem put_tabled_new (hid : id ∉ l.map Prod.fst) (a : α) :
    (tabled l).put ⟨.int id⟩ a = tabled (l ++ [(id, a)]) := by
  have hnew : ¬(tabled l).contains ⟨.int id⟩ := by
    rw [contains_tabled]
    rintro ⟨_, hv, hmem⟩
    cases hv
    exact hid hmem
  rw [Table.put, if_neg hnew]
  simp [tabled]

end Tabled

namespace Heap

variable {α : Type} {p : Object → Option α} {h : Heap} {i : Nat} {o o' : Object} {v : Value}

theorem select_alloc (h : Heap) (o : Object) :
    (h.alloc o).select p = h.select p ++ ((p o).map (h.nextId, ·)).toList := by
  have hnumbered : (h.alloc o).numbered = h.numbered ++ [(h.nextId, o)] := by
    simp [numbered, alloc, List.zipIdx_append, nextId]
  rw [select, hnumbered, List.filterMap_append, select]
  cases hp : p o <;> simp [hp]

theorem numbered_replace (hv : h.place? v = some i) (o : Object) :
    (h.replace v o).numbered =
      h.numbered.map fun e => if e.1 = firstId + i then (e.1, o) else e := by
  have hlt := (place?_eq_some.1 hv).2
  refine List.ext_getElem? fun j => ?_
  rw [getElem?_numbered, List.getElem?_map, getElem?_numbered, replace_eq hv,
    Array.getElem?_setIfInBounds]
  by_cases hj : i = j
  · subst hj
    simp [hlt]
  · simp [hj, Ne.symm hj, Function.comp_def]

section Replace

variable (hv : h.place? v = some i) (hi : h.objects[i]? = some o)

include hv hi

theorem select_replace {a b : α} (ho : p o = some a) (ho' : p o' = some b) :
    (h.replace v o').select p =
      (h.select p).map fun e => if e.1 = firstId + i then (e.1, b) else e := by
  rw [select, numbered_replace hv, List.filterMap_map, select, List.map_filterMap]
  refine List.filterMap_congr fun e he => ?_
  obtain ⟨j, hj, hget⟩ := mem_numbered.1 he
  by_cases hij : e.1 = firstId + i
  · obtain rfl : i = j := by omega
    cases hi.symm.trans hget
    simp [hij, ho, ho']
  · cases hp : p e.2 <;> simp [hij, hp]

theorem select_replace_none (ho : p o = none) (o' : Object) (ho' : p o' = none) :
    (h.replace v o').select p = h.select p := by
  rw [select, numbered_replace hv, List.filterMap_map, select]
  refine List.filterMap_congr fun e he => ?_
  obtain ⟨j, hj, hget⟩ := mem_numbered.1 he
  by_cases hij : e.1 = firstId + i
  · obtain rfl : i = j := by omega
    cases hi.symm.trans hget
    simp [hij, ho, ho']
  · simp [hij]

end Replace

theorem nextId_notMem_select (h : Heap) : h.nextId ∉ (h.select p).map Prod.fst := by
  intro hmem
  obtain ⟨⟨id, a⟩, ha, hid⟩ := List.mem_map.1 hmem
  obtain ⟨i, rfl, hget⟩ := mem_select.1 ha
  obtain ⟨o, ho, -⟩ := Option.bind_eq_some_iff.1 hget
  have hlt := (Array.getElem?_eq_some_iff.1 ho).1
  simp only [nextId] at hid
  omega

theorem get?_select (h : Heap) (v : Value) :
    (tabled (h.select p)).get? ⟨v⟩ = (h.object? v).bind p := by
  refine Option.ext fun a => ?_
  rw [get?_tabled h.select_increasing, object?, Option.bind_eq_bind, Option.bind_assoc,
    Option.bind_eq_some_iff]
  simp only [mem_select, place?_eq_some]
  constructor
  · rintro ⟨_, hv, i, rfl, ha⟩
    obtain ⟨o, ho, -⟩ := Option.bind_eq_some_iff.1 ha
    exact ⟨i, ⟨hv, (Array.getElem?_eq_some_iff.1 ho).1⟩, ha⟩
  · rintro ⟨i, ⟨hv, -⟩, ha⟩
    exact ⟨_, hv, i, rfl, ha⟩

theorem put_select (h : Heap) {a : α} (ho : p o = some a) :
    (tabled (h.select p)).put ⟨.int h.nextId⟩ a = tabled ((h.alloc o).select p) := by
  rw [put_tabled_new h.nextId_notMem_select, select_alloc, ho]
  rfl

theorem select_alloc_none (h : Heap) (ho : p o = none) : (h.alloc o).select p = h.select p := by
  rw [select_alloc, ho]
  exact List.append_nil _

theorem put_select_replace {a b : α} (hv : h.object? v = some o) (ho : p o = some a) (o' : Object)
    (ho' : p o' = some b) :
    (tabled (h.select p)).put ⟨v⟩ b = tabled ((h.replace v o').select p) := by
  obtain ⟨i, hi, hget⟩ := Option.bind_eq_some_iff.1 hv
  have hmem : firstId + i ∈ (h.select p).map Prod.fst :=
    List.mem_map.2 ⟨(firstId + i, a), mem_select.2 ⟨i, rfl, by rw [hget]; exact ho⟩, rfl⟩
  rw [put_tabled (place?_eq_some.1 hi).1 hmem, select_replace hi hget ho ho']

end Heap

namespace Store

variable {h h' : Heap} {v : Value} {k : Key}

/-- The store of a heap. A number that was taken for no object is in neither table. -/
def ofHeap (h : Heap) : Store := ⟨tabled h.records, tabled h.arrays, h.nextId⟩

theorem ofHeap_eq (h : Heap) : ofHeap h =
    ⟨tabled (h.select Object.fields?), tabled (h.select Object.items?), h.nextId⟩ := by
  rw [ofHeap, Heap.records_eq, Heap.arrays_eq]

theorem get?_structs (h : Heap) (v : Value) : (ofHeap h).structs.get? ⟨v⟩ = h.record? v := by
  rw [ofHeap_eq, Heap.get?_select, Heap.record?]
  rcases h.object? v with _ | _ | _ | _ <;> rfl

theorem get?_arrays (h : Heap) (v : Value) : (ofHeap h).arrays.get? ⟨v⟩ = h.array? v := by
  rw [ofHeap_eq, Heap.get?_select, Heap.array?]
  rcases h.object? v with _ | _ | _ | _ <;> rfl

theorem nextId_alloc (h : Heap) (o : Object) : ((h.alloc o).nextId : Int) = h.nextId + 1 := by
  simp [Heap.nextId, Heap.alloc, Int.add_assoc]

theorem ofHeap_missing (h : Heap) : ofHeap (h.alloc .missing) =
    { ofHeap h with nextId := h.nextId + 1 } := by
  rw [ofHeap_eq, ofHeap_eq, nextId_alloc, Heap.select_alloc_none h rfl,
    Heap.select_alloc_none h rfl]

theorem ofHeap_record (h : Heap) (fields : Fields) : ofHeap (h.alloc (.record fields)) =
    { ofHeap h with
      structs := (ofHeap h).structs.put ⟨.int h.nextId⟩ fields, nextId := h.nextId + 1 } := by
  have hput := Heap.put_select (p := Object.fields?) h (o := .record fields) rfl
  have hsame := Heap.select_alloc_none (p := Object.items?) h (o := .record fields) rfl
  simp only [ofHeap_eq, nextId_alloc, hput, hsame]

theorem ofHeap_array (h : Heap) (items : Array Value) : ofHeap (h.alloc (.array items)) =
    { ofHeap h with
      arrays := (ofHeap h).arrays.put ⟨.int h.nextId⟩ items, nextId := h.nextId + 1 } := by
  have hput := Heap.put_select (p := Object.items?) h (o := .array items) rfl
  have hsame := Heap.select_alloc_none (p := Object.fields?) h (o := .array items) rfl
  simp only [ofHeap_eq, nextId_alloc, hput, hsame]

theorem nextId_replace (h : Heap) (v : Value) (o : Object) : (h.replace v o).nextId = h.nextId := by
  rw [Heap.nextId, Heap.size_replace, Heap.nextId]

theorem ofHeap_replace_record {fields : Fields} (hv : h.record? v = some fields)
    (fields' : Fields) : ofHeap (h.replace v (.record fields')) =
      { ofHeap h with structs := (ofHeap h).structs.put ⟨v⟩ fields' } := by
  have ho := Heap.object_of_record hv
  obtain ⟨i, hi, hget⟩ := Option.bind_eq_some_iff.1 ho
  have hput := Heap.put_select_replace (p := Object.fields?) ho rfl (.record fields') rfl
  have hsame := Heap.select_replace_none (p := Object.items?) hi hget rfl (.record fields') rfl
  simp only [ofHeap_eq, nextId_replace, hput, hsame]

theorem ofHeap_replace_array {items : Array Value} (hv : h.array? v = some items)
    (items' : Array Value) : ofHeap (h.replace v (.array items')) =
      { ofHeap h with arrays := (ofHeap h).arrays.put ⟨v⟩ items' } := by
  have ho := Heap.object_of_array hv
  obtain ⟨i, hi, hget⟩ := Option.bind_eq_some_iff.1 ho
  have hput := Heap.put_select_replace (p := Object.items?) ho rfl (.array items') rfl
  have hsame := Heap.select_replace_none (p := Object.fields?) hi hget rfl (.array items') rfl
  simp only [ofHeap_eq, nextId_replace, hput, hsame]

/-- The keys of both tables. -/
def keys (s : Store) : List Key := s.structs.keys ++ s.arrays.keys

/-- Objects have different numbers, out of those that were taken. -/
structure Consistent (s : Store) : Prop where
  range : ∀ k ∈ s.keys, ∃ id : Int, k = ⟨.int id⟩ ∧ 2024 ≤ id ∧ id < s.nextId
  nodup : s.keys.Nodup

/-- What a store can become: structs stay structs and arrays stay arrays of their length. -/
structure Enlarged (s s' : Store) : Prop where
  nextId : s.nextId ≤ s'.nextId
  structs : ∀ k ∈ s.structs.keys, k ∈ s'.structs.keys
  arrays : ∀ k items, (k, items) ∈ s.arrays.entries →
    ∃ items', (k, items') ∈ s'.arrays.entries ∧ items'.size = items.size

theorem mem_structs : k ∈ (ofHeap h).structs.keys ↔
    ∃ i : Nat, k = ⟨.int (Heap.firstId + i : Nat)⟩ ∧ h.kind? i = some .record := by
  have hkeys : k ∈ (ofHeap h).structs.keys ↔
      ∃ id : Nat, k = ⟨.int id⟩ ∧ ∃ fields, (id, fields) ∈ h.records := by
    simp only [ofHeap, tabled, Table.keys, List.map_map, List.mem_map, Function.comp, Prod.exists]
    constructor
    · rintro ⟨id, fields, hmem, rfl⟩
      exact ⟨id, rfl, fields, hmem⟩
    · rintro ⟨id, rfl, fields, hmem⟩
      exact ⟨id, fields, hmem, rfl⟩
  simp only [hkeys, Heap.mem_records_iff]
  constructor
  · rintro ⟨_, rfl, i, rfl, hkind⟩
    exact ⟨i, rfl, hkind⟩
  · rintro ⟨i, rfl, hkind⟩
    exact ⟨_, rfl, i, rfl, hkind⟩

theorem mem_arrays {n : Nat} :
    (∃ items, (k, items) ∈ (ofHeap h).arrays.entries ∧ items.size = n) ↔
      ∃ i : Nat, k = ⟨.int (Heap.firstId + i : Nat)⟩ ∧ h.kind? i = some (.array n) := by
  have hentries {items : Array Value} : (k, items) ∈ (ofHeap h).arrays.entries ↔
      ∃ id : Nat, k = ⟨.int id⟩ ∧ (id, items) ∈ h.arrays := by
    simp only [ofHeap, tabled, List.mem_map, Prod.mk.injEq, Prod.exists]
    constructor
    · rintro ⟨id, _, hmem, rfl, rfl⟩
      exact ⟨id, rfl, hmem⟩
    · rintro ⟨id, rfl, hmem⟩
      exact ⟨id, items, hmem, rfl, rfl⟩
  constructor
  · rintro ⟨items, hitems, hsize⟩
    obtain ⟨id, rfl, hmem⟩ := hentries.1 hitems
    obtain ⟨i, rfl, hkind⟩ := Heap.mem_arrays_iff.1 ⟨items, hmem, hsize⟩
    exact ⟨i, rfl, hkind⟩
  · rintro ⟨i, rfl, hkind⟩
    obtain ⟨items, hmem, hsize⟩ := Heap.mem_arrays_iff.2 ⟨i, rfl, hkind⟩
    exact ⟨items, hentries.2 ⟨_, rfl, hmem⟩, hsize⟩

theorem mem_keys (hk : k ∈ (ofHeap h).keys) :
    ∃ i : Nat, k = ⟨.int (Heap.firstId + i : Nat)⟩ ∧ i < h.objects.size := by
  obtain hk | hk := List.mem_append.1 hk
  · obtain ⟨i, rfl, hkind⟩ := mem_structs.1 hk
    exact ⟨i, rfl, Heap.lt_of_kind? hkind⟩
  · obtain ⟨⟨_, items⟩, hitems, rfl⟩ := List.mem_map.1 hk
    obtain ⟨i, rfl, hkind⟩ := mem_arrays.1 ⟨items, hitems, rfl⟩
    exact ⟨i, rfl, Heap.lt_of_kind? hkind⟩

theorem nodup_keys {α : Type} {l : List (Nat × α)} (hl : l.Pairwise fun a b => a.1 < b.1) :
    (tabled l).keys.Nodup := by
  rw [Table.keys, tabled, List.map_map, List.Nodup, List.pairwise_map]
  refine hl.imp fun {a b} hab heq => ?_
  have hid : (a.1 : Int) = b.1 := Value.int.inj (Key.mk.inj heq)
  omega

theorem consistent_ofHeap (h : Heap) : (ofHeap h).Consistent where
  range k hk := by
    obtain ⟨i, rfl, hi⟩ := mem_keys hk
    refine ⟨_, rfl, ?_, ?_⟩
    · simp only [Heap.firstId]
      omega
    · simpa [ofHeap, Heap.nextId] using hi
  nodup := by
    have hstructs : (ofHeap h).structs.keys.Nodup := by
      rw [ofHeap_eq]
      exact nodup_keys h.select_increasing
    have harrays : (ofHeap h).arrays.keys.Nodup := by
      rw [ofHeap_eq]
      exact nodup_keys h.select_increasing
    refine List.nodup_append.2 ⟨hstructs, harrays, ?_⟩
    rintro k hk k' hk' rfl
    obtain ⟨i, rfl, hrecord⟩ := mem_structs.1 hk
    obtain ⟨⟨_, items⟩, hitems, hkey⟩ := List.mem_map.1 hk'
    obtain ⟨j, hj, harray⟩ := mem_arrays.1 ⟨items, hitems, rfl⟩
    have hid := Value.int.inj (Key.mk.inj (hkey.symm.trans hj))
    obtain rfl : i = j := by omega
    cases hrecord.symm.trans harray

theorem enlarged_ofHeap (hext : h.Extends h') : (ofHeap h).Enlarged (ofHeap h') where
  nextId := by
    have hsize := hext.size
    simp only [ofHeap, Heap.nextId]
    omega
  structs k hk := by
    obtain ⟨i, rfl, hkind⟩ := mem_structs.1 hk
    exact mem_structs.2 ⟨i, rfl, hext.kind i _ hkind⟩
  arrays k items hitems := by
    obtain ⟨i, rfl, hkind⟩ := mem_arrays.1 ⟨items, hitems, rfl⟩
    exact mem_arrays.2 ⟨i, rfl, hext.kind i _ hkind⟩

/-- A heap is no larger than any that it grows to, so a new object gets a number that was not given
before. -/
theorem nextId_notMem (hext : h.Extends h') : ⟨.int h'.nextId⟩ ∉ (ofHeap h).keys := by
  intro hmem
  obtain ⟨i, hi, hlt⟩ := mem_keys hmem
  have hid := Value.int.inj (Key.mk.inj hi)
  have hsize := hext.size
  simp only [Heap.nextId] at hid
  omega

end Store

end StackLang
