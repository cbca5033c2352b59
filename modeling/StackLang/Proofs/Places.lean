import StackLang.Proofs.HeapGrowth
import StackLang.Proofs.Operands

namespace StackLang

theorem Value.same_text (v : Value) (name : String) :
    v.same (.text name) = decide (v = .text name) := by
  cases v <;> rfl

theorem Value.text_same (v : Value) (name : String) :
    same (.text name) v = decide (v = .text name) := by
  cases v with
  | text s =>
    rw [decide_eq_decide.2 eq_comm]
    rfl
  | _ => rfl

theorem Value.less_of_position {i : Value} {k : Int} (hi : i.position = .ok k) (j : Int) :
    i.less (.int j) = .ok (decide (k < j)) := by
  cases i <;> cases hi <;> exact less_int _ j

theorem Value.lessEq_of_position {i : Value} {k : Int} (hi : i.position = .ok k) (j : Int) :
    lessEq (.int j) i = .ok (decide (j ≤ k)) := by
  cases i <;> cases hi <;> exact lessEq_int j _

namespace Key

/-- The name of a field in a program. -/
def ofText (name : String) : Key := ⟨.text name⟩

theorem ofText_inj {a b : String} : ofText a = ofText b ↔ a = b := by
  simp [ofText]

theorem beq_ofText (k : Key) (name : String) :
    (k == ofText name) = decide (k = ofText name) := by
  obtain ⟨x⟩ := k
  exact (x.same_text name).trans (decide_eq_decide.2 (by simp [ofText]))

theorem ofText_beq (k : Key) (name : String) :
    (ofText name == k) = decide (k = ofText name) := by
  obtain ⟨x⟩ := k
  exact (x.text_same name).trans (decide_eq_decide.2 (by simp [ofText]))

end Key

namespace Fields

open Key

variable (t : Fields) (name : String) (v : Value)

theorem contains_ofText : t.contains (ofText name) ↔ ofText name ∈ t.keys := by
  simp only [Table.contains, Table.keys, beq_ofText, List.any_eq_true, decide_eq_true_eq,
    List.mem_map]

theorem put_of_contains (h : t.contains (ofText name)) (k : Key) :
    (t.put (ofText name) v).get? k =
      (t.entries.find? (·.1 == k)).map fun e => if e.1 == ofText name then v else e.2 := by
  have hkeys : ((fun e : Key × Value => e.1 == k) ∘
      fun e => if e.1 == ofText name then (e.1, v) else e) = fun e => e.1 == k := by
    funext e
    simp only [Function.comp]
    split <;> rfl
  rw [Table.put, if_pos h, Table.get?, List.find?_map, Option.map_map, hkeys]
  congr 1
  funext e
  simp only [Function.comp]
  split <;> rfl

/-- What is put is found, and all other fields are what they were. -/
theorem get?_put (k : Key) :
    (t.put (ofText name) v).get? k = if k = ofText name then some v else t.get? k := by
  by_cases h : t.contains (ofText name)
  · rw [put_of_contains t name v h]
    split
    · rename_i hk
      obtain ⟨e, he⟩ := Option.isSome_iff_exists.1 (List.find?_isSome.2 (List.any_eq_true.1 h))
      have hname := List.find?_some he
      rw [hk, he, Option.map_some, if_pos hname]
    · rename_i hk
      rw [Table.get?]
      cases hfind : t.entries.find? (·.1 == k) with
      | none => rfl
      | some e =>
        have hname : (e.1 == ofText name) = false := by
          rw [beq_ofText, decide_eq_false_iff_not]
          intro heq
          have hkey := List.find?_some hfind
          rw [heq, ofText_beq, decide_eq_true_eq] at hkey
          exact hk hkey
        rw [Option.map_some, Option.map_some, hname]
        rfl
  · rw [Table.put, if_neg h, Table.get?, Table.get?, List.find?_append]
    split
    · rename_i hk
      have hnone : t.entries.find? (·.1 == k) = none := by
        rw [List.find?_eq_none, hk]
        intro e he hkey
        exact h (List.any_eq_true.2 ⟨e, he, hkey⟩)
      rw [hnone, Option.none_or, List.find?_cons, ofText_beq, decide_eq_true hk]
      rfl
    · rename_i hk
      rw [List.find?_cons, ofText_beq, decide_eq_false hk]
      simp

end Fields

namespace Heap

variable {h : Heap} {v : Value} {i : Nat} {o : Object}

theorem place?_eq_some :
    h.place? v = some i ↔ v.key? = some ((firstId + i : Nat) : Int) ∧ i < h.objects.size := by
  unfold place? nextId
  cases v.key? with
  | none => simp
  | some id =>
    simp only [Option.bind_eq_bind, Option.bind_some, Option.some.injEq]
    split
    · rw [Option.some.injEq]
      omega
    · simp only [false_iff, reduceCtorEq]
      omega

theorem place?_int (hi : i < h.objects.size) : h.place? (.int (firstId + i : Nat)) = some i :=
  place?_eq_some.2 ⟨rfl, hi⟩

theorem place?_congr {h' : Heap} (hsize : h'.objects.size = h.objects.size) (v : Value) :
    h'.place? v = h.place? v := by
  have hnext : h'.nextId = h.nextId := by rw [nextId, hsize, nextId]
  rw [place?, hnext, place?]

theorem replace_eq (hi : h.place? v = some i) :
    h.replace v o = ⟨h.objects.setIfInBounds i o⟩ := by
  simp only [replace, hi]

theorem present_of_object? (ho : h.object? v = some o) : v ≠ .absent := by
  rintro rfl
  cases ho

end Heap

namespace Machine

section Exec

variable {image : Image} {base : Machine} {f : Frame} {below : List Frame}
  {vars stack : List Value} {output : String} {owner v : Value}

theorem found_some {α : Type} {o : Option α} {a : α} (h : o = some a) (m : Machine) :
    found o m = .ok a m := by
  rw [h]
  rfl

theorem exec_setField_working {field : Value} {fields : Fields} (hv : v ≠ .absent)
    (hfields : base.heap.record? owner = some fields) :
    exec image (.plain (.setField field)) (working base f below vars (v :: owner :: stack) output) =
      .ok () (working { base with
        heap := base.heap.replace owner (.record (fields.put ⟨field⟩ v)) } f below vars stack
          output) := by
  have howner : owner ≠ .absent := Heap.present_of_object? (Heap.object_of_record hfields)
  refine bind_eq_ok.2 ⟨v, working base f below vars (owner :: stack) output, rfl, ?_⟩
  rw [if_neg hv]
  refine bind_eq_ok.2 ⟨owner, working base f below vars stack output, rfl, ?_⟩
  rw [if_neg howner]
  exact bind_eq_ok.2 ⟨_, _, rfl, bind_eq_ok.2 ⟨fields, _, found_some hfields _, rfl⟩⟩

theorem exec_getField_working {field : Value} {fields : Fields}
    (hfields : base.heap.record? owner = some fields) (hv : fields.get? ⟨field⟩ = some v) :
    exec image (.plain (.getField field)) (working base f below vars (owner :: stack) output) =
      .ok () (working base f below vars (v :: stack) output) := by
  have howner : owner ≠ .absent := Heap.present_of_object? (Heap.object_of_record hfields)
  refine bind_eq_ok.2 ⟨owner, working base f below vars stack output, rfl, ?_⟩
  rw [if_neg howner]
  exact bind_eq_ok.2 ⟨_, _, rfl, bind_eq_ok.2 ⟨fields, _, found_some hfields _,
    bind_eq_ok.2 ⟨v, _, found_some hv _, rfl⟩⟩⟩

/-- A position among the items of an array is not refused. -/
theorem itemIndex_eq {n k : Nat} {i : Value} (hi : i.position = .ok k) (hk : k < n)
    (e : MachineError) (m : Machine) : itemIndex n i e m = .ok k m := by
  have hupper : Value.lessEq (.int n) i = .ok false := by
    rw [Value.lessEq_of_position hi]
    simp [hk]
  have hlower : i.less (.int 0) = .ok false := by
    rw [Value.less_of_position hi]
    simp
  simp only [itemIndex, hupper, hlower, hi, attempt]
  rfl

theorem exec_setItem_working {items : Array Value} {i : Value} {k : Nat}
    (hitems : base.heap.array? owner = some items) (hi : i.position = .ok k) (hk : k < items.size) :
    exec image (.plain .setItem) (working base f below vars (v :: i :: owner :: stack) output) =
      .ok () (working { base with
        heap := base.heap.replace owner (.array (items.setIfInBounds k v)) } f below vars stack
          output) := by
  have howner : owner ≠ .absent := Heap.present_of_object? (Heap.object_of_array hitems)
  have hpresent : i ≠ .absent := by
    rintro rfl
    cases hi
  refine bind_eq_ok.2 ⟨v, _, rfl, bind_eq_ok.2 ⟨i, _, rfl, bind_eq_ok.2 ⟨owner,
    working base f below vars stack output, rfl, ?_⟩⟩⟩
  rw [if_neg (by simp [howner, hpresent])]
  exact bind_eq_ok.2 ⟨_, _, rfl, bind_eq_ok.2 ⟨items, _, found_some hitems _,
    bind_eq_ok.2 ⟨k, _, itemIndex_eq hi hk _ _, rfl⟩⟩⟩

theorem exec_getItem_working {items : Array Value} {i : Value} {k : Nat}
    (hitems : base.heap.array? owner = some items) (hi : i.position = .ok k)
    (hv : items[k]? = some v) :
    exec image (.plain .getItem) (working base f below vars (i :: owner :: stack) output) =
      .ok () (working base f below vars (v :: stack) output) := by
  have howner : owner ≠ .absent := Heap.present_of_object? (Heap.object_of_array hitems)
  have hpresent : i ≠ .absent := by
    rintro rfl
    cases hi
  have hk : k < items.size := (Array.getElem?_eq_some_iff.1 hv).1
  refine bind_eq_ok.2 ⟨i, _, rfl, bind_eq_ok.2 ⟨owner, working base f below vars stack output, rfl,
    ?_⟩⟩
  rw [if_neg (by simp [howner, hpresent])]
  refine bind_eq_ok.2 ⟨_, _, rfl, bind_eq_ok.2 ⟨items, _, found_some hitems _,
    bind_eq_ok.2 ⟨k, _, itemIndex_eq hi hk _ _, ?_⟩⟩⟩
  rw [hv]
  rfl

theorem exec_allocArray_working (n : Nat) :
    exec image (.plain .allocArray) (working base f below vars (.int n :: stack) output) =
      .ok () (working { base with heap := base.heap.alloc (.array (Array.replicate n .null)) } f
        below vars (.int base.heap.nextId :: stack) output) := by
  have hless : Value.less (.int n) (.int 0) = .ok false := by
    rw [Value.less_int]
    simp
  refine bind_eq_ok.2 ⟨_, _, rfl, bind_eq_ok.2 ⟨_, _, rfl, ?_⟩⟩
  rw [if_neg (by simp)]
  refine bind_eq_ok.2 ⟨false, _, by rw [hless]; rfl, bind_eq_ok.2 ⟨n, _, rfl, ?_⟩⟩
  exact congrArg (fun h => EStateM.Result.ok () (working { base with heap := h } f below vars
    (.int base.heap.nextId :: stack) output)) (Heap.fill_alloc base.heap _)

end Exec

end Machine
end StackLang
