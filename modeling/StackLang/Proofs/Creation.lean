import StackLang.Proofs.Negation
import StackLang.Proofs.Places

namespace StackLang

open Generator Machine

/-- The names of the fields, if all of them have one. -/
def StructDef.names? (d : StructDef) : Option (List String) :=
  d.fields.mapM fun v => v.name.map Token.lexeme

def Fields.ofNames (names : List String) (values : List Value) : Fields :=
  ⟨(names.map Key.ofText).zip values⟩

def Expr.length? : Expr → Option Nat
  | .mk negated (.literal t) none none =>
    match t.constant? with
    | some (.int (.ofNat n)) => if negated ≠ some true ∧ t.isConstant then some n else none
    | _ => none
  | _ => none

mutual

/-- The value of an operand and the objects that are created for it, the first one with the given
number. Operands are literals, variables with a value, arrays of a given length, and structs that
get operands for all their fields or for the first of them. -/
def Term.created (structs : Table String StructDef) (held : String → Option Value) (id : Nat) :
    Term → Option (Value × List Object)
  | .literal t => if t.isConstant then t.constant?.map (·, []) else none
  | .path refs => do
    let v ← (soleName? refs).bind fun t => held t.lexeme
    if v = .absent then none else some (v, [])
  | .create _ (some size) none =>
    size.length?.map fun n => (.int id, [.array (Array.replicate n .null)])
  | .create type none (some args) => do
    let names ← (structs.get? type.lexeme).bind StructDef.names?
    let (values, objects) ← createdAll structs held (id + 1) args
    if names.Nodup ∧ args.length ≤ names.length then
      some (.int id, .record (.ofNames names values) :: objects)
    else none
  | .create _ (some _) (some _) | .create _ none none | .call .. | .group _ => none

def Expr.created (structs : Table String StructDef) (held : String → Option Value) (id : Nat) :
    Expr → Option (Value × List Object)
  | .mk negated first none none =>
    if negated = some true then none else first.created structs held id
  | _ => none

def createdAll (structs : Table String StructDef) (held : String → Option Value) (id : Nat) :
    List Expr → Option (List Value × List Object)
  | [] => some ([], [])
  | e :: l => do
    let (v, objects) ← e.created structs held id
    let (values, others) ← createdAll structs held (id + objects.length) l
    return (v :: values, objects ++ others)

end

mutual

def Expr.creations : Expr → Nat
  | .mk _ first _ rest => first.creations + creationsIfAny rest

def Term.creations : Term → Nat
  | .literal _ => 0
  | .create _ size args => 1 + creationsIfAny size + creationsAmong args
  | .path refs => creationsAlong refs
  | .call _ args => creationsAmong args
  | .group e => e.creations

def creationsIfAny : Option Expr → Nat
  | some e => e.creations
  | none => 0

def creationsAmong : Option (List Expr) → Nat
  | some l => creationsIn l
  | none => 0

def creationsIn : List Expr → Nat
  | [] => 0
  | e :: l => e.creations + creationsIn l

def creationsAlong : List Ref → Nat
  | [] => 0
  | .mk _ index :: l => creationsIfAny index + creationsAlong l

end

section Created

variable {structs : Table String StructDef} {held : String → Option Value} {id : Nat} {v : Value}
  {objects : List Object}

theorem constant?_present {t : Token} (h : t.constant? = some v) : v ≠ .absent := by
  unfold Token.constant? Token.denoted? at h
  split at h
  · cases h
    simp
  · split at h
    · obtain ⟨i, -, rfl⟩ := Option.map_eq_some_iff.1 h
      simp
    · obtain ⟨d, -, rfl⟩ := Option.map_eq_some_iff.1 h
      simp
    all_goals cases h <;> simp [Value.null]

theorem length?_eq_some {e : Expr} {n : Nat} (h : e.length? = some n) :
    ∃ negated t, e = .mk negated (.literal t) none none ∧ negated ≠ some true ∧ t.isConstant ∧
      t.constant? = some (.int n) := by
  unfold Expr.length? at h
  split at h
  · rename_i negated t
    split at h
    · rename_i k hk
      split at h
      · rename_i hlit
        cases h
        exact ⟨negated, t, rfl, hlit.1, hlit.2, hk⟩
      · cases h
    · cases h
  · cases h

theorem created_literal {t : Token} :
    (Term.literal t).created structs held id = some (v, objects) ↔
      t.isConstant ∧ t.constant? = some v ∧ objects = [] := by
  simp only [Term.created]
  split
  · rename_i hconstant
    simp only [hconstant, true_and, Option.map_eq_some_iff, Prod.mk.injEq, eq_comm (a := objects)]
    constructor
    · rintro ⟨x, hx, rfl, ho⟩
      exact ⟨hx, ho⟩
    · rintro ⟨hv, ho⟩
      exact ⟨v, hv, rfl, ho⟩
  · simp [*]

theorem created_path {refs : List Ref} :
    (Term.path refs).created structs held id = some (v, objects) ↔
      ∃ name, refs = [.mk name none] ∧ held name.lexeme = some v ∧ v ≠ .absent ∧ objects = [] := by
  simp only [Term.created, bind, Option.bind_eq_some_iff]
  constructor
  · rintro ⟨x, ⟨name, hname, hx⟩, h⟩
    split at h
    · cases h
    · cases h
      exact ⟨name, eq_of_soleName? hname, hx, ‹_›, rfl⟩
  · rintro ⟨name, rfl, hx, hpresent, rfl⟩
    exact ⟨v, ⟨name, rfl, hx⟩, by rw [if_neg hpresent]⟩

theorem created_array {type : Token} {size : Expr} :
    (Term.create type (some size) none).created structs held id = some (v, objects) ↔
      ∃ n, size.length? = some n ∧ v = .int id ∧
        objects = [.array (Array.replicate n .null)] := by
  simp only [Term.created, Option.map_eq_some_iff, Prod.mk.injEq, eq_comm (a := v),
    eq_comm (a := objects)]

theorem created_struct {type : Token} {args : List Expr} :
    (Term.create type none (some args)).created structs held id = some (v, objects) ↔
      ∃ d names values inner, structs.get? type.lexeme = some d ∧ d.names? = some names ∧
        names.Nodup ∧ args.length ≤ names.length ∧
        createdAll structs held (id + 1) args = some (values, inner) ∧ v = .int id ∧
        objects = .record (.ofNames names values) :: inner := by
  simp only [Term.created, bind, Option.bind_eq_some_iff]
  constructor
  · rintro ⟨names, ⟨d, hd, hnames⟩, ⟨values, inner⟩, hargs, h⟩
    split at h
    · cases h
      exact ⟨d, names, values, inner, hd, hnames, And.left ‹_›, And.right ‹_›, hargs, rfl, rfl⟩
    · cases h
  · rintro ⟨d, names, values, inner, hd, hnames, hnodup, hle, hargs, rfl, rfl⟩
    exact ⟨names, ⟨d, hd, hnames⟩, (values, inner), hargs, by rw [if_pos ⟨hnodup, hle⟩]⟩

theorem created_operand {negated : Option Bool} {first : Term} :
    (Expr.mk negated first none none).created structs held id = some (v, objects) ↔
      negated ≠ some true ∧ first.created structs held id = some (v, objects) := by
  simp only [Expr.created]
  split <;> simp [*]

theorem createdAll_cons {e : Expr} {l : List Expr} {values : List Value} :
    createdAll structs held id (e :: l) = some (values, objects) ↔
      ∃ v mine vs others, e.created structs held id = some (v, mine) ∧
        createdAll structs held (id + mine.length) l = some (vs, others) ∧
        values = v :: vs ∧ objects = mine ++ others := by
  simp only [createdAll, bind, Option.bind_eq_some_iff]
  constructor
  · rintro ⟨⟨v, mine⟩, he, ⟨vs, others⟩, hl, h⟩
    cases h
    exact ⟨v, mine, vs, others, he, hl, rfl, rfl⟩
  · rintro ⟨v, mine, vs, others, he, hl, rfl, rfl⟩
    exact ⟨(v, mine), he, (vs, others), hl, rfl⟩

mutual

theorem term_created_length {id : Nat} {v : Value} {objects : List Object} : (t : Term) →
    t.created structs held id = some (v, objects) → objects.length = t.creations
  | .literal t, h => by
    obtain ⟨-, -, rfl⟩ := created_literal.1 h
    rfl
  | .path refs, h => by
    obtain ⟨name, rfl, -, -, rfl⟩ := created_path.1 h
    rfl
  | .create type (some size) none, h => by
    obtain ⟨n, hn, -, rfl⟩ := created_array.1 h
    obtain ⟨negated, t, rfl, -⟩ := length?_eq_some hn
    rfl
  | .create type none (some args), h => by
    obtain ⟨d, names, values, inner, -, -, -, -, hargs, -, rfl⟩ := created_struct.1 h
    have hinner := (createdAll_length args hargs).2
    simp only [Term.creations, creationsIfAny, creationsAmong, List.length_cons]
    omega
  | .create _ (some _) (some _), h | .create _ none none, h | .call .., h | .group _, h => by
    cases h

theorem expr_created_length {id : Nat} {v : Value} {objects : List Object} : (e : Expr) →
    e.created structs held id = some (v, objects) → objects.length = e.creations
  | .mk negated first none none, h => by
    simpa [Expr.creations, creationsIfAny] using
      term_created_length first (created_operand.1 h).2
  | .mk negated first (some _) _, h | .mk negated first none (some _), h => by cases h

theorem createdAll_length {id : Nat} {values : List Value} {objects : List Object} :
    (l : List Expr) → createdAll structs held id l = some (values, objects) →
    values.length = l.length ∧ objects.length = creationsIn l
  | [], h => by
    cases h
    exact ⟨rfl, rfl⟩
  | e :: l, h => by
    obtain ⟨v, mine, vs, others, he, hl, rfl, rfl⟩ := createdAll_cons.1 h
    obtain ⟨hvalues, hobjects⟩ := createdAll_length l hl
    rw [List.length_append, expr_created_length e he, hobjects, List.length_cons, hvalues]
    exact ⟨rfl, rfl⟩

end

theorem created_present : (t : Term) → t.created structs held id = some (v, objects) →
    v ≠ .absent
  | .literal t, h => constant?_present (created_literal.1 h).2.1
  | .path refs, h => by
    obtain ⟨name, -, -, hpresent, -⟩ := created_path.1 h
    exact hpresent
  | .create type (some size) none, h => by
    obtain ⟨n, -, rfl, -⟩ := created_array.1 h
    simp
  | .create type none (some args), h => by
    obtain ⟨d, names, values, inner, -, -, -, -, -, rfl, -⟩ := created_struct.1 h
    simp
  | .create _ (some _) (some _), h | .create _ none none, h | .call .., h | .group _, h => by
    cases h

end Created

namespace Machine

/-- Executing operations with the given variables in a heap whose next object gets number `id` adds
one value to the operands and objects to the heap, and changes nothing else. -/
def Creates (image : Image) (vars : List Value) (id : Nat) (ops : List Op) (v : Value)
    (objects : List Object) : Prop :=
  ∀ (base : Machine) (f : Frame) (below : List Frame) (stack : List Value) (output : String),
    base.heap.nextId = id →
    perform image ops (working base f below vars stack output) =
      .ok () (working { base with heap := ⟨base.heap.objects ++ objects.toArray⟩ } f below vars
        (v :: stack) output)

section Exec

variable {image : Image} {vars : List Value} {id : Nat} {v : Value}

theorem creates_of_produces {ops : List Op} (h : Produces image vars ops (.ok v)) :
    Creates image vars id ops v [] := by
  intro base f below stack output _
  rw [leaves_ok.1 (h base f below stack output)]
  simp

theorem creates_array {ops : List Op} {n : Nat} (h : Produces image vars ops (.ok (.int n))) :
    Creates image vars id (ops ++ [.allocArray]) (.int id)
      [.array (Array.replicate n .null)] := by
  intro base f below stack output hid
  rw [perform_append]
  refine bind_eq_ok.2 ⟨(), _, leaves_ok.1 (h base f below stack output), ?_⟩
  rw [perform_singleton, exec_allocArray_working n, hid]
  simp [Heap.alloc]

end Exec
end Machine

theorem zip_concat {α β : Type} {l : List α} {vs : List β} {a : α} (h : l[vs.length]? = some a)
    (v : β) : l.zip (vs ++ [v]) = l.zip vs ++ [(a, v)] := by
  induction vs generalizing l with
  | nil =>
    obtain _ | ⟨b, l⟩ := l <;> cases h
    simp
  | cons x vs ih =>
    obtain _ | ⟨b, l⟩ := l
    · cases h
    · rw [List.cons_append, List.zip_cons_cons, List.zip_cons_cons, ih h, List.cons_append]

theorem notMem_zip {α β : Type} {l : List α} {vs : List β} {a : α} (hl : l.Nodup)
    (h : l[vs.length]? = some a) : ∀ e ∈ l.zip vs, e.1 ≠ a := by
  intro e he
  obtain ⟨i, hi⟩ := List.mem_iff_getElem?.1 he
  obtain ⟨hkey, hvalue⟩ := List.getElem?_zip_eq_some.1 hi
  have hlt : i < vs.length := (List.getElem?_eq_some_iff.1 hvalue).1
  rintro rfl
  have hlen := (List.getElem?_eq_some_iff.1 h).1
  have heq : i = vs.length := (List.getElem?_inj (by omega) hl).1 (hkey.trans h.symm)
  omega

theorem Fields.put_ofNames {names : List String} {values : List Value} {name : String}
    (hnames : names.Nodup) (hname : names[values.length]? = some name) (v : Value) :
    (Fields.ofNames names values).put (.ofText name) v =
      Fields.ofNames names (values ++ [v]) := by
  have hkeys : (names.map Key.ofText).Nodup :=
    hnames.map fun _ _ h => Key.ofText_inj.1 h
  have hkey : (names.map Key.ofText)[values.length]? = some (.ofText name) := by
    rw [List.getElem?_map, hname, Option.map_some]
  have hnew : ¬(Fields.ofNames names values).contains (.ofText name) := by
    rw [Fields.contains_ofText]
    intro hmem
    obtain ⟨e, he, heq⟩ := List.mem_map.1 hmem
    exact notMem_zip hkeys hkey e he heq
  rw [Table.put, if_neg hnew, Fields.ofNames, Fields.ofNames, zip_concat hkey]

theorem StructDef.field_of_names? {d : StructDef} {names : List String} (h : d.names? = some names)
    (i : Nat) : (d.fields[i]?).bind (fun v => v.name.map Token.lexeme) = names[i]? := by
  obtain ⟨name, fields⟩ := d
  unfold StructDef.names? at h
  induction fields generalizing i names with
  | nil =>
    cases h
    rfl
  | cons v l ih =>
    rw [List.mapM_cons] at h
    obtain ⟨s, hs, h⟩ := Option.bind_eq_some_iff.1 h
    obtain ⟨others, hl, h⟩ := Option.bind_eq_some_iff.1 h
    cases h
    cases i with
    | zero => exact hs
    | succ i => exact ih i hl

theorem Generator.field_eq {g : Generator} {struct name : String} {d : StructDef}
    {names : List String} {i : Nat} (hd : g.structs.get? struct = some d)
    (hnames : d.names? = some names) (hname : names[i]? = some name) :
    field struct i g = .ok name g := by
  have hget : (get : Gen Generator) g = .ok g g := rfl
  rw [← StructDef.field_of_names? hnames i] at hname
  obtain ⟨v, hv, hname⟩ := Option.bind_eq_some_iff.1 hname
  obtain ⟨t, ht, rfl⟩ := Option.map_eq_some_iff.1 hname
  simp only [field, bind, EStateM.bind, hget, hd, hv, ht]
  rfl

namespace Heap

theorem place?_middle (older : List Object) (o : Object) (newer : List Object) :
    (Heap.mk (older ++ o :: newer).toArray).place? (.int (firstId + older.length : Nat)) =
      some older.length :=
  place?_int (by simp)

theorem record?_middle (older : List Object) (fields : Fields) (newer : List Object) :
    (Heap.mk (older ++ .record fields :: newer).toArray).record?
      (.int (firstId + older.length : Nat)) = some fields := by
  rw [record?, object?, place?_middle]
  simp

theorem replace_middle (older : List Object) (o o' : Object) (newer : List Object) :
    (Heap.mk (older ++ o :: newer).toArray).replace (.int (firstId + older.length : Nat)) o' =
      ⟨(older ++ o' :: newer).toArray⟩ := by
  rw [replace_eq (place?_middle older o newer)]
  simp

end Heap

namespace Machine

section Exec

variable {image : Image} {vars : List Value} {id : Nat} {v : Value}

/-- The fields of the object behind `older` ones are set one after the other, while objects for them
are added behind all others. -/
def Initializes (image : Image) (vars : List Value) (ops : List Op) (older newer : List Object)
    (before after : Fields) (objects : List Object) : Prop :=
  ∀ (base : Machine) (f : Frame) (below : List Frame) (stack : List Value) (output : String),
    let owner : Value := .int (Heap.firstId + older.length : Nat)
    perform image ops (working { base with heap := ⟨(older ++ .record before :: newer).toArray⟩ } f
        below vars (owner :: stack) output) =
      .ok () (working { base with
        heap := ⟨(older ++ .record after :: (newer ++ objects)).toArray⟩ } f below vars
          (owner :: stack) output)

theorem exec_dup_working {base : Machine} {f : Frame} {below : List Frame} {stack : List Value}
    {output : String} : exec image (.plain .dup) (working base f below vars (v :: stack) output) =
      .ok () (working base f below vars (v :: v :: stack) output) := rfl

theorem initializes_nil (older newer : List Object) (fields : Fields) :
    Initializes image vars [] older newer fields fields [] := by
  intro base f below stack output owner
  rw [List.append_nil]
  rfl

theorem initializes_cons {ops rest : List Op} {older newer mine others : List Object}
    {before after : Fields} (name : String) (hv : v ≠ .absent)
    (hops : Creates image vars (Heap.firstId + (older.length + 1 + newer.length)) ops v mine)
    (hrest : Initializes image vars rest older (newer ++ mine) (before.put (.ofText name) v) after
      others) :
    Initializes image vars (.dup :: (ops ++ .setField (.text name) :: rest)) older newer before
      after (mine ++ others) := by
  intro base f below stack output owner
  refine bind_eq_ok.2 ⟨(), _, exec_dup_working, ?_⟩
  rw [perform_append]
  have hnext : Heap.nextId ⟨(older ++ .record before :: newer).toArray⟩ =
      Heap.firstId + (older.length + 1 + newer.length) := by
    simp [Heap.nextId]
    omega
  refine bind_eq_ok.2 ⟨(), _, hops _ f below (owner :: owner :: stack) output hnext, ?_⟩
  have hheap : Heap.mk ((older ++ .record before :: newer).toArray ++ mine.toArray) =
      ⟨(older ++ .record before :: (newer ++ mine)).toArray⟩ := by
    simp
  have hset : exec image (.plain (.setField (.text name))) (working { base with
      heap := ⟨(older ++ .record before :: (newer ++ mine)).toArray⟩ } f below vars
        (v :: owner :: owner :: stack) output) = _ :=
    exec_setField_working hv (Heap.record?_middle older before (newer ++ mine))
  rw [Heap.replace_middle] at hset
  rw [hheap]
  refine bind_eq_ok.2 ⟨(), _, hset, ?_⟩
  rw [← List.append_assoc]
  exact hrest base f below stack output

theorem creates_struct {ops : List Op} {fields : Fields} {objects : List Object}
    (h : ∀ older : List Object, id = Heap.firstId + older.length →
      Initializes image vars ops older [] ⟨[]⟩ fields objects) :
    Creates image vars id (.allocStruct :: ops) (.int id) (.record fields :: objects) := by
  intro base f below stack output hid
  obtain ⟨⟨⟨older⟩⟩, frames, input, output'⟩ := base
  have hid' : id = Heap.firstId + older.length := hid.symm
  have halloc : exec image (.plain .allocStruct)
      (working ⟨⟨⟨older⟩⟩, frames, input, output'⟩ f below vars stack output) = .ok ()
        (working ⟨⟨(older ++ [Object.record ⟨[]⟩]).toArray⟩, frames, input, output'⟩ f below vars
          (.int (Heap.firstId + older.length : Nat) :: stack) output) := by
    rw [← List.push_toArray]
    rfl
  refine bind_eq_ok.2 ⟨(), _, halloc, ?_⟩
  have hinit := h older hid' ⟨⟨⟨older⟩⟩, frames, input, output'⟩ f below stack output
  rw [List.nil_append, ← hid'] at hinit
  rw [← hid', hinit, List.append_toArray]

end Exec
end Machine

section Code

variable {o : Offsets} {structs : Table String StructDef} {vars : List Value}

/-- Generation appends operations that add a value to the operands and objects to the heap. -/
def Constructs (o : Offsets) (structs : Table String StructDef) (vars : List Value) (id : Nat)
    (x : Gen Unit) (v : Value) (objects : List Object) : Prop :=
  ∃ ops, Writes o structs x ops ∧ (∀ op ∈ ops, op.steady) ∧
    ∀ image, Creates image vars id ops v objects

theorem literal_writes {t : Token} {v : Value} (ht : t.isConstant) (hv : t.constant? = some v) :
    Writes o structs (literal t) [.push v] := by
  intro image u
  rw [← Token.value?_eq_constant? ht] at hv
  simp only [literal, bind, EStateM.bind, literalValue_of_value? hv]
  exact Writes.emit (.push v) image u

theorem operand_writes {negated : Option Bool} {first : Term} {ops : List Op}
    (hneg : negated ≠ some true) (h : Writes o structs (term first) ops) :
    Writes o structs (expr (.mk negated first none none)) ops := by
  have hwrites : Writes o structs (expr (.mk negated first none none)) (ops ++ negation negated) :=
    expr_writes_operand h
  rwa [negation, if_neg hneg, List.append_nil] at hwrites

theorem path_writes (name : Token) :
    Writes o structs (path [.mk name none]) [.load (o.operand name.lexeme)] := by
  rw [path, selectors]
  exact .load _ .none

theorem initializers_writes {struct name : String} {i : Nat} {e : Expr} {l : List Expr}
    {d : StructDef} {names : List String} {ops rest : List Op}
    (hd : structs.get? struct = some d) (hnames : d.names? = some names)
    (hname : names[i]? = some name) (he : Writes o structs (expr e) ops)
    (hl : Writes o structs (initializers struct (i + 1) l) rest) :
    Writes o structs (initializers struct i (e :: l))
      (.dup :: (ops ++ .setField (.text name) :: rest)) := by
  intro image u
  have hfield : field struct i ⟨image, some u, o, structs⟩ = _ := field_eq hd hnames hname
  have hwrites := (Writes.emit .dup).seq (he.seq ((Writes.emit (.setField (.text name))).seq hl))
  simp only [initializers, bind, EStateM.bind, hfield]
  exact hwrites image u

mutual

theorem term_constructs {id : Nat} {v : Value} {objects : List Object} : (t : Term) →
    t.created structs (o.value? vars) id = some (v, objects) →
    Constructs o structs vars id (term t) v objects
  | .literal t, h => by
    obtain ⟨ht, hv, rfl⟩ := created_literal.1 h
    exact ⟨_, literal_writes ht hv, by simp [Op.steady, Op.straight], fun _ =>
      creates_of_produces (produces_push v)⟩
  | .path refs, h => by
    obtain ⟨name, rfl, hv, -, rfl⟩ := created_path.1 h
    obtain ⟨k, hk, hvar⟩ := Option.bind_eq_some_iff.1 hv
    refine ⟨_, path_writes name, by simp [Op.steady, Op.straight], fun _ => ?_⟩
    simp only [Offsets.operand, hk]
    exact creates_of_produces (produces_load hvar)
  | .create type (some size) none, h => by
    obtain ⟨n, hn, rfl, rfl⟩ := created_array.1 h
    obtain ⟨negated, t, rfl, hneg, ht, hv⟩ := length?_eq_some hn
    exact ⟨_, (operand_writes hneg (literal_writes ht hv)).seq (.emit .allocArray),
      by simp [Op.steady, Op.straight], fun _ => creates_array (produces_push _)⟩
  | .create type none (some args), h => by
    obtain ⟨d, names, values, inner, hd, hnames, hnodup, hle, hargs, rfl, rfl⟩ :=
      created_struct.1 h
    obtain ⟨ops, hwrites, hsteady, hruns⟩ :=
      initializers_build [] args hd hnames hnodup (by simpa using hle) hargs
    refine ⟨.allocStruct :: ops, (Writes.emit .allocStruct).seq hwrites, ?_, fun image => ?_⟩
    · exact List.forall_mem_cons.2 ⟨rfl, hsteady⟩
    · refine creates_struct fun older holder => ?_
      have hinit := hruns image older [] (by rw [holder, List.length_nil]; omega)
      rwa [Fields.ofNames, List.zip_nil_right] at hinit
  | .create _ (some _) (some _), h | .create _ none none, h | .call .., h | .group _, h => by
    cases h

theorem expr_constructs {id : Nat} {v : Value} {objects : List Object} : (e : Expr) →
    e.created structs (o.value? vars) id = some (v, objects) →
    Constructs o structs vars id (expr e) v objects ∧ v ≠ .absent
  | .mk negated first none none, h => by
    obtain ⟨hneg, hfirst⟩ := created_operand.1 h
    obtain ⟨ops, hwrites, hsteady, hruns⟩ := term_constructs first hfirst
    exact ⟨⟨ops, operand_writes hneg hwrites, hsteady, hruns⟩, created_present first hfirst⟩
  | .mk negated first (some _) _, h | .mk negated first none (some _), h => by cases h

theorem initializers_build {struct : String} {d : StructDef} {names : List String} {id : Nat}
    {values : List Value} {objects : List Object} (written : List Value) : (l : List Expr) →
    structs.get? struct = some d → d.names? = some names → names.Nodup →
    written.length + l.length ≤ names.length →
    createdAll structs (o.value? vars) id l = some (values, objects) →
    ∃ ops, Writes o structs (initializers struct written.length l) ops ∧ (∀ op ∈ ops, op.steady) ∧
      ∀ image older newer, id = Heap.firstId + (older.length + 1 + newer.length) →
        Initializes image vars ops older newer (.ofNames names written)
          (.ofNames names (written ++ values)) objects
  | [], _, _, _, _, h => by
    cases h
    refine ⟨[], ?_, by simp, fun image older newer _ => ?_⟩
    · rw [initializers]
      exact .none
    · rw [List.append_nil]
      exact initializes_nil older newer _
  | e :: l, hd, hnames, hnodup, hle, h => by
    obtain ⟨v, mine, vs, others, he, hl, rfl, rfl⟩ := createdAll_cons.1 h
    obtain ⟨⟨ops, hwrites, hsteady, hruns⟩, hpresent⟩ := expr_constructs e he
    rw [List.length_cons] at hle
    obtain ⟨rest, hrest, hsteady', hruns'⟩ := initializers_build (written ++ [v]) l hd hnames hnodup
      (by rw [List.length_append, List.length_singleton]; omega) hl
    rw [List.length_append, List.length_singleton] at hrest
    have hname : names[written.length]? = some names[written.length] :=
      List.getElem?_eq_getElem (by omega)
    refine ⟨_, initializers_writes hd hnames hname hwrites hrest, ?_,
      fun image older newer hid => ?_⟩
    · intro op hop
      simp only [List.mem_cons, List.mem_append] at hop
      obtain rfl | hop | rfl | hop := hop
      · rfl
      · exact hsteady op hop
      · rfl
      · exact hsteady' op hop
    · refine initializes_cons _ hpresent (hid ▸ hruns image) ?_
      have hnext := hruns' image older (newer ++ mine) (by rw [hid, List.length_append]; omega)
      rwa [List.append_assoc, List.singleton_append, ← Fields.put_ofNames hnodup hname] at hnext

end

end Code

namespace Heap

variable {h : Heap} {objects : List Object}

theorem object?_append {owner : Value} {o : Object} (ho : h.object? owner = some o) :
    (Heap.mk (h.objects ++ objects.toArray)).object? owner = some o := by
  obtain ⟨i, hi, ho⟩ := Option.bind_eq_some_iff.1 ho
  obtain ⟨hid, hlt⟩ := place?_eq_some.1 hi
  have hplace : (Heap.mk (h.objects ++ objects.toArray)).place? owner = some i :=
    place?_eq_some.2 ⟨hid, by rw [Array.size_append]; omega⟩
  refine Option.bind_eq_some_iff.2 ⟨i, hplace, ?_⟩
  rw [Array.getElem?_append_left hlt, ho]

theorem object?_added {i : Nat} {o : Object} (hi : objects[i]? = some o) :
    (Heap.mk (h.objects ++ objects.toArray)).object? (.int (h.nextId + i : Nat)) = some o := by
  have hlt := (List.getElem?_eq_some_iff.1 hi).1
  have hplace : (Heap.mk (h.objects ++ objects.toArray)).place? (.int (h.nextId + i : Nat)) =
      some (h.objects.size + i) := by
    rw [nextId, Nat.add_assoc]
    exact place?_int (by simp [hlt])
  refine Option.bind_eq_some_iff.2 ⟨_, hplace, ?_⟩
  rw [Array.getElem?_append_right (Nat.le_add_right _ _), Nat.add_sub_cancel_left]
  simpa using hi

end Heap

/-- The code of a struct that is created, with values for all its fields or for the first of them,
adds its number to the operands, the next one. The struct has these fields, in order, with the
values of the expressions. As many objects are added as are created in the expression, and all that
were there are left as they were. -/
theorem create_gives {g : Generator} {t : Template} {type : Token} {args : List Expr} {f : Frame}
    {m : Machine} {v : Value} {objects : List Object} (ht : g.current = some t)
    (h : (Term.create type none (some args)).created g.structs (g.offsets.value? f.locals)
      m.heap.nextId = some (v, objects)) :
    ∃ ops d names values inner,
      term (.create type none (some args)) g = .ok () { g with current := some (t.append ops) } ∧
      g.structs.get? type.lexeme = some d ∧ d.names? = some names ∧ values.length = args.length ∧
      createdAll g.structs (g.offsets.value? f.locals) (m.heap.nextId + 1) args =
        some (values, inner) ∧
      objects = .record (.ofNames names values) :: inner ∧
      ∀ image k below, Stands ops k f below m → ∃ heap,
        Gives image ops k f below m (.ok (.int m.heap.nextId, heap)) ∧
        heap.record? (.int m.heap.nextId) = some (.ofNames names values) ∧
        heap.nextId = m.heap.nextId + (Term.create type none (some args)).creations ∧
        (∀ i o, objects[i]? = some o → heap.object? (.int (m.heap.nextId + i : Nat)) = some o) ∧
        ∀ owner o, m.heap.object? owner = some o → heap.object? owner = some o := by
  obtain ⟨ops, hwrites, hsteady, hruns⟩ := term_constructs _ h
  have hcount := term_created_length _ h
  obtain ⟨d, names, values, inner, hd, hnames, -, -, hargs, rfl, rfl⟩ := created_struct.1 h
  obtain ⟨genImage, current, o, structs⟩ := g
  obtain rfl : current = some t := ht
  refine ⟨ops, d, names, values, inner, hwrites genImage t, hd, hnames,
    (createdAll_length args hargs).1, hargs, rfl, fun image k below hm => ?_⟩
  have hgains := hruns image m f below f.stack m.output rfl
  rw [hm.working] at hgains
  refine ⟨_, hm.gives (fun op hop => .exec_steady image (hsteady op hop)) hgains, ?_, ?_, ?_, ?_⟩
  · have hfirst : (Object.record (.ofNames names values) :: inner)[0]? = some _ := rfl
    rw [Heap.record?, ← Nat.add_zero m.heap.nextId, Heap.object?_added hfirst]
  · rw [← hcount]
    simp [Heap.nextId, Nat.add_assoc]
  · intro i o hi
    exact Heap.object?_added hi
  · intro owner o ho
    exact Heap.object?_append ho

namespace Nested

/-- The struct `struct T {int a; T b; array int c;}`. -/
def definition : StructDef :=
  ⟨word .id "T", [⟨none, some (word .id "a")⟩, ⟨none, some (word .id "b")⟩, ⟨none, some (word .id "c")⟩]⟩

/-- The fields of `new T(x, new T(null), new int[2])`. -/
def args : List Expr :=
  [mention "x",
    .operand (.create (word .id "T") none (some [.operand (.literal (word .nullVal "null"))])),
    .operand (.create (word .id "int") (some (number "2")) none)]

def generator : Generator := ⟨.empty, some ⟨"f", 0, #[]⟩, ⟨[["x"]]⟩, ⟨[("T", definition)]⟩⟩

def code : List Op :=
  [.allocStruct, .dup, .load (.int 0), .setField (.text "a"), .dup, .allocStruct, .dup, .push .null,
    .setField (.text "a"), .setField (.text "b"), .dup, .push (.int 2), .allocArray,
    .setField (.text "c")]

def call : Frame := ⟨(Template.mk "f" 0 #[]).append code, .int 0, [.int 7], [.null]⟩

def machine : Machine := ⟨⟨#[.array #[]]⟩, [call], [], ""⟩

end Nested

open Nested in
/-- The outer struct comes before the one inside it, and that before the array. -/
theorem create_gives_nested :
    term (.create (word .id "T") none (some args)) generator =
        .ok () { generator with current := some call.template } ∧
      ∀ image, ∃ heap, Gives image code 0 call [] machine (.ok (.int 2025, heap)) ∧
        heap.record? (.int 2025) = some (.ofNames ["a", "b", "c"] [.int 7, .int 2026, .int 2027]) ∧
        heap.object? (.int 2026) = some (.record (.ofNames ["a", "b", "c"] [.null])) ∧
        heap.object? (.int 2027) = some (.array #[.null, .null]) ∧
        heap.object? (.int 2024) = some (.array #[]) := by
  have hcreated : (Term.create (word .id "T") none (some args)).created generator.structs
      (generator.offsets.value? call.locals) machine.heap.nextId =
      some (.int 2025, [.record (.ofNames ["a", "b", "c"] [.int 7, .int 2026, .int 2027]),
        .record (.ofNames ["a", "b", "c"] [.null]), .array #[.null, .null]]) := rfl
  obtain ⟨ops, d, names, values, inner, hgen, -, -, -, -, hobjects, hruns⟩ :=
    create_gives (t := ⟨"f", 0, #[]⟩) rfl hcreated
  have hcode : term (.create (word .id "T") none (some args)) generator =
      .ok () { generator with current := some call.template } := rfl
  obtain rfl : code = ops := by
    have heq := hcode.symm.trans hgen
    simp only [EStateM.Result.ok.injEq, Generator.mk.injEq, Option.some.injEq, true_and,
      and_true] at heq
    exact Template.append_inj heq
  refine ⟨hcode, fun image => ?_⟩
  obtain ⟨heap, hgives, hrecord, -, hnew, hold⟩ :=
    hruns image 0 [] ⟨rfl, rfl, holds_append ⟨"f", 0, #[]⟩ code⟩
  rw [← Object.record.inj (List.cons.inj hobjects).1] at hrecord
  exact ⟨heap, hgives, hrecord, hnew 1 _ rfl, hnew 2 _ rfl, hold (.int 2024) _ rfl⟩

end StackLang
