import StackLang.Proofs.Stepping

namespace StackLang

/-- Operations behind which the same call goes on with its next instruction. -/
def Op.sequential : Op → Bool
  | jump _ | jumpFalse _ | call _ | ret => false
  | _ => true

/-- Complaints that an operand is absent. -/
def MachineError.ofAbsent : MachineError → Bool
  | operandsAbsent | operandAbsent | lengthOfAbsent | characterOfAbsent | conversionOfAbsent
  | fieldValueAbsent | fieldOwnerAbsent | fieldOfAbsent | setItemAbsent | getItemAbsent => true
  | _ => false

namespace Value

variable {a b v : Value}

theorem arithmetic_present {f : Int → Int → Int} {g : Double → Double → Double}
    (h : arithmetic f g a b = .ok v) : v ≠ .absent := by
  unfold arithmetic at h
  split at h
  · cases h
    simp
  · rename_i x y _ _ _
    cases hx : x.toDouble <;> cases hy : y.toDouble <;>
      simp only [hx, hy, bind, Except.bind] at h <;> cases h
    simp
  · cases h

theorem add_present (h : add a b = .ok v) : v ≠ .absent := by
  unfold add at h
  split at h
  · cases h
    simp
  · exact arithmetic_present h

theorem repeated_present {s : String} {n : Int} (h : repeated s n = .ok v) : v ≠ .absent := by
  unfold repeated at h
  split at h <;> cases h
  simp

theorem mul_present (h : mul a b = .ok v) : v ≠ .absent := by
  unfold mul at h
  split at h
  · split at h
    · exact repeated_present h
    · cases h
  · split at h
    · exact repeated_present h
    · cases h
  · exact arithmetic_present h

theorem wholePart_present {d : Double} (h : wholePart d = .ok v) : v ≠ .absent := by
  unfold wholePart at h
  split at h <;> cases h
  simp

theorem div_present (h : div a b = .ok v) : v ≠ .absent := by
  unfold div at h
  split at h
  · rename_i i j
    cases hq : quotient i j <;> simp only [hq, bind, Except.bind] at h
    · cases h
    · exact wholePart_present h
  · split at h
    · rename_i i j _ _
      cases hq : quotient i j <;> simp only [hq, bind, Except.bind] at h <;> cases h
      simp
    · rename_i x y _ _ _
      cases hx : x.toDouble <;> cases hy : y.toDouble <;>
        simp only [hx, hy, bind, Except.bind] at h <;> cases h
      simp
    · cases h

end Value

/-- Every value in an object satisfies a property. -/
def Object.All (V : Value → Prop) : Object → Prop
  | record fields => ∀ e ∈ fields.entries, V e.2
  | array items => ∀ v ∈ items, V v
  | missing => True

namespace Heap

def All (V : Value → Prop) (h : Heap) : Prop := ∀ o ∈ h.objects, o.All V

/-- What an operation can do to the heap: it takes a number, with an object or without one, gives
the number that was just taken its object, or writes into an object that is there. -/
inductive Next (V : Value → Prop) : Heap → Heap → Prop
  | alloc (h : Heap) {o : Object} : o.All V → Next V h (h.alloc o)
  | fill (h : Heap) {o : Object} : o.All V → Next V (h.alloc .missing) (h.alloc o)
  | record {h : Heap} {owner : Value} {fields fields' : Fields} : h.record? owner = some fields →
      Object.All V (.record fields') → Next V h (h.replace owner (.record fields'))
  | array {h : Heap} {owner : Value} {items items' : Array Value} : h.array? owner = some items →
      items'.size = items.size → Object.All V (.array items') →
      Next V h (h.replace owner (.array items'))

theorem fill_alloc (h : Heap) (o : Object) : (h.alloc .missing).fill o = h.alloc o := by
  obtain ⟨⟨l⟩⟩ := h
  simp [alloc, fill]

variable {V : Value → Prop} {h : Heap} {owner : Value}

theorem All.object (hall : h.All V) {o : Object} (ho : h.object? owner = some o) : o.All V := by
  obtain ⟨i, -, hi⟩ := Option.bind_eq_some_iff.1 ho
  exact hall o (Array.mem_of_getElem? hi)

theorem object_of_record {fields : Fields} (h' : h.record? owner = some fields) :
    h.object? owner = some (.record fields) := by
  unfold record? at h'
  split at h' <;> cases h'
  assumption

theorem object_of_array {items : Array Value} (h' : h.array? owner = some items) :
    h.object? owner = some (.array items) := by
  unfold array? at h'
  split at h' <;> cases h'
  assumption

end Heap

theorem Table.mem_put {κ α : Type} [BEq κ] {t : Table κ α} {k : κ} {a : α} {e : κ × α}
    (h : e ∈ (t.put k a).entries) : e ∈ t.entries ∨ e.2 = a := by
  unfold Table.put at h
  split at h
  · obtain ⟨e', he', rfl⟩ := List.mem_map.1 h
    split
    · exact .inr rfl
    · exact .inl he'
  · obtain h | h := List.mem_append.1 h
    · exact .inl h
    · exact .inr (by rw [List.mem_singleton.1 h])

theorem Table.mem_of_get? {κ α : Type} [BEq κ] {t : Table κ α} {k : κ} {a : α}
    (h : t.get? k = some a) : ∃ k', (k', a) ∈ t.entries := by
  obtain ⟨e, he, rfl⟩ := Option.map_eq_some_iff.1 h
  exact ⟨e.1, List.mem_of_find?_eq_some he⟩

namespace Machine

theorem mem_insertAt {x v : Value} {n : Nat} {vars : List Value} (h : v ∈ insertAt x n vars) :
    v = x ∨ v ∈ vars := by
  induction vars generalizing n with
  | nil => cases n <;> simp_all [insertAt]
  | cons w vars ih =>
    cases n with
    | zero => simpa [insertAt] using h
    | succ n =>
      obtain rfl | h := List.mem_cons.1 h
      · exact .inr List.mem_cons_self
      · exact (ih h).imp_right (List.mem_cons_of_mem _)

/-- Started where `P` holds, a computation ends where `I` holds, with a result that satisfies `Q`
or a failure that satisfies `E`. -/
def Carries {α : Type} (P I : Machine → Prop) (E : Failure → Prop) (x : Exec α) (Q : α → Prop) :
    Prop :=
  ∀ m, P m →
    match x m with
    | .ok a m' => I m' ∧ Q a
    | .error e m' => I m' ∧ E e

/-- Computations that go from machines with a property to machines with it. -/
abbrev Keeps {α : Type} (I : Machine → Prop) (E : Failure → Prop) (x : Exec α) (Q : α → Prop) :
    Prop := Carries I I E x Q

section Rules

variable {α β : Type} {P J I : Machine → Prop} {E : Failure → Prop} {A : α → Prop} {Q : β → Prop}

namespace Carries

theorem ok {x : Exec α} {m m' : Machine} {a : α} (hx : Carries P I E x A) (hm : P m)
    (h : x m = .ok a m') : I m' ∧ A a := by
  have := hx m hm
  rwa [h] at this

theorem error {x : Exec α} {m m' : Machine} {e : Failure} (hx : Carries P I E x A) (hm : P m)
    (h : x m = .error e m') : I m' ∧ E e := by
  have := hx m hm
  rwa [h] at this

protected theorem pure {a : α} (hI : ∀ m, P m → I m) (ha : A a) : Carries P I E (pure a) A :=
  fun m hm => ⟨hI m hm, ha⟩

protected theorem throw {e : Failure} (hI : ∀ m, P m → I m) (he : E e) :
    Carries P I E (throw e) A :=
  fun m hm => ⟨hI m hm, he⟩

theorem bind {x : Exec α} {f : α → Exec β} (hJ : ∀ m, J m → I m) (hx : Carries P J E x A)
    (hf : ∀ a, A a → Carries J I E (f a) Q) : Carries P I E (x >>= f) Q := by
  intro m hm
  have hm' := hx m hm
  simp only [Bind.bind, EStateM.bind]
  cases h : x m with
  | ok a m' =>
    rw [h] at hm'
    exact hf a hm'.2 m' hm'.1
  | error e m' =>
    rw [h] at hm'
    exact ⟨hJ m' hm'.1, hm'.2⟩

theorem get {k : Machine → Exec β} (h : ∀ m, P m → Carries (· = m) I E (k m) Q) :
    Carries P I E (get >>= k) Q :=
  fun m hm => h m hm m rfl

theorem modify {f : Machine → Machine} (h : ∀ m, P m → I (f m)) :
    Carries P I E (modify f) fun _ => True :=
  fun m hm => ⟨h m hm, trivial⟩

theorem check {c : Prop} [Decidable c] {e : MachineError} {x : Exec α} (hI : ∀ m, P m → I m)
    (he : c → E (.machine e)) (hx : Carries P I E x A) :
    Carries P I E (if c then do complain e; x else x) A := by
  split
  · intro m hm
    exact ⟨hI m hm, he ‹_›⟩
  · exact hx

end Carries

namespace Keeps

protected theorem pure {a : α} (ha : A a) : Keeps I E (pure a) A := Carries.pure (fun _ h => h) ha

protected theorem throw {e : Failure} (he : E e) : Keeps I E (throw e) A :=
  Carries.throw (fun _ h => h) he

theorem bind {x : Exec α} {f : α → Exec β} (hx : Keeps I E x A)
    (hf : ∀ a, A a → Keeps I E (f a) Q) : Keeps I E (x >>= f) Q := Carries.bind (fun _ h => h) hx hf

theorem ite {c : Prop} [Decidable c] {x y : Exec α} (hx : c → Keeps I E x A)
    (hy : ¬c → Keeps I E y A) : Keeps I E (if c then x else y) A := by
  split
  · exact hx ‹_›
  · exact hy ‹_›

theorem check {c : Prop} [Decidable c] {e : MachineError} {x : Exec α} (he : c → E (.machine e))
    (hx : Keeps I E x A) : Keeps I E (if c then do complain e; x else x) A :=
  Carries.check (fun _ h => h) he hx

theorem attempt {r : Except Crash α} (hE : ∀ c, E (.crash c)) (h : ∀ a, r = .ok a → A a) :
    Keeps I E (attempt r) A := by
  cases r with
  | ok a => exact .pure (h a rfl)
  | error c => exact .throw (hE c)

theorem attempt_bind {r : Except Crash α} {k : α → Exec β} (hE : ∀ c, E (.crash c))
    (hk : ∀ a, Keeps I E (k a) Q) : Keeps I E (Machine.attempt r >>= k) Q :=
  .bind (.attempt (A := fun _ => True) hE fun _ _ => trivial) fun a _ => hk a

theorem found {o : Option α} (hE : ∀ c, E (.crash c)) (h : ∀ a, o = some a → A a) :
    Keeps I E (found o) A := by
  cases o with
  | some a => exact .pure (h a rfl)
  | none => exact .throw (hE _)

theorem numeral {o : Option α} (hE : ∀ c, E (.crash c)) :
    Keeps I E (numeral o) fun _ => True := by
  cases o with
  | some a => exact .pure trivial
  | none => exact .throw (hE _)

end Keeps
end Rules

/-- Values and failures among which are all values that are computed, and all failures but the
complaints about absent operands, and these too if operands may be absent. -/
structure Admits (V : Value → Prop) (E : Failure → Prop) : Prop where
  present : ∀ {v}, v ≠ .absent → V v
  crash : ∀ c, E (.crash c)
  complaint : ∀ {e : MachineError}, (e.ofAbsent → V .absent) → E (.machine e)

theorem admits_all : Admits (fun _ => True) fun _ => True :=
  ⟨fun _ => trivial, fun _ => trivial, fun _ => trivial⟩

/-- A property that lasts while the innermost call works with values in `V`. -/
structure Framed (V : Value → Prop) (I : Machine → Prop) : Prop where
  operands : ∀ {m f rest}, I m → m.frames = f :: rest → ∀ v ∈ f.stack, V v
  locals : ∀ {m f rest}, I m → m.frames = f :: rest → ∀ v ∈ f.locals, V v
  work : ∀ {m f rest vars stack}, I m → m.frames = f :: rest → (∀ v ∈ vars, V v) →
    (∀ v ∈ stack, V v) → I { m with frames := { f with locals := vars, stack } :: rest }
  talk : ∀ {m} input output, I m → I { m with input, output }

/-- A property that also lasts while the heap changes. -/
structure Stable (V : Value → Prop) (I : Machine → Prop) : Prop extends Framed V I where
  objects : ∀ {m}, I m → m.heap.All V
  alter : ∀ {m heap}, I m → m.heap.Next V heap → I { m with heap }

section Operations

variable {V : Value → Prop} {E : Failure → Prop} {I : Machine → Prop}

/-- Operands that are admitted may be absent only if absence is. -/
theorem Admits.absent (hV : Admits V E) {e : MachineError} {x : Value} (hx : V x)
    (h : x = .absent) : E (.machine e) := hV.complaint fun _ => h ▸ hx

theorem Admits.other (hV : Admits V E) {e : MachineError} (he : e.ofAbsent = false) :
    E (.machine e) := hV.complaint fun h => by simp [he] at h

theorem Admits.either_absent (hV : Admits V E) {e : MachineError} {x y : Value} (hx : V x)
    (hy : V y) (h : x = .absent ∨ y = .absent) : E (.machine e) :=
  h.elim (hV.absent hx) (hV.absent hy)

namespace Framed

variable (hV : Admits V E) (hI : Framed V I)

include hI

theorem onFrame {g : Frame → List Value × List Value}
    (hg : ∀ f, (∀ v ∈ f.stack, V v) → (∀ v ∈ f.locals, V v) →
      (∀ v ∈ (g f).1, V v) ∧ ∀ v ∈ (g f).2, V v) :
    Keeps I E (Machine.onFrame fun f => { f with locals := (g f).1, stack := (g f).2 })
      fun _ => True := by
  refine Carries.modify fun m hm => ?_
  cases hframes : m.frames with
  | nil => exact hm
  | cons f rest =>
    obtain ⟨hvars, hstack⟩ := hg f (hI.operands hm hframes) (hI.locals hm hframes)
    exact hI.work hm hframes hvars hstack

theorem push {v : Value} (hv : V v) : Keeps I E (Machine.push v) fun _ => True :=
  hI.onFrame (g := fun f => (f.locals, v :: f.stack)) fun _ hstack hvars =>
    ⟨hvars, List.forall_mem_cons.2 ⟨hv, hstack⟩⟩

theorem print (s : String) : Keeps I E (Machine.print s) fun _ => True :=
  Carries.modify fun m hm => hI.talk m.input _ hm

include hV

theorem frame : Keeps I E Machine.frame
    fun f => (∀ v ∈ f.stack, V v) ∧ ∀ v ∈ f.locals, V v := by
  refine Carries.get fun m hm => ?_
  cases hframes : m.frames with
  | nil => exact .throw (fun _ h => h ▸ hm) (hV.crash _)
  | cons f rest =>
    exact .pure (fun _ h => h ▸ hm) ⟨hI.operands hm hframes, hI.locals hm hframes⟩

theorem pop : Keeps I E Machine.pop V := by
  refine .bind (hI.frame hV) fun f hf => ?_
  cases hstack : f.stack with
  | nil => exact .throw (hV.crash _)
  | cons v rest =>
    rw [hstack] at hf
    obtain ⟨hv, hrest⟩ := List.forall_mem_cons.1 hf.1
    have hset : Keeps I E (Machine.onFrame fun f => { f with stack := rest }) fun _ => True :=
      hI.onFrame (g := fun f => (f.locals, rest)) fun _ _ hvars => ⟨hvars, hrest⟩
    exact .bind hset fun _ _ => .pure hv

theorem withTwo {k : Value → Value → Exec Unit}
    (hk : ∀ y x, V y → V x → Keeps I E (k y x) fun _ => True) :
    Keeps I E (Machine.withTwo k) fun _ => True := by
  refine .bind (hI.frame hV) fun f _ => ?_
  split
  · exact .bind (hI.pop hV) fun x hx => .bind (hI.pop hV) fun y hy => hk y x hy hx
  · exact .pure trivial

theorem arithmetic {f : Value → Value → Except Crash Value}
    (hf : ∀ {y x v}, f y x = .ok v → v ≠ .absent) :
    Keeps I E (Machine.arithmetic f) fun _ => True := by
  refine hI.withTwo hV fun y x hy hx => .check (hV.either_absent hx hy) ?_
  exact .bind (.attempt hV.crash fun v hv => hV.present (hf hv)) fun _ => hI.push

theorem divide : Keeps I E Machine.divide fun _ => True := by
  refine hI.withTwo hV fun y x hy hx => .check (hV.either_absent hx hy) ?_
  refine .check (fun _ => hV.other rfl) ?_
  exact .bind (.attempt hV.crash fun v hv => hV.present (Value.div_present hv)) fun _ => hI.push

theorem popPair : Keeps I E Machine.popPair fun p => V p.1 ∧ V p.2 := by
  refine .bind (hI.pop hV) fun x hx => .bind (hI.pop hV) fun y hy => ?_
  exact .check (hV.either_absent hx hy) (.pure ⟨hy, hx⟩)

theorem store (offset : Value) {x : Value} (hx : V x) :
    Keeps I E (Machine.store offset x) fun _ => True := by
  refine .attempt_bind hV.crash fun i => ?_
  have hset : Keeps I E (Machine.onFrame fun f =>
      { f with locals := insertAt x (if 0 ≤ i then i.toNat else (f.locals.length + i).toNat)
                           f.locals }) fun _ => True := by
    refine hI.onFrame (g := fun f => (insertAt x
      (if 0 ≤ i then i.toNat else (f.locals.length + i).toNat) f.locals, f.stack)) ?_
    intro f hstack hvars
    refine ⟨fun v hv => ?_, hstack⟩
    obtain rfl | hv := mem_insertAt hv
    · exact hx
    · exact hvars v hv
  refine .ite (fun _ => ?_) fun _ => hset
  exact .bind (A := fun _ => True) (.throw (hV.crash _)) fun _ _ => hset

theorem load (offset : Value) : Keeps I E (Machine.load offset) V := by
  refine .attempt_bind hV.crash fun i => ?_
  refine .bind (hI.frame hV) fun f hf => ?_
  dsimp only
  split
  · split
    · rename_i v hv
      exact .pure (hf.2 v (List.mem_of_getElem? hv))
    · exact .throw (hV.crash _)
  · exact .throw (hV.crash _)

theorem write : Keeps I E Machine.write fun _ => True := by
  refine .bind (hI.frame hV) fun f _ => ?_
  split
  · exact .pure trivial
  · refine .bind (hI.pop hV) fun v _ => ?_
    cases v with
    | absent | bool => exact hI.print _
    | int | double | text => exact .attempt_bind hV.crash fun _ => hI.print _

theorem readLine : Keeps I E Machine.readLine fun _ => True := by
  refine Carries.get fun m hm => ?_
  have hset : Carries (· = m) I E (do
      set { m with input := (m.input.dropWhile (· ≠ '\n')).tail }
      return String.ofList (m.input.takeWhile (· ≠ '\n'))) fun _ => True := by
    rintro _ rfl
    exact ⟨hI.talk _ _ hm, trivial⟩
  split
  · exact Carries.bind (J := (· = m)) (A := fun _ => True) (fun _ h => h ▸ hm)
      (Keeps.throw (hV.crash _)) fun _ _ => hset
  · exact hset

omit hI in
theorem characterIndex (last : Int) (i : Value) :
    Keeps I E (Machine.characterIndex last i) fun _ => True := by
  refine .attempt_bind hV.crash fun _ => .check (fun _ => hV.other rfl) ?_
  refine .attempt_bind hV.crash fun _ => .check (fun _ => hV.other rfl) ?_
  exact .attempt_bind hV.crash fun _ => .pure trivial

omit hI in
theorem itemIndex (n : Nat) (i : Value) {e : MachineError} (he : e.ofAbsent = false) :
    Keeps I E (Machine.itemIndex n i e) fun _ => True := by
  refine .attempt_bind hV.crash fun _ => .check (fun _ => hV.other he) ?_
  refine .attempt_bind hV.crash fun _ => .check (fun _ => hV.other he) ?_
  exact .attempt_bind hV.crash fun _ => .pure trivial

theorem charAt : Keeps I E Machine.charAt fun _ => True := by
  refine .bind (hI.pop hV) fun x hx => .check (hV.absent hx) ?_
  refine .bind (hI.pop hV) fun y hy => .check (hV.absent hy) ?_
  cases x with
  | text s =>
    refine .bind (characterIndex hV _ y) fun i _ => ?_
    split
    · exact hI.push (hV.present (by simp))
    · exact .throw (hV.crash _)
  | _ => exact .throw (hV.crash _)

theorem toInt : Keeps I E Machine.toInt fun _ => True := by
  refine .bind (hI.pop hV) fun x hx => ?_
  cases x with
  | absent => exact .throw (hV.absent hx rfl)
  | double d =>
    exact .bind (.attempt hV.crash fun v hv => hV.present (Value.wholePart_present hv))
      fun _ => hI.push
  | text s =>
    exact .ite (fun _ => .bind (.numeral hV.crash) fun _ _ => hI.push (hV.present (by simp)))
      fun _ => .throw (hV.other rfl)
  | _ => exact .throw (hV.other rfl)

theorem toDouble : Keeps I E Machine.toDouble fun _ => True := by
  refine .bind (hI.pop hV) fun x hx => ?_
  cases x with
  | absent => exact .throw (hV.absent hx rfl)
  | text s =>
    exact .ite (fun _ => .bind (.numeral hV.crash) fun _ _ => hI.push (hV.present (by simp)))
      fun _ => .throw (hV.other rfl)
  | bool | int | double =>
    exact .attempt_bind hV.crash fun _ => hI.push (hV.present (by simp))

theorem toText : Keeps I E Machine.toText fun _ => True :=
  .bind (hI.pop hV) fun _ hx => .check (hV.absent hx)
    (.attempt_bind hV.crash fun _ => hI.push (hV.present (by simp)))

theorem length : Keeps I E Machine.length fun _ => True := by
  refine .bind (hI.pop hV) fun x hx => ?_
  have hsize : Keeps I E (do
      Machine.push (.int (← Machine.found ((← get).heap.array? x)).size)) fun _ => True := by
    refine Carries.get fun m hm => ?_
    refine Carries.bind (J := (· = m)) (A := fun _ => True) (fun _ h => h ▸ hm)
      (Keeps.found hV.crash fun _ _ => trivial) fun items _ => ?_
    rintro _ rfl
    exact hI.push (E := E) (hV.present (by simp)) _ hm
  cases x with
  | text s => exact hI.push (hV.present (by simp))
  | absent => exact .throw (hV.absent hx rfl)
  | _ => exact hsize

end Framed

namespace Stable

variable (hV : Admits V E) (hI : Stable V I)

include hI

theorem allocate {o : Object} (ho : o.All V) (hV : Admits V E) : Keeps I E (Machine.allocate o) V := by
  refine Carries.get fun m hm => ?_
  rintro _ rfl
  exact ⟨hI.alter hm (.alloc _ ho), hV.present (by simp)⟩

include hV

theorem setField (field : Value) : Keeps I E (Machine.setField field) fun _ => True := by
  refine .bind (hI.pop hV) fun value hvalue => .check (hV.absent hvalue) ?_
  refine .bind (hI.pop hV) fun owner howner => .check (hV.absent howner) ?_
  refine Carries.get fun m hm => ?_
  refine Carries.bind (J := (· = m)) (fun _ h => h ▸ hm) (Keeps.found hV.crash fun _ h => h)
    fun fields hfields => Carries.modify ?_
  rintro _ rfl
  refine hI.alter hm (.record hfields fun e he => ?_)
  obtain he | he := Table.mem_put he
  · exact (hI.objects hm).object (Heap.object_of_record hfields) e he
  · exact he ▸ hvalue

theorem getField (field : Value) : Keeps I E (Machine.getField field) fun _ => True := by
  refine .bind (hI.pop hV) fun owner howner => .check (hV.absent howner) ?_
  refine Carries.get fun m hm => ?_
  refine Carries.bind (J := (· = m)) (fun _ h => h ▸ hm) (Keeps.found hV.crash fun _ h => h)
    fun fields hfields => ?_
  rintro _ rfl
  refine Keeps.bind (Keeps.found hV.crash fun v hv => ?_) (fun _ => hI.push) _ hm
  obtain ⟨name, hmem⟩ := Table.mem_of_get? hv
  exact (hI.objects hm).object (Heap.object_of_record hfields) _ hmem

theorem allocArray : Keeps I E Machine.allocArray fun _ => True := by
  -- the number that was taken last has no object until the length is known to be one
  let J (m : Machine) : Prop := I m ∧ ∃ h : Heap, m.heap = h.alloc .missing
  have hJI : ∀ m, J m → I m := fun _ h => h.1
  have hJ : Framed V J :=
    ⟨fun h => hI.operands h.1, fun h => hI.locals h.1,
      fun h hf hvars hstack => ⟨hI.work h.1 hf hvars hstack, h.2⟩,
      fun _ _ h => ⟨hI.talk _ _ h.1, h.2⟩⟩
  have htake : Carries I J E (Machine.allocate .missing) V := by
    refine Carries.get fun m hm => ?_
    rintro _ rfl
    exact ⟨⟨hI.alter hm (.alloc _ trivial), _, rfl⟩, hV.present (by simp)⟩
  have hattempt {α : Type} {r : Except Crash α} : Keeps J E (attempt r) fun _ => True :=
    .attempt hV.crash fun _ _ => trivial
  refine Carries.bind hJI htake fun id hid => ?_
  refine Carries.bind hJI (hJ.pop hV) fun n hn => .check hJI (hV.absent hn) ?_
  refine Carries.bind hJI hattempt fun _ _ => .check hJI (fun _ => hV.other rfl) ?_
  refine Carries.bind hJI hattempt fun k _ => ?_
  refine Carries.bind (fun _ h => h) (Carries.modify fun m hm => ?_) fun _ _ => hI.push hid
  obtain ⟨hm, h, hheap⟩ := hm
  have hnull : Object.All V (.array (Array.replicate k.toNat Value.null)) := by
    intro v hv
    rw [(Array.mem_replicate.1 hv).2]
    exact hV.present (by simp [Value.null])
  rw [hheap, Heap.fill_alloc]
  exact hI.alter hm (hheap ▸ .fill h hnull)

theorem setItem : Keeps I E Machine.setItem fun _ => True := by
  refine .bind (hI.pop hV) fun value hvalue => .bind (hI.pop hV) fun i hi => ?_
  refine .bind (hI.pop hV) fun owner howner => .check (hV.either_absent hi howner) ?_
  refine Carries.get fun m hm => ?_
  refine Carries.bind (J := (· = m)) (fun _ h => h ▸ hm) (Keeps.found hV.crash fun _ h => h)
    fun items hitems => ?_
  refine Carries.bind (J := (· = m)) (fun _ h => h ▸ hm) (Framed.itemIndex hV _ i rfl)
    fun k _ => Carries.modify ?_
  rintro _ rfl
  refine hI.alter hm (.array hitems Array.size_setIfInBounds fun v hv => ?_)
  obtain hv | rfl := Array.mem_or_eq_of_mem_setIfInBounds hv
  · exact (hI.objects hm).object (Heap.object_of_array hitems) v hv
  · exact hvalue

theorem getItem : Keeps I E Machine.getItem fun _ => True := by
  refine .bind (hI.pop hV) fun i hi => .bind (hI.pop hV) fun owner howner => ?_
  refine .check (hV.either_absent hi howner) (Carries.get fun m hm => ?_)
  refine Carries.bind (J := (· = m)) (fun _ h => h ▸ hm) (Keeps.found hV.crash fun _ h => h)
    fun items hitems => ?_
  refine Carries.bind (J := (· = m)) (fun _ h => h ▸ hm) (Framed.itemIndex hV _ i rfl)
    fun k _ => ?_
  split
  · rename_i v hv
    have hall := (hI.objects hm).object (Heap.object_of_array hitems)
    rintro _ rfl
    exact hI.push (E := E) (hall v (Array.mem_of_getElem? hv)) _ hm
  · exact .throw (fun _ h => h ▸ hm) (hV.crash _)

/-- An operation that pushes no other value than one in `V` and stays in its call. -/
theorem exec (image : Image) {i : Instr} (hi : i.op.sequential) (hpush : ∀ v, i.op = .push v → V v) :
    Keeps I E (Machine.exec image i) fun _ => True := by
  obtain ⟨op, comment⟩ := i
  cases op with
  | push v => exact hI.push (hpush v rfl)
  | pop => exact .bind (hI.pop hV) fun _ _ => .pure trivial
  | load offset => exact .bind (hI.load hV offset) fun _ => hI.push
  | store offset => exact .bind (hI.pop hV) fun _ => hI.store hV offset
  | add => exact hI.arithmetic hV Value.add_present
  | sub => exact hI.arithmetic hV Value.arithmetic_present
  | mul => exact hI.arithmetic hV Value.mul_present
  | div => exact hI.divide hV
  | less =>
    exact .bind (hI.popPair hV) fun _ _ => .attempt_bind hV.crash fun _ =>
      hI.push (hV.present (by simp))
  | lessEq =>
    refine hI.withTwo hV fun y x hy hx => .check (hV.either_absent hx hy) ?_
    exact .attempt_bind hV.crash fun _ => hI.push (hV.present (by simp))
  | equal | notEqual =>
    exact .bind (hI.pop hV) fun _ _ => .bind (hI.pop hV) fun _ _ =>
      hI.push (hV.present (by simp))
  | and | or =>
    refine .bind (hI.popPair hV) fun p hp => hI.push ?_
    split
    · simp only [hp]
    · simp only [hp]
  | not =>
    exact .bind (hI.pop hV) fun x hx => .check (hV.absent hx) (hI.push (hV.present (by simp)))
  | write => exact hI.write hV
  | read => exact .bind (hI.readLine hV) fun _ _ => hI.push (hV.present (by simp))
  | length => exact hI.length hV
  | charAt => exact hI.charAt hV
  | toInt => exact hI.toInt hV
  | toDouble => exact hI.toDouble hV
  | toText => exact hI.toText hV
  | allocStruct =>
    refine .bind (hI.allocate (fun e he => ?_) hV) fun _ => hI.push
    cases he
  | setField field => exact hI.setField hV field
  | getField field => exact hI.getField hV field
  | allocArray => exact hI.allocArray hV
  | setItem => exact hI.setItem hV
  | getItem => exact hI.getItem hV
  | dup => exact .bind (hI.pop hV) fun _ hx => .bind (hI.push hx) fun _ _ => hI.push hx
  | nop => exact .pure trivial
  | unknown name operand => exact .attempt_bind hV.crash fun _ => .throw (hV.other rfl)
  | jump | jumpFalse | call | ret => cases hi

end Stable
end Operations
end Machine
end StackLang
