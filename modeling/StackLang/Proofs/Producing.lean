import StackLang.Proofs.Expressions

namespace StackLang

/-- Operations that keep to the innermost call, those that create objects among them. -/
def Op.steady : Op → Bool
  | allocStruct | allocArray | dup | setField _ => true
  | op => op.straight

abbrev Effect := List Value → Heap → Except Failure (Value × Heap)

/-- The effect of an operation on a right operand and the left one below it. -/
def Op.effect (op : Op) : Effect
  | [x, y], heap => (op.result y x).map (·, heap)
  | _, _ => .error (.crash .outOfRange)

/-- The effect of an operation whose sides take no operands, the left one first. -/
def Op.joined (op : Op) (r s : Effect) : Effect := fun _ heap => do
  let (y, heap) ← r [] heap
  let (x, heap) ← s [] heap
  (op.result y x).map (·, heap)

theorem exists_of_bind_ok {α β : Type} {x : Except Failure α} {k : α → Except Failure β} {b : β}
    (h : x >>= k = .ok b) : ∃ a, x = .ok a ∧ k a = .ok b := by
  cases x with
  | ok a => exact ⟨a, rfl, h⟩
  | error e => cases h

theorem Op.sides_of_joined {op : Op} {r s : Effect} {l : List Value} {heap heap' : Heap} {v : Value}
    (h : op.joined r s l heap = .ok (v, heap')) :
    ∃ y x heap₁, r [] heap = .ok (y, heap₁) ∧ s [] heap₁ = .ok (x, heap') ∧
      op.result y x = .ok v := by
  obtain ⟨⟨y, heap₁⟩, hy, h⟩ := exists_of_bind_ok h
  obtain ⟨⟨x, heap₂⟩, hx, h⟩ := exists_of_bind_ok h
  dsimp only at h
  cases hresult : op.result y x with
  | error e =>
    rw [hresult] at h
    cases h
  | ok w =>
    rw [hresult] at h
    cases h
    exact ⟨y, x, heap₁, hy, hx, hresult⟩

namespace Machine

namespace Blind

variable {σ : Veil} (hσ : ∀ h, σ.heap h = h)

include hσ

theorem onHeap (f : Heap → Heap) :
    Blind σ (modify fun m => { m with heap := f m.heap } : Exec Unit) := by
  intro m
  exact congrArg (fun h => EStateM.Result.ok () (Machine.mk h _ _ _))
    ((congrArg f (hσ m.heap)).trans (hσ _).symm)

theorem allocate (o : Object) : Blind σ (Machine.allocate o) := by
  intro m
  have hcover : Machine.allocate o (σ.cover m) = .ok (.int (σ.heap m.heap).nextId)
      { σ.cover m with heap := (σ.heap m.heap).alloc o } := rfl
  have hstate : onState σ.cover (Machine.allocate o m) = .ok (.int m.heap.nextId)
      { σ.cover m with heap := σ.heap (m.heap.alloc o) } := rfl
  rw [hcover, hstate, hσ, hσ]

theorem setField (field : Value) : Blind σ (Machine.setField field) :=
  .bind pop fun _ => .check _ (.bind pop fun owner => .check _
    (search (fun m => by rw [Veil.cover, hσ]) fun _ => onHeap hσ (·.replace owner _)))

theorem setItem : Blind σ Machine.setItem :=
  .bind pop fun _ => .bind pop fun _ => .bind pop fun owner => .check _
    (search (fun m => by rw [Veil.cover, hσ]) fun _ => .bind (itemIndex _ _ _) fun _ =>
      onHeap hσ (·.replace owner _))

theorem allocArray : Blind σ Machine.allocArray :=
  .bind (allocate hσ _) fun _ => .bind pop fun _ => .check _ (.bind (attempt _) fun _ =>
    .check _ (.bind (attempt _) fun _ => .bind (onHeap hσ (·.fill _)) fun _ => push _))

end Blind

theorem Local.exec_steady (image : Image) {op : Op} (h : op.steady) :
    Local (Machine.exec image (.plain op)) := by
  cases op with
  | allocStruct => exact .of_blind rfl fun _ => .bind (.allocate (fun _ => rfl) _) .push
  | allocArray => exact .of_blind rfl fun _ => .allocArray fun _ => rfl
  | dup => exact .of_blind rfl fun _ => .exec image rfl
  | setField field => exact .of_blind rfl fun _ => .setField (fun _ => rfl) field
  | _ => exact .exec image h

/-- A computation that has the effect on `n` operands, in any machine. -/
def Enacts (n : Nat) (p : Exec Unit) (r : Effect) : Prop :=
  ∀ base f below vars operands stack output, operands.length = n →
    Gains base f below vars stack output
      (p (working base f below vars (operands ++ stack) output)) (r operands base.heap)

/-- A computation whose effect on `n` operands depends on them and the heap only. -/
def Determined (n : Nat) (p : Exec Unit) : Prop := ∃ r, Enacts n p r

namespace Determined

variable {α : Type} {n : Nat} {p : Exec Unit}

theorem push (v : Value) : Determined 0 (Machine.push v) := by
  refine ⟨fun _ heap => .ok (v, heap), fun base f below vars operands stack output hn => ?_⟩
  obtain rfl := List.length_eq_zero_iff.1 hn
  rfl

theorem throw_bind (e : Failure) (k : α → Exec Unit) : Determined n (throw e >>= k) :=
  ⟨fun _ _ => .error e, fun _ _ _ _ _ _ _ _ => ⟨_, rfl, rfl⟩⟩

theorem pop {k : Value → Exec Unit} (hk : ∀ x, Determined n (k x)) :
    Determined (n + 1) (pop >>= k) := by
  choose r hr using hk
  refine ⟨fun operands => r (operands.headD .absent) operands.tail,
    fun base f below vars operands stack output hn => ?_⟩
  cases operands with
  | nil => cases hn
  | cons x operands => exact hr x base f below vars operands stack output (Nat.succ.inj hn)

theorem attempt {k : α → Exec Unit} (r : Except Crash α) (hk : ∀ a, Determined n (k a)) :
    Determined n (attempt r >>= k) := by
  cases r with
  | ok a => exact hk a
  | error c => exact throw_bind _ k

theorem check {c : Prop} [Decidable c] (e : MachineError) (hp : Determined n p) :
    Determined n (if c then do complain e; p else p) := by
  split
  · exact throw_bind _ _
  · exact hp

theorem search {s : Heap → Option α} {k : α → Exec Unit} (hk : ∀ a, Determined n (k a)) :
    Determined n (do k (← found (s (← get).heap))) := by
  choose r hr using hk
  refine ⟨fun operands heap => (s heap).elim (.error (.crash .unknownKey)) (r · operands heap),
    fun base f below vars operands stack output hn => ?_⟩
  change Gains base f below vars stack output ((found (s base.heap) >>= k) _)
    ((s base.heap).elim _ (r · operands base.heap))
  cases s base.heap with
  | none => exact ⟨_, rfl, rfl⟩
  | some a => exact hr a base f below vars operands stack output hn

theorem allocate {k : Value → Exec Unit} (o : Object) (hk : ∀ x, Determined n (k x)) :
    Determined n (Machine.allocate o >>= k) := by
  choose r hr using hk
  refine ⟨fun operands heap => r (.int heap.nextId) operands (heap.alloc o),
    fun base f below vars operands stack output hn => ?_⟩
  exact hr (.int base.heap.nextId) { base with heap := base.heap.alloc o } f below vars operands
    stack output hn

theorem onHeap (g : Heap → Heap) (hp : Determined n p) :
    Determined n (do modify fun m => { m with heap := g m.heap }; p) := by
  obtain ⟨r, hr⟩ := hp
  refine ⟨fun operands heap => r operands (g heap),
    fun base f below vars operands stack output hn => ?_⟩
  exact hr { base with heap := g base.heap } f below vars operands stack output hn

theorem keep (g : Heap → Heap) : Determined 1 (modify fun m => { m with heap := g m.heap }) := by
  refine ⟨fun operands heap => .ok (operands.headD .absent, g heap),
    fun base f below vars operands stack output hn => ?_⟩
  obtain ⟨x, rfl⟩ := List.length_eq_one_iff.1 hn
  rfl

end Determined

theorem setField_determined (field : Value) : Determined 3 (setField field) :=
  .pop fun value => .check _ (.pop fun owner => .check _
    (.search (s := (·.record? owner)) fun fields =>
      .keep (·.replace owner (.record (fields.put ⟨field⟩ value)))))

theorem allocArray_determined : Determined 1 allocArray :=
  .allocate _ fun _ => .pop fun _ => .check _ (.attempt _ fun _ => .check _ (.attempt _ fun _ =>
    .onHeap (·.fill _) (.push _)))

/-- Operations that have an effect on `n` operands, in whatever program. -/
def Acts (n : Nat) (ops : List Op) (r : Effect) : Prop := ∀ image, Enacts n (perform image ops) r

section Acts

variable {n k : Nat} {a b : List Op} {r s : Effect} {op : Op} {p : Exec Unit}

theorem Acts.one (hp : Enacts n p r) (h : ∀ image, exec image (.plain op) = p) : Acts n [op] r := by
  intro image
  rw [perform_singleton, h]
  exact hp

theorem acts_push (v : Value) : Acts 0 [.push v] fun _ heap => .ok (v, heap) := by
  intro image base f below vars operands stack output hn
  obtain rfl := List.length_eq_zero_iff.1 hn
  rfl

theorem acts_not : Acts 1 [.not] fun l heap => ((l.headD .absent).denied).map (·, heap) := by
  intro image base f below vars operands stack output hn
  obtain ⟨x, rfl⟩ := List.length_eq_one_iff.1 hn
  rw [perform_singleton, List.singleton_append, exec_not, operate_not]
  exact gains_of_leaves (leaves_settle _)

theorem acts_operation (h : op.isBinary) : Acts 2 [op] op.effect := by
  intro image base f below vars operands stack output hn
  obtain ⟨x, y, rfl⟩ := List.length_eq_two.1 hn
  rw [perform_singleton, List.cons_append, List.cons_append, List.nil_append, exec_operate h,
    operate_eq h]
  exact gains_of_leaves (leaves_settle _)

theorem Acts.append (ha : Acts k a r) (hb : Acts (n + 1) b s) :
    Acts (k + n) (a ++ b) fun l heap =>
      r (l.take k) heap >>= fun p => s (p.1 :: l.drop k) p.2 := by
  intro image base f below vars operands stack output hn
  have htake : (operands.take k).length = k := by rw [List.length_take]; omega
  have hdrop : (operands.drop k).length = n := by rw [List.length_drop]; omega
  have hsplit : operands ++ stack = operands.take k ++ (operands.drop k ++ stack) := by
    rw [← List.append_assoc, List.take_append_drop]
  have hfirst := ha image base f below vars (operands.take k) (operands.drop k ++ stack) output
    htake
  rw [perform_append, hsplit]
  simp only [bind, EStateM.bind, Except.bind]
  cases hr : r (operands.take k) base.heap with
  | error e =>
    rw [hr] at hfirst
    obtain ⟨m, hm, hout⟩ := hfirst
    simp only [hm]
    exact ⟨m, rfl, hout⟩
  | ok result =>
    obtain ⟨v, heap⟩ := result
    rw [hr] at hfirst
    simp only [Gains] at hfirst
    simp only [hfirst]
    exact hb image { base with heap } f below vars (v :: operands.drop k) stack output
      (congrArg (· + 1) hdrop)

theorem Acts.join (h : op.isBinary) (ha : Acts 0 a r) (hb : Acts 0 b s) :
    Acts 0 (a ++ (b ++ [op])) (op.joined r s) := by
  intro image base f below vars operands stack output hn
  obtain rfl := List.length_eq_zero_iff.1 hn
  exact ha.append (hb.append (acts_operation h)) image base f below vars [] stack output rfl

theorem Acts.dup (hb : Acts (n + 2) b s) :
    Acts (n + 1) (.dup :: b) fun l heap => s (l.headD .absent :: l) heap := by
  intro image base f below vars operands stack output hn
  cases operands with
  | nil => cases hn
  | cons x operands =>
    exact hb image base f below vars (x :: x :: operands) stack output (congrArg (· + 1) hn)

end Acts

theorem Stands.gives_effect {image : Image} {ops : List Op} {k : Nat} {f : Frame}
    {below : List Frame} {m : Machine} {r : Effect} (h : Stands ops k f below m)
    (hs : ∀ op ∈ ops, op.steady) (hops : Acts 0 ops r) :
    Gives image ops k f below m (r [] m.heap) := by
  have hgains := hops image m f below f.locals [] f.stack m.output rfl
  rw [List.nil_append, h.working] at hgains
  exact h.gives (fun op hop => .exec_steady image (hs op hop)) hgains

section Gives

variable {image : Image} {ops : List Op} {k : Nat} {f : Frame} {below : List Frame} {m : Machine}

theorem Gives.span {v : Value} {heap : Heap} (h : Gives image ops k f below m (.ok (v, heap))) :
    ∃ n, Machine.span image below.length k (k + ops.length) n m =
      some (.falls (m.arrived f below (k + ops.length) v heap)) := by
  refine ⟨1 + ops.length, (Moves.span_iff h).2 ⟨1, rfl, ?_⟩⟩
  simp [Machine.span, arrived, inside, calls]

theorem Gives.unique {r s : Except Failure (Value × Heap)} (hr : Gives image ops k f below m r)
    (hs : Gives image ops k f below m s) : r = s := by
  rcases r with e | ⟨v, heap⟩ <;> rcases s with e' | ⟨v', heap'⟩
  · obtain ⟨i, hi⟩ := Breaks.span hr
    obtain ⟨j, hj⟩ := Breaks.span hs
    cases span_unique hi hj
    rfl
  · obtain ⟨i, hi⟩ := Breaks.span hr
    obtain ⟨j, hj⟩ := hs.span
    cases span_unique hi hj
  · obtain ⟨i, hi⟩ := hr.span
    obtain ⟨j, hj⟩ := Breaks.span hs
    cases span_unique hi hj
  · obtain ⟨i, hi⟩ := hr.span
    obtain ⟨j, hj⟩ := hs.span
    simpa [arrived, and_comm] using span_unique hi hj

end Gives

/-- Code that has an effect on `n` operands. -/
structure Effective (n : Nat) (ops : List Op) : Prop where
  steady : ∀ op ∈ ops, op.steady
  acts : ∃ r, Acts n ops r

namespace Effective

variable {n k : Nat} {a b : List Op} {op : Op}

theorem push (v : Value) : Effective 0 [.push v] :=
  ⟨by simp [Op.steady, Op.straight], _, acts_push v⟩

theorem not : Effective 1 [.not] := ⟨by simp [Op.steady, Op.straight], _, acts_not⟩

theorem operation (h : op.isBinary) : Effective 2 [op] := by
  refine ⟨List.forall_mem_singleton.2 ?_, _, acts_operation h⟩
  cases op with
  | add | sub | mul | div | less | lessEq | equal | notEqual | and | or => rfl
  | _ => cases h

theorem one {p : Exec Unit} (hop : op.steady) (hp : Determined n p)
    (h : ∀ image, exec image (.plain op) = p) : Effective n [op] := by
  obtain ⟨r, hr⟩ := hp
  exact ⟨by simpa using hop, r, .one hr h⟩

theorem allocStruct : Effective 0 [.allocStruct] :=
  one rfl (.allocate (.record ⟨[]⟩) .push) fun _ => rfl

theorem allocArray : Effective 1 [.allocArray] := one rfl allocArray_determined fun _ => rfl

theorem setField (field : Value) : Effective 3 [.setField field] :=
  one rfl (setField_determined field) fun _ => rfl

theorem append (ha : Effective k a) (hb : Effective (n + 1) b) : Effective (k + n) (a ++ b) := by
  obtain ⟨r, hr⟩ := ha.acts
  obtain ⟨s, hs⟩ := hb.acts
  exact ⟨List.forall_mem_append.2 ⟨ha.steady, hb.steady⟩, _, hr.append hs⟩

theorem nil : Effective 1 [] := by
  refine ⟨by simp, fun l heap => .ok (l.headD .absent, heap), fun image => ?_⟩
  intro base f below vars operands stack output hn
  obtain ⟨x, rfl⟩ := List.length_eq_one_iff.1 hn
  rfl

theorem field (name : Value) (ha : Effective 0 a) :
    Effective 1 (.dup :: (a ++ [.setField name])) := by
  have hset := ha.append (setField name)
  obtain ⟨r, hr⟩ := hset.acts
  exact ⟨List.forall_mem_cons.2 ⟨rfl, hset.steady⟩, _, hr.dup⟩

end Effective

end Machine
end StackLang
