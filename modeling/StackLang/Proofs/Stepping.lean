import StackLang.Machine
import StackLang.Proofs.Results

namespace StackLang

/-- Operations that only work on the operands, the variables and the output, and may look at the
heap. -/
def Op.straight : Op → Bool
  | push _ | load _ | store _ | add | sub | mul | div | less | lessEq | equal | notEqual
  | and | or | not | write | length | charAt | toInt | toDouble | toText | getField _
  | getItem => true
  | _ => false

/-- Operations that look at nothing but the operands, the variables and the input. -/
def Op.onOperands : Op → Bool
  | push _ | pop | load _ | store _ | add | sub | mul | div | less | lessEq | equal | notEqual
  | and | or | not | write | read | charAt | toInt | toDouble | toText | dup | nop
  | unknown .. => true
  | _ => false

namespace Value

theorem scaled_int (i : Int) : Double.scaled (i < 0) i.natAbs 0 0 = i := by
  simp only [Double.scaled, Int.sub_self, Int.toNat_zero, Nat.pow_eq, Nat.pow_zero, Nat.mul_one,
    decide_eq_true_eq]
  omega

theorem ordered_int (i j : Int) : ordered (int i) (int j) = .ok (some (compare i j)) := by
  simp only [ordered, number?, Number.exact, Double.exactly, Double.compare, Int.min_self,
    scaled_int]

theorem less_int (i j : Int) : less (int i) (int j) = .ok (decide (i < j)) := by
  simp only [less, ordered_int, bind, Except.bind, pure, Except.pure]
  congr 1
  rw [Bool.eq_iff_iff]
  simp [Int.compare_eq_lt]

theorem lessEq_int (i j : Int) : lessEq (int i) (int j) = .ok (decide (i ≤ j)) := by
  simp only [lessEq, ordered_int, bind, Except.bind, pure, Except.pure, Option.any_some]
  congr 1
  rw [Bool.eq_iff_iff]
  simp [Int.compare_ne_gt]

theorem same_int (i j : Int) : same (int i) (int j) = decide (i = j) := by
  simp only [same, number?, Number.exact, Double.exactly, Double.compare, Int.min_self, scaled_int]
  rw [Bool.eq_iff_iff]
  simp

end Value

namespace Machine

/-- The machine about to execute the instruction at place `k` of its innermost call. -/
def seek (k : Nat) (m : Machine) : Machine :=
  match m.frames with
  | [] => m
  | f :: rest => { m with frames := { f with pc := .int k } :: rest }

/-- The functions that are being called, the innermost first. -/
def calls (m : Machine) : List Template := m.frames.map Frame.template

@[simp] theorem seek_seek (m : Machine) (j k : Nat) : (m.seek j).seek k = m.seek k := by
  cases h : m.frames <;> simp [seek, h]

@[simp] theorem calls_seek (m : Machine) (k : Nat) : (m.seek k).calls = m.calls := by
  cases h : m.frames <;> simp [seek, calls, h]

@[simp] theorem output_seek (m : Machine) (k : Nat) : (m.seek k).output = m.output := by
  cases h : m.frames <;> simp [seek, h]

/-- A change of what operations on operands and variables do not look at: the place of the next
instruction and the heap. -/
structure Veil where
  pc : Value → Value
  heap : Heap → Heap

namespace Veil

/-- Only the place of the next instruction changes. -/
def place (k : Nat) : Veil := ⟨fun _ => .int k, id⟩

/-- Only the heap changes. -/
def objects (h : Heap) : Veil := ⟨id, fun _ => h⟩

def cover (σ : Veil) (m : Machine) : Machine where
  heap := σ.heap m.heap
  frames :=
    match m.frames with
    | [] => []
    | f :: rest => { f with pc := σ.pc f.pc } :: rest
  input := m.input
  output := m.output

theorem cover_place (k : Nat) : (place k).cover = Machine.seek k := by
  funext m
  obtain ⟨heap, _ | ⟨f, rest⟩, input, output⟩ := m <;> rfl

theorem cover_objects (h : Heap) : (objects h).cover = fun m => { m with heap := h } := by
  funext m
  obtain ⟨heap, _ | ⟨f, rest⟩, input, output⟩ := m <;> rfl

end Veil

/-- Computations that make no difference between a machine and what it changes to. -/
def Blind {α : Type} (σ : Veil) (x : Exec α) : Prop := ∀ m, x (σ.cover m) = onState σ.cover (x m)

namespace Blind

variable {α β : Type} {σ : Veil}

protected theorem pure (a : α) : Blind σ (pure a) := fun _ => rfl

protected theorem throw (e : Failure) : Blind σ (throw e : Exec α) := fun _ => rfl

theorem bind {x : Exec α} {f : α → Exec β} (hx : Blind σ x) (hf : ∀ a, Blind σ (f a)) :
    Blind σ (x >>= f) := by
  intro m
  simp only [Bind.bind, EStateM.bind, hx m]
  cases x m with
  | ok a m' => exact hf a m'
  | error e m' => rfl

theorem ite {p : Prop} [Decidable p] {x y : Exec α} (hx : Blind σ x) (hy : Blind σ y) :
    Blind σ (if p then x else y) := by
  split
  · exact hx
  · exact hy

theorem attempt (r : Except Crash α) : Blind σ (Machine.attempt r) := by
  cases r with
  | ok a => exact .pure a
  | error c => exact .throw _

theorem complain (e : MachineError) : Blind σ (Machine.complain e : Exec α) := .throw _

theorem found (o : Option α) : Blind σ (Machine.found o) := by
  cases o with
  | some a => exact .pure a
  | none => exact .throw _

theorem numeral (o : Option α) : Blind σ (Machine.numeral o) := by
  cases o with
  | some a => exact .pure a
  | none => exact .throw _

theorem search {q : Machine → Option α} {f : α → Exec β} (hq : ∀ m, q (σ.cover m) = q m)
    (hf : ∀ a, Blind σ (f a)) : Blind σ (do f (← Machine.found (q (← get)))) := by
  intro m
  have hget (m : Machine) : (do f (← Machine.found (q (← get))) : Exec β) m =
      (Machine.found (q m) >>= f) m := rfl
  rw [hget, hget, hq, Blind.bind (found (q m)) hf m]

theorem check {p : Prop} [Decidable p] {x : Exec α} (e : MachineError) (hx : Blind σ x) :
    Blind σ (if p then do Machine.complain e; x else x) :=
  .ite (.bind (complain e) fun _ => hx) hx

theorem onFrame {f : Frame → Frame} (hpc : ∀ r, f { r with pc := σ.pc r.pc } =
    { f r with pc := σ.pc (f r).pc }) : Blind σ (Machine.onFrame f) := by
  rintro ⟨heap, _ | ⟨r, rest⟩, input, output⟩
  · rfl
  · exact congrArg (fun r' => EStateM.Result.ok () (Machine.mk _ (r' :: rest) input output)) (hpc r)

theorem push (v : Value) : Blind σ (Machine.push v) := onFrame fun _ => rfl

theorem print (s : String) : Blind σ (Machine.print s) := fun _ => rfl

theorem frame {f : Frame → Exec α} (hpc : ∀ r, f { r with pc := σ.pc r.pc } = f r)
    (hf : ∀ r, Blind σ (f r)) : Blind σ (Machine.frame >>= f) := by
  rintro ⟨heap, _ | ⟨r, rest⟩, input, output⟩
  · rfl
  · exact (congrFun (hpc r) _).trans (hf r ⟨heap, r :: rest, input, output⟩)

theorem pop : Blind σ Machine.pop := by
  refine frame (fun _ => rfl) fun r => ?_
  rcases r.stack with _ | ⟨v, rest⟩
  · exact .throw _
  · exact .bind (onFrame fun _ => rfl) fun _ => .pure v

theorem withTwo {k : Value → Value → Exec Unit} (hk : ∀ y x, Blind σ (k y x)) :
    Blind σ (Machine.withTwo k) := by
  refine frame (fun _ => rfl) fun r => ?_
  rcases r.stack with _ | ⟨x, _ | ⟨y, rest⟩⟩
  · exact .pure ()
  · exact .pure ()
  · exact .bind pop fun x => .bind pop fun y => hk y x

theorem arithmetic (f : Value → Value → Except Crash Value) : Blind σ (Machine.arithmetic f) :=
  withTwo fun _ _ => .check _ (.bind (attempt _) push)

theorem divide : Blind σ Machine.divide :=
  withTwo fun _ _ => .check _ (.check _ (.bind (attempt _) push))

theorem popPair : Blind σ Machine.popPair :=
  .bind pop fun _ => .bind pop fun _ => .check _ (.pure _)

theorem store (offset x : Value) : Blind σ (Machine.store offset x) := by
  refine .bind (attempt _) fun i => ?_
  dsimp only
  exact .ite (.bind (.throw _) fun _ => onFrame fun _ => rfl) (onFrame fun _ => rfl)

theorem load (offset : Value) : Blind σ (Machine.load offset) := by
  refine .bind (attempt _) fun i => frame (fun _ => rfl) fun r => ?_
  dsimp only
  rcases (if 0 ≤ i then some i.toNat else place? r.locals.length i) with _ | k
  · exact .throw _
  · dsimp only
    rcases r.locals[k]? with _ | v
    · exact .throw _
    · exact .pure v

theorem write : Blind σ Machine.write := by
  refine frame (fun _ => rfl) fun r => ?_
  rcases r.stack with _ | ⟨v, rest⟩
  · exact .pure ()
  · refine .bind pop fun v => ?_
    cases v with
    | absent | bool => exact print _
    | int | double | text => exact .bind (attempt _) fun _ => print _

theorem readLine : Blind σ Machine.readLine := by
  rintro ⟨heap, frames, _ | ⟨c, input⟩, output⟩ <;> rfl

theorem characterIndex (last : Int) (i : Value) : Blind σ (Machine.characterIndex last i) :=
  .bind (attempt _) fun _ => .check _ (.bind (attempt _) fun _ => .check _
    (.bind (attempt _) fun _ => .pure _))

theorem itemIndex (n : Nat) (i : Value) (e : MachineError) : Blind σ (Machine.itemIndex n i e) :=
  .bind (attempt _) fun _ => .check _ (.bind (attempt _) fun _ => .check _
    (.bind (attempt _) fun _ => .pure _))

theorem charAt : Blind σ Machine.charAt := by
  refine .bind pop fun x => .check _ (.bind pop fun y => .check _ ?_)
  cases x with
  | text s =>
    refine .bind (characterIndex _ y) fun i => ?_
    cases s.toList[i]? with
    | some c => exact push _
    | none => exact .throw _
  | _ => exact .throw _

theorem toInt : Blind σ Machine.toInt := by
  refine .bind pop fun x => ?_
  cases x with
  | double d => exact .bind (attempt _) push
  | text s => exact .ite (.bind (numeral _) fun _ => push _) (complain _)
  | _ => exact complain _

theorem toDouble : Blind σ Machine.toDouble := by
  refine .bind pop fun x => ?_
  cases x with
  | absent => exact complain _
  | text s => exact .ite (.bind (numeral _) fun _ => push _) (complain _)
  | bool | int | double => exact .bind (attempt _) fun _ => push _

theorem toText : Blind σ Machine.toText :=
  .bind pop fun _ => .check _ (.bind (attempt _) fun _ => push _)

section Heap

variable (hσ : ∀ h, σ.heap h = h)

include hσ

theorem length : Blind σ Machine.length := by
  refine .bind pop fun x => ?_
  have hsize : Blind σ (do
      Machine.push (.int (← Machine.found ((← get).heap.array? x)).size)) :=
    search (fun m => by rw [Veil.cover, hσ]) fun _ => push _
  cases x with
  | text s => exact push _
  | absent => exact complain _
  | _ => exact hsize

theorem getField (field : Value) : Blind σ (Machine.getField field) :=
  .bind pop fun owner => .check _ (search (fun m => by rw [Veil.cover, hσ]) fun _ =>
    .bind (found _) push)

theorem getItem : Blind σ Machine.getItem := by
  refine .bind pop fun i => .bind pop fun owner => .check _
    (search (fun m => by rw [Veil.cover, hσ]) fun items => .bind (itemIndex _ i _) fun k => ?_)
  cases items[k]? with
  | some v => exact push v
  | none => exact .throw _

end Heap

theorem exec (image : Image) {i : Instr} (h : i.op.onOperands) : Blind σ (Machine.exec image i) := by
  obtain ⟨op, comment⟩ := i
  cases op with
  | push v => exact push v
  | pop => exact .bind pop fun _ => .pure _
  | load offset => exact .bind (load offset) push
  | store offset => exact .bind pop (store offset)
  | add | sub | mul => exact arithmetic _
  | div => exact divide
  | less => exact .bind popPair fun _ => .bind (attempt _) fun _ => push _
  | lessEq => exact withTwo fun _ _ => .check _ (.bind (attempt _) fun _ => push _)
  | equal | notEqual => exact .bind pop fun _ => .bind pop fun _ => push _
  | and | or => exact .bind popPair fun _ => push _
  | not => exact .bind pop fun _ => .check _ (push _)
  | write => exact write
  | read => exact .bind readLine fun _ => push _
  | charAt => exact charAt
  | toInt => exact toInt
  | toDouble => exact toDouble
  | toText => exact toText
  | dup => exact .bind pop fun _ => .bind (push _) fun _ => push _
  | nop => exact .pure ()
  | unknown => exact .bind (attempt _) fun _ => complain _
  | _ => cases h

end Blind

theorem fetch_place {t : Template} {k : Nat} {i : Instr} (h : t.code[k]? = some i) :
    fetch t (.int k) = .ok i := by
  have hk : (k : Int) < t.code.size := by
    have := (Array.getElem?_eq_some_iff.1 h).1
    omega
  simp [fetch, Value.position, place?, hk, h, bind, Except.bind]

theorem step_seek {image : Image} {m : Machine} {t : Template} {ts : List Template} {k : Nat}
    {i : Instr} (hm : m.calls = t :: ts) (hi : t.code[k]? = some i) :
    step image false (m.seek k) = (do exec image i; return true) (m.seek (k + 1)) := by
  obtain ⟨heap, _ | ⟨f, rest⟩, input, output⟩ := m
  · cases hm
  · obtain ⟨rfl, rfl⟩ := List.cons.inj hm
    have hk : (k : Int) < f.template.code.size := by
      have := (Array.getElem?_eq_some_iff.1 hi).1
      omega
    have hless := Value.less_int k f.template.code.size
    have hadd : Value.add (.int k) (.int 1) = .ok (.int (k + 1)) := rfl
    have hget (m : Machine) : (get : Exec Machine) m = .ok m m := rfl
    simp only [step, bind, EStateM.bind, hget, seek, hless, hk, fetch_place hi, hadd, attempt, pure,
      EStateM.pure]
    rfl

end Machine
end StackLang
