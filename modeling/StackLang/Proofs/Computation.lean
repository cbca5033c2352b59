import StackLang.Proofs.Evaluation

namespace StackLang

/-- Operations that make one operand of the top one. -/
def Op.isUnary : Op → Bool
  | not | length | toInt | toDouble | toText | getField _ => true
  | _ => false

/-- Operations that make one operand of the two on top. -/
def Op.merges (op : Op) : Bool := op.isBinary || op = .charAt || op = .getItem

namespace Machine

/-- Computations that leave the machine as it is. -/
def Quiet {α : Type} (x : Exec α) : Prop := ∀ m, (∃ a, x m = .ok a m) ∨ ∃ e, x m = .error e m

namespace Quiet

variable {α β : Type}

protected theorem pure (a : α) : Quiet (pure a) := fun _ => .inl ⟨a, rfl⟩

protected theorem throw (e : Failure) : Quiet (throw e : Exec α) := fun _ => .inr ⟨e, rfl⟩

theorem bind {x : Exec α} {k : α → Exec β} (hx : Quiet x) (hk : ∀ a, Quiet (k a)) :
    Quiet (x >>= k) := by
  intro m
  obtain ⟨a, ha⟩ | ⟨e, he⟩ := hx m
  · obtain ⟨b, hb⟩ | ⟨e, he⟩ := hk a m
    · exact .inl ⟨b, bind_eq_ok.2 ⟨a, m, ha, hb⟩⟩
    · exact .inr ⟨e, bind_eq_error.2 (.inr ⟨a, m, ha, he⟩)⟩
  · exact .inr ⟨e, bind_eq_error.2 (.inl he)⟩

theorem check {c : Prop} [Decidable c] {x : Exec α} (e : MachineError) (hx : Quiet x) :
    Quiet (if c then do complain e; x else x) := by
  split
  · exact .bind (.throw _) fun _ => hx
  · exact hx

theorem attempt (r : Except Crash α) : Quiet (Machine.attempt r) := by
  cases r with
  | ok a => exact .pure a
  | error c => exact .throw _

theorem found (o : Option α) : Quiet (Machine.found o) := by
  cases o with
  | some a => exact .pure a
  | none => exact .throw _

theorem numeral (o : Option α) : Quiet (Machine.numeral o) := by
  cases o with
  | some a => exact .pure a
  | none => exact .throw _

theorem frame : Quiet Machine.frame := by
  rintro ⟨heap, _ | ⟨f, rest⟩, input, output⟩
  · exact .inr ⟨_, rfl⟩
  · exact .inl ⟨f, rfl⟩

theorem load (offset : Value) : Quiet (Machine.load offset) := by
  refine .bind (attempt _) fun i => .bind frame fun f => ?_
  dsimp only
  cases if 0 ≤ i then some i.toNat else place? f.locals.length i with
  | none => exact .throw _
  | some k =>
    dsimp only
    cases f.locals[k]? with
    | none => exact .throw _
    | some v => exact .pure v

theorem characterIndex (last : Int) (i : Value) : Quiet (Machine.characterIndex last i) := by
  refine .bind (attempt _) fun _ => .check _ (.bind (attempt _) fun _ => .check _ ?_)
  exact .bind (attempt _) fun _ => .pure _

theorem itemIndex (n : Nat) (i : Value) (e : MachineError) : Quiet (Machine.itemIndex n i e) := by
  refine .bind (attempt _) fun _ => .check _ (.bind (attempt _) fun _ => .check _ ?_)
  exact .bind (attempt _) fun _ => .pure _

end Quiet

/-- A computation that takes `n` operands off and puts one on, or fails before anything is
written. -/
def Makes (n : Nat) (p : Exec Unit) : Prop :=
  ∀ base f below vars operands stack output, operands.length = n →
    ∃ r, Leaves base f below vars stack output
      (p (working base f below vars (operands ++ stack) output)) r

namespace Makes

variable {α : Type} {n : Nat} {p q : Exec Unit}

theorem push (v : Value) : Makes 0 (Machine.push v) := by
  intro base f below vars operands stack output hn
  obtain rfl := List.length_eq_zero_iff.1 hn
  exact ⟨.ok v, rfl⟩

protected theorem throw (e : Failure) : Makes n (throw e) :=
  fun _ _ _ _ _ _ _ _ => ⟨.error e, rfl, rfl⟩

theorem pop {k : Value → Exec Unit} (hk : ∀ x, Makes n (k x)) : Makes (n + 1) (pop >>= k) := by
  intro base f below vars operands stack output hn
  cases operands with
  | nil => cases hn
  | cons x operands =>
    exact hk x base f below vars operands stack output (Nat.succ.inj hn)

theorem bind {x : Exec α} {k : α → Exec Unit} (hx : Quiet x) (hk : ∀ a, Makes n (k a)) :
    Makes n (x >>= k) := by
  intro base f below vars operands stack output hn
  simp only [Bind.bind, EStateM.bind]
  obtain ⟨a, ha⟩ | ⟨e, he⟩ := hx (working base f below vars (operands ++ stack) output)
  · rw [ha]
    exact hk a base f below vars operands stack output hn
  · rw [he]
    exact ⟨.error e, rfl, rfl⟩

theorem check {c : Prop} [Decidable c] (e : MachineError) (hp : Makes n p) :
    Makes n (if c then do complain e; p else p) := by
  split
  · exact .bind (.throw _) fun _ => hp
  · exact hp

theorem search {s : Machine → Option α} {k : α → Exec Unit} (hk : ∀ a, Makes n (k a)) :
    Makes n (do k (← found (s (← get)))) := by
  intro base f below vars operands stack output
  exact Makes.bind (.found (s (working base f below vars (operands ++ stack) output))) hk base f
    below vars operands stack output

theorem after (hp : Makes 0 p) (hq : Makes (n + 1) q) : Makes n (do p; q) := by
  intro base f below vars operands stack output hn
  simp only [Bind.bind, EStateM.bind]
  obtain ⟨r, hr⟩ := hp base f below vars [] (operands ++ stack) output rfl
  rw [List.nil_append] at hr
  cases r with
  | error e =>
    obtain ⟨m, hm, hout⟩ := leaves_error.1 hr
    rw [hm]
    exact ⟨.error e, rfl, hout⟩
  | ok v =>
    rw [leaves_ok.1 hr]
    exact hq base f below vars (v :: operands) stack output (congrArg (· + 1) hn)

end Makes

theorem length_makes : Makes 1 length := by
  refine .pop fun x => ?_
  have hsize : Makes 0 (do Machine.push (.int (← found ((← get).heap.array? x)).size)) :=
    .search fun _ => .push _
  cases x with
  | text s => exact .push _
  | absent => exact .throw _
  | _ => exact hsize

theorem toInt_makes : Makes 1 toInt := by
  refine .pop fun x => ?_
  cases x with
  | double d => exact .bind (.attempt _) .push
  | text s =>
    dsimp only
    split
    · exact .bind (.numeral _) fun _ => .push _
    · exact .throw _
  | _ => exact .throw _

theorem toDouble_makes : Makes 1 toDouble := by
  refine .pop fun x => ?_
  cases x with
  | absent => exact .throw _
  | text s =>
    dsimp only
    split
    · exact .bind (.numeral _) fun _ => .push _
    · exact .throw _
  | bool b => exact .bind (.attempt _) fun _ => .push _
  | int i => exact .bind (.attempt _) fun _ => .push _
  | double d => exact .bind (.attempt _) fun _ => .push _

theorem charAt_makes : Makes 2 charAt := by
  refine .pop fun x => .check _ (.pop fun y => .check _ ?_)
  cases x with
  | text s =>
    refine .bind (.characterIndex _ y) fun i => ?_
    cases s.toList[i]? with
    | some c => exact .push _
    | none => exact .throw _
  | _ => exact .throw _

theorem getItem_makes : Makes 2 getItem := by
  refine .pop fun i => .pop fun owner => .check _ (.search fun items => ?_)
  refine .bind (.itemIndex _ i _) fun k => ?_
  cases items[k]? with
  | some v => exact .push v
  | none => exact .throw _

theorem exec_makes_one (image : Image) {op : Op} (h : op.isUnary) :
    Makes 1 (exec image (.plain op)) := by
  cases op with
  | not => exact .pop fun _ => .check _ (.push _)
  | length => exact length_makes
  | toInt => exact toInt_makes
  | toDouble => exact toDouble_makes
  | toText => exact .pop fun _ => .check _ (.bind (.attempt _) fun _ => .push _)
  | getField field => exact .pop fun _ => .check _ (.search fun _ => .bind (.found _) .push)
  | _ => cases h

theorem exec_makes_two (image : Image) {op : Op} (h : op.merges) :
    Makes 2 (exec image (.plain op)) := by
  simp only [Op.merges, Bool.or_eq_true, decide_eq_true_eq] at h
  obtain (h | rfl) | rfl := h
  · intro base f below vars operands stack output hn
    obtain ⟨x, y, rfl⟩ := List.length_eq_two.1 hn
    refine ⟨operate op [x, y], ?_⟩
    rw [List.cons_append, List.cons_append, List.nil_append, exec_operate h]
    exact leaves_settle _
  · exact charAt_makes
  · exact getItem_makes

/-- Operations that put one value on top, or fail before anything is written. -/
def Computes (image : Image) (ops : List Op) : Prop := Makes 0 (perform image ops)

namespace Computes

variable {image : Image} {a b : List Op} {op : Op}

theorem push (v : Value) : Computes image [.push v] := by
  rw [Computes, perform_singleton]
  exact .push v

theorem load (offset : Value) : Computes image [.load offset] := by
  rw [Computes, perform_singleton]
  exact .bind (.load offset) .push

theorem one (ha : Computes image a) (hop : op.isUnary) : Computes image (a ++ [op]) := by
  rw [Computes, perform_append, perform_singleton]
  exact .after ha (exec_makes_one image hop)

theorem two (ha : Computes image a) (hb : Computes image b) (hop : op.merges) :
    Computes image (a ++ (b ++ [op])) := by
  rw [Computes, perform_append, perform_append, perform_singleton]
  exact .after ha (.after hb (exec_makes_two image hop))

theorem exchange {v : Value} (h : Computes image (a ++ [.push v])) (w : Value) :
    Computes image (a ++ [.push w]) := by
  intro base f below vars operands stack output hn
  obtain ⟨r, hr⟩ := h base f below vars operands stack output hn
  rw [perform_append, perform_singleton] at hr ⊢
  simp only [Bind.bind, EStateM.bind] at hr ⊢
  cases ha : perform image a (working base f below vars (operands ++ stack) output) with
  | error e m =>
    rw [ha] at hr
    exact ⟨r, hr⟩
  | ok u m =>
    rw [ha] at hr
    obtain ⟨heap, _ | ⟨⟨t, pc, vars', stack'⟩, rest⟩, input, output'⟩ := m
    · cases r with
      | error e => cases hr
      | ok x => cases leaves_ok.1 hr
    · cases r with
      | error e => cases hr
      | ok x =>
        cases leaves_ok.1 hr
        exact ⟨.ok w, rfl⟩

end Computes

theorem test_of_computes {image : Image} {ops : List Op} {m : Machine} {f : Frame}
    {below : List Frame} (h : Computes image ops) (hm : m.frames = f :: below) :
    (∃ b, test image ops m = .ok b m) ∨
      ∃ e m', test image ops m = .error e m' ∧ m'.output = m.output := by
  obtain ⟨heap, frames, input, output⟩ := m
  cases hm
  obtain ⟨r, hr⟩ := h ⟨heap, [], input, output⟩ f below f.locals [] f.stack output rfl
  cases r with
  | error e =>
    obtain ⟨m', hm', hout⟩ := leaves_error.1 hr
    exact .inr ⟨e, m', bind_eq_error.2 (.inl hm'), hout⟩
  | ok v =>
    refine .inl ⟨v.holds, bind_eq_ok.2 ⟨(), _, leaves_ok.1 hr, ?_⟩⟩
    rfl

end Machine
end StackLang
