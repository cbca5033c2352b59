import StackLang.Proofs.Flow
import StackLang.Proofs.Variables

namespace StackLang

def Op.isBinary : Op → Bool
  | add | sub | mul | div | less | lessEq | equal | notEqual | and | or => true
  | _ => false

def Value.shown : Value → Except Crash String
  | absent => .ok "null"
  | bool b => .ok (if b then "true" else "false")
  | v => v.render

def ifPresent (e : MachineError) (y x : Value) (r : Except Failure Value) : Except Failure Value :=
  if x = .absent ∨ y = .absent then .error (.machine e) else r

def crashing {α : Type} : Except Crash α → Except Failure α
  | .ok a => .ok a
  | .error c => .error (.crash c)

/-- The result of an operation on a left and a right operand. Of the comparisons only that by "at
most" gives a text, and the connectives give one of their operands. -/
def Op.result (op : Op) (y x : Value) : Except Failure Value :=
  match op with
  | .add => ifPresent .operandsAbsent y x (crashing (y.add x))
  | .sub => ifPresent .operandsAbsent y x (crashing (y.sub x))
  | .mul => ifPresent .operandsAbsent y x (crashing (y.mul x))
  | .div => ifPresent .operandsAbsent y x
      (if x.same (.int 0) then .error (.machine .divisionByZero) else crashing (y.div x))
  | .less => ifPresent .operandAbsent y x (crashing (.bool <$> y.less x))
  | .lessEq => ifPresent .operandAbsent y x
      (crashing ((fun b => .text (if b then "true" else "false")) <$> y.lessEq x))
  | .equal => .ok (.bool (y.same x))
  | .notEqual => .ok (.bool !(y.same x))
  | .and => ifPresent .operandAbsent y x (.ok (if y.truthy then x else y))
  | .or => ifPresent .operandAbsent y x (.ok (if y.truthy then y else x))
  | _ => .error (.crash .wrongKind)

def Value.denied (x : Value) : Except Failure Value :=
  if x = .absent then .error (.machine .operandAbsent) else .ok (.bool !x.truthy)

namespace Machine

/-- A machine whose innermost call has the given variables and operands. -/
def working (base : Machine) (f : Frame) (below : List Frame) (vars stack : List Value)
    (output : String) : Machine :=
  { base with frames := { f with locals := vars, stack } :: below, output }

/-- The machine when an operation has taken its operands and found a result. -/
def settle (base : Machine) (f : Frame) (below : List Frame) (vars stack : List Value)
    (output : String) : Except Failure Value → EStateM.Result Failure Machine Unit
  | .ok v => .ok () (working base f below vars (v :: stack) output)
  | .error e => .error e (working base f below vars stack output)

def operate (op : Op) (operands : List Value) : Except Failure Value :=
  match exec .empty (.plain op) (working .empty (.enter ⟨"", 0, #[]⟩) [] [] operands "") with
  | .ok _ m => .ok ((m.frames.head?.bind fun f => f.stack.head?).getD .absent)
  | .error e _ => .error e

/-- A computation that takes nothing and ends by leaving a result, the same in any machine. -/
def Delivers (p : Exec Unit) (r : Except Failure Value) : Prop :=
  ∀ base f below vars stack output,
    p (working base f below vars stack output) = settle base f below vars stack output r

namespace Delivers

variable {p q : Exec Unit} {r s : Except Failure Value}

theorem push (v : Value) : Delivers (Machine.push v) (.ok v) := fun _ _ _ _ _ _ => rfl

theorem bind_throw {α : Type} (e : Failure) (k : α → Exec Unit) :
    Delivers (throw e >>= k) (.error e) := fun _ _ _ _ _ _ => rfl

theorem attempted (r : Except Crash Value) :
    Delivers (attempt r >>= Machine.push) (crashing r) := by
  cases r with
  | ok v => exact push v
  | error c => exact bind_throw _ _

theorem converted {α : Type} (r : Except Crash α) (f : α → Value) :
    Delivers (attempt r >>= fun a => Machine.push (f a)) (crashing (f <$> r)) := by
  cases r with
  | ok a => exact push (f a)
  | error c => exact bind_throw _ _

theorem ite {c : Prop} [Decidable c] (hp : Delivers p r) (hq : Delivers q s) :
    Delivers (if c then p else q) (if c then r else s) := by
  split
  · exact hp
  · exact hq

theorem guarded {c : Prop} [Decidable c] (e : MachineError) (hp : Delivers p r) :
    Delivers (if c then do complain e; p else p) (if c then .error (.machine e) else r) :=
  ite (bind_throw _ _) hp

theorem checked {c : Prop} [Decidable c] (e : MachineError) {pair : Value × Value}
    {k : Value × Value → Exec Unit} (hk : Delivers (k pair) r) :
    Delivers ((if c then do complain e; return pair else return pair) >>= k)
      (if c then .error (.machine e) else r) := by
  split
  · exact fun _ _ _ _ _ _ => rfl
  · exact hk

end Delivers

section Working

variable {op : Op}

theorem exec_two (h : op.isBinary) (x y : Value) :
    ∃ p, Delivers p (op.result y x) ∧ ∀ image base f below vars stack output,
      exec image (.plain op) (working base f below vars (x :: y :: stack) output) =
        p (working base f below vars stack output) := by
  cases op with
  | add | sub | mul =>
    exact ⟨_, .guarded .operandsAbsent (.attempted _), fun _ _ _ _ _ _ _ => rfl⟩
  | div =>
    exact ⟨_, .guarded .operandsAbsent (.guarded .divisionByZero (.attempted _)),
      fun _ _ _ _ _ _ _ => rfl⟩
  | less =>
    exact ⟨_, .checked .operandAbsent (.converted _ _), fun _ _ _ _ _ _ _ => rfl⟩
  | lessEq =>
    exact ⟨_, .guarded .operandAbsent (.converted _ _), fun _ _ _ _ _ _ _ => rfl⟩
  | equal | notEqual => exact ⟨_, .push _, fun _ _ _ _ _ _ _ => rfl⟩
  | and | or => exact ⟨_, .checked .operandAbsent (.push _), fun _ _ _ _ _ _ _ => rfl⟩
  | _ => cases h

theorem operate_eq (h : op.isBinary) (x y : Value) : operate op [x, y] = op.result y x := by
  obtain ⟨p, hr, hp⟩ := exec_two h x y
  rw [operate, hp, hr]
  cases op.result y x <;> rfl

theorem operate_not (x : Value) : operate .not [x] = x.denied := by
  cases x <;> rfl

variable {image : Image} {base : Machine} {f : Frame} {below : List Frame}
  {vars stack : List Value} {output : String} {v x y : Value}

theorem exec_operate (h : op.isBinary) :
    exec image (.plain op) (working base f below vars (x :: y :: stack) output) =
      settle base f below vars stack output (operate op [x, y]) := by
  obtain ⟨p, hr, hp⟩ := exec_two h x y
  rw [hp, hr, operate_eq h]

theorem exec_not :
    exec image (.plain .not) (working base f below vars (x :: stack) output) =
      settle base f below vars stack output (operate .not [x]) := by
  by_cases h : x = .absent
  · subst h
    rfl
  · cases x with
    | absent => exact absurd rfl h
    | _ => rfl

theorem exec_load_working {k : Nat} (h : vars[k]? = some v) :
    exec image (.plain (.load (.int k))) (working base f below vars stack output) =
      .ok () (working base f below vars (v :: stack) output) := by
  have hload : exec image (.plain (.load (.int k))) (working base f below vars stack output) = _ :=
    exec_load rfl
  rw [hload]
  simp only [h]
  rfl

theorem exec_store_working (h : (vars.length : Int) < Value.sizeLimit) :
    exec image (.plain (.store (.int vars.length)))
        (working base f below vars (v :: stack) output) =
      .ok () (working base f below (vars ++ [v]) stack output) := by
  rw [← insertAt_of_le (Nat.le_refl _)]
  exact exec_store (f := { f with locals := vars, stack := v :: stack }) rfl rfl h

theorem exec_write (image : Image) (base : Machine) (f : Frame) (below : List Frame)
    (vars stack : List Value) (output : String) (v : Value) :
    exec image (.plain .write) (working base f below vars (v :: stack) output) =
      (attempt v.shown >>= print) (working base f below vars stack output) := by
  cases v <;> rfl

theorem exec_write_shown {s : String} (h : v.shown = .ok s) :
    exec image (.plain .write) (working base f below vars (v :: stack) output) =
      .ok () (working base f below vars stack (output ++ s)) := by
  rw [exec_write, h]
  rfl

theorem exec_write_unshown {c : Crash} (h : v.shown = .error c) :
    exec image (.plain .write) (working base f below vars (v :: stack) output) =
      .error (.crash c) (working base f below vars stack output) := by
  rw [exec_write, h]
  rfl

theorem perform_singleton (image : Image) (op : Op) :
    perform image [op] = exec image (.plain op) := by
  simp [perform]

theorem perform_append (image : Image) (a b : List Op) :
    perform image (a ++ b) = (do perform image a; perform image b) := by
  induction a with
  | nil => rfl
  | cons op a ih => simp only [List.cons_append, perform, ih, bind_assoc]

end Working
end Machine
end StackLang
