import StackLang.Proofs.Stepping

namespace StackLang

inductive Flow where
  | act (ops : List Op)
  | ret (ops : List Op)
  | seq (p q : Flow)
  | branch (test : List Op) (p : Flow)
  | loop (test : List Op) (p : Flow)

/-- How a piece of code ends: it is run through, it leaves its call, or an operation fails when
some output was written. -/
inductive Finish where
  | falls (m : Machine)
  | returns (m : Machine)
  | raises (e : Failure) (output : String)

namespace Finish

def stops : Finish → Prop
  | falls _ => False
  | returns _ | raises .. => True

def movedTo (k : Nat) : Finish → Finish
  | falls m => falls (m.seek k)
  | r => r

end Finish

/-- The text "false" does not hold as a condition, although it is not empty. -/
def Value.holds (v : Value) : Bool := v.truthy && v != .text "false"

namespace Machine

def perform (image : Image) : List Op → Exec Unit
  | [] => pure ()
  | op :: ops => do
    exec image (.plain op)
    perform image ops

def test (image : Image) (ops : List Op) : Exec Bool := do
  perform image ops
  return (← pop).holds

def leave (image : Image) (ops : List Op) : Exec Unit := do
  perform image ops
  ret

end Machine

namespace Flow

open Machine

inductive Executes (image : Image) : Flow → Machine → Finish → Prop
  | act {ops : List Op} {m m' : Machine} :
      perform image ops m = .ok () m' → Executes image (.act ops) m (.falls m')
  | act_fails {ops : List Op} {m m' : Machine} {e : Failure} :
      perform image ops m = .error e m' → Executes image (.act ops) m (.raises e m'.output)
  | ret {ops : List Op} {m m' : Machine} :
      leave image ops m = .ok () m' → Executes image (.ret ops) m (.returns m')
  | ret_fails {ops : List Op} {m m' : Machine} {e : Failure} :
      leave image ops m = .error e m' → Executes image (.ret ops) m (.raises e m'.output)
  | seq {p q : Flow} {m m' : Machine} {r : Finish} :
      Executes image p m (.falls m') → Executes image q m' r → Executes image (.seq p q) m r
  | seq_stops {p q : Flow} {m : Machine} {r : Finish} :
      Executes image p m r → r.stops → Executes image (.seq p q) m r
  | branch_true {ops : List Op} {p : Flow} {m m' : Machine} {r : Finish} :
      test image ops m = .ok true m' → Executes image p m' r → Executes image (.branch ops p) m r
  | branch_false {ops : List Op} {p : Flow} {m m' : Machine} :
      test image ops m = .ok false m' → Executes image (.branch ops p) m (.falls m')
  | branch_fails {ops : List Op} {p : Flow} {m m' : Machine} {e : Failure} :
      test image ops m = .error e m' → Executes image (.branch ops p) m (.raises e m'.output)
  | loop_true {ops : List Op} {p : Flow} {m m₁ m₂ : Machine} {r : Finish} :
      test image ops m = .ok true m₁ → Executes image p m₁ (.falls m₂) →
      Executes image (.loop ops p) m₂ r → Executes image (.loop ops p) m r
  | loop_stops {ops : List Op} {p : Flow} {m m' : Machine} {r : Finish} :
      test image ops m = .ok true m' → Executes image p m' r → r.stops →
      Executes image (.loop ops p) m r
  | loop_false {ops : List Op} {p : Flow} {m m' : Machine} :
      test image ops m = .ok false m' → Executes image (.loop ops p) m (.falls m')
  | loop_fails {ops : List Op} {p : Flow} {m m' : Machine} {e : Failure} :
      test image ops m = .error e m' → Executes image (.loop ops p) m (.raises e m'.output)

def straight : Flow → Prop
  | act ops | ret ops => ∀ op ∈ ops, op.straight
  | seq p q => p.straight ∧ q.straight
  | branch ops p | loop ops p => (∀ op ∈ ops, op.straight) ∧ p.straight

def size : Flow → Nat
  | act ops => ops.length
  | ret ops => ops.length + 1
  | seq p q => p.size + q.size
  | branch ops p | loop ops p => ops.length + 1 + p.size + 2

def guarded (test : List Op) (body : List Op) (back landing : Nat) : List Op :=
  test ++ .jumpFalse (.int landing) :: (body ++ [.jump (.int back), .nop])

def code : Flow → Nat → List Op
  | act ops, _ => ops
  | ret ops, _ => ops ++ [.ret]
  | seq p q, k => p.code k ++ q.code (k + p.size)
  | branch ops p, k =>
    let landing := k + (ops.length + 1 + p.size + 1)
    guarded ops (p.code (k + (ops.length + 1))) landing landing
  | loop ops p, k =>
    guarded ops (p.code (k + (ops.length + 1))) k (k + (ops.length + 1 + p.size + 1))

theorem length_code (p : Flow) (k : Nat) : (p.code k).length = p.size := by
  induction p generalizing k with
  | act ops => rfl
  | ret ops => simp [code, size]
  | seq p q hp hq => simp [code, size, hp, hq]
  | branch ops p hp => simp [code, size, guarded, hp]; omega
  | loop ops p hp => simp [code, size, guarded, hp]; omega

end Flow
end StackLang
