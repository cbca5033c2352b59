import StackLang.Proofs.Calls
import StackLang.Proofs.Computation

namespace StackLang

structure Arm where
  test : List Op
  body : List Op
  exit : Value

namespace Arm

def size (a : Arm) : Nat := a.test.length + 1 + a.body.length + 1

def code (a : Arm) (k : Nat) : List Op :=
  a.test ++ .jumpFalse (.int (k + a.size : Nat)) :: (a.body ++ [.jump a.exit])

theorem length_code (a : Arm) (k : Nat) : (a.code k).length = a.size := by
  simp only [code, size, List.length_append, List.length_cons, List.length_nil]
  omega

end Arm

def armsSize : List Arm → Nat
  | [] => 0
  | a :: l => a.size + armsSize l

def armsCode : List Arm → Nat → List Op
  | [], _ => []
  | a :: l, k => a.code k ++ armsCode l (k + a.size)

theorem length_armsCode (l : List Arm) (k : Nat) : (armsCode l k).length = armsSize l := by
  induction l generalizing k with
  | nil => rfl
  | cons a l ih => rw [armsCode, List.length_append, a.length_code, ih, armsSize]

theorem getLast?_armsCode (l : List Arm) (k : Nat) (v : Value) :
    (armsCode l k).getLast? ≠ some (.push v) := by
  induction l generalizing k with
  | nil => simp [armsCode]
  | cons a l ih =>
    rw [armsCode, List.getLast?_append, ne_eq, Option.or_eq_some_iff]
    rintro (h | ⟨-, h⟩)
    · exact ih _ h
    · rw [Arm.code, ← List.cons_append, ← List.append_assoc, List.getLast?_concat] at h
      cases h

def tested : List Arm → Nat → Nat → Prop
  | [], _, _ => False
  | a :: l, k, j => (k ≤ j ∧ j < k + (a.test.length + 1)) ∨ tested l (k + a.size) j

structure Arm.Calm (a : Arm) : Prop where
  straight : ∀ op ∈ a.test, op.straight
  computes : ∀ image, Machine.Computes image a.test

def Op.inline (op : Op) : Bool := !op.jumps && op != .ret

/-- Code that is left only behind its end, and by a call that is not waiting for another. -/
structure Enclosed (ops : List Op) : Prop where
  inline : ∀ op ∈ ops, op.inline
  last : ∀ function, ops.getLast? ≠ some (.call function)

namespace Machine

/-- Steps that the machine takes as long as it has a property. -/
def Follows (image : Image) (P : Machine → Prop) : Machine → Machine → Prop :=
  Relation.ReflTransGen fun m m' => P m ∧ step image false m = .ok true m'

def Top (t : Template) (below : List Frame) (m : Machine) : Prop :=
  ∃ f, m.frames = f :: below ∧ f.template = t

/-- The innermost call executes a template on top of the given calls and is at a place with a
property. -/
def At (t : Template) (below : List Frame) (P : Nat → Prop) (m : Machine) : Prop :=
  ∃ f, ∃ k : Nat, m.frames = f :: below ∧ f.template = t ∧ f.pc = .int k ∧ P k

/-- A call on top of the given ones is between two places of a template, or is to go on there when
the calls that it made come back. -/
def Inside (t : Template) (below : List Frame) (lo hi : Nat) (m : Machine) : Prop :=
  ∃ upper f, ∃ k : Nat, m.frames = upper ++ f :: below ∧ f.template = t ∧ f.pc = .int k ∧
    lo ≤ k ∧ k < hi

/-- Whatever the machine does, a call stays in a part of its code until it comes to the end of
it. -/
def Stays (image : Image) (t : Template) (below : List Frame) (lo hi : Nat) (m : Machine) : Prop :=
  ∀ m', Follows image (fun _ => True) m m' →
    (Follows image (Inside t below lo hi) m m' ∧ Inside t below lo hi m') ∨
      ∃ m₁, Follows image (Inside t below lo hi) m m₁ ∧ At t below (· = hi) m₁ ∧
        Follows image (fun _ => True) m₁ m'

def FollowsToFailure (image : Image) (P : Machine → Prop) (m : Machine) (e : Failure)
    (output : String) : Prop :=
  ∃ m₁ m₂, Follows image P m m₁ ∧ P m₁ ∧ step image false m₁ = .error e m₂ ∧ m₂.output = output

def select (image : Image) (m : Machine) : List Arm → Nat → Except Failure (Nat × Option Arm)
  | [], k => .ok (k, none)
  | a :: l, k =>
    match test image a.test m with
    | .error e _ => .error e
    | .ok true _ => .ok (k + (a.test.length + 1), some a)
    | .ok false _ => select image m l (k + a.size)

def Comes (image : Image) (P : Machine → Prop) (m₀ m : Machine) :
    Except Failure (Nat × Option Arm) → Prop
  | .error e => FollowsToFailure image P m₀ e m.output
  | .ok (lo, _) => Follows image P m₀ (m.seek lo)

section Follows

variable {image : Image} {P Q : Machine → Prop} {m m₁ m' : Machine} {e : Failure} {output : String}

theorem Follows.mono (hPQ : ∀ m, P m → Q m) (h : Follows image P m m') : Follows image Q m m' :=
  Relation.ReflTransGen.mono (fun m _ hm => ⟨hPQ m hm.1, hm.2⟩) m m' h

theorem FollowsToFailure.mono (hPQ : ∀ m, P m → Q m) (h : FollowsToFailure image P m e output) :
    FollowsToFailure image Q m e output := by
  obtain ⟨m₁, m₂, hfollows, hm₁, hstep⟩ := h
  exact ⟨m₁, m₂, hfollows.mono hPQ, hPQ m₁ hm₁, hstep⟩

theorem Comes.mono {r : Except Failure (Nat × Option Arm)} (hPQ : ∀ m, P m → Q m)
    (h : Comes image P m m' r) : Comes image Q m m' r := by
  cases r with
  | error e => exact FollowsToFailure.mono hPQ h
  | ok r => exact Follows.mono hPQ h

theorem Follows.comes {r : Except Failure (Nat × Option Arm)} (h : Follows image P m m₁)
    (h' : Comes image P m₁ m' r) : Comes image P m m' r := by
  cases r with
  | error e =>
    obtain ⟨m₂, m₃, hfollows, hstep⟩ := h'
    exact ⟨m₂, m₃, Relation.ReflTransGen.trans h hfollows, hstep⟩
  | ok r => exact Relation.ReflTransGen.trans h h'

end Follows

section Span

variable {image : Image} {t : Template} {below : List Frame} {lo hi c k : Nat} {m m' : Machine}

theorem At.mono {P Q : Nat → Prop} (hPQ : ∀ k, P k → Q k) (hm : At t below P m) :
    At t below Q m := by
  obtain ⟨f, k, hf, ht, hpc, hk⟩ := hm
  exact ⟨f, k, hf, ht, hpc, hPQ k hk⟩

theorem Top.seek (hm : Top t below m) (k : Nat) : At t below (· = k) (m.seek k) := by
  obtain ⟨f, hf, ht⟩ := hm
  exact ⟨{ f with pc := .int k }, k, by rw [Machine.seek, hf], ht, rfl, rfl⟩

theorem At.top {P : Nat → Prop} (hm : At t below P m) : Top t below m := by
  obtain ⟨f, k, hf, ht, -⟩ := hm
  exact ⟨f, hf, ht⟩

theorem At.seek_eq (hm : At t below (· = k) m) : m.seek k = m := by
  obtain ⟨f, j, hf, -, hpc, rfl⟩ := hm
  rw [seek, hf]
  simp only [← hpc, ← hf]

theorem Top.calls (hm : Top t below m) : m.calls = t :: below.map Frame.template := by
  obtain ⟨f, hf, ht⟩ := hm
  rw [Machine.calls, hf, List.map_cons, ht]

theorem top_step (h : step image false m = .ok true m') (hm : Top t below m)
    (hlength : m'.frames.length = below.length + 1) : Top t below m' := by
  obtain ⟨g, hg, rfl⟩ := hm
  obtain ⟨f, rest, i, hf, -, htransit⟩ := step_transit h
  obtain ⟨rfl, rfl⟩ := List.cons.inj (hg.symm.trans hf)
  obtain ⟨frames, hframes⟩ : ∃ frames, m'.frames = frames := ⟨_, rfl⟩
  rw [hframes] at htransit hlength
  cases htransit with
  | stay hpc => exact ⟨_, hframes, rfl⟩
  | enter _ hpc => simp at hlength
  | leave _ hstack => cases below <;> simp [receive] at hlength

theorem length_of_inside {d : Nat} (h : inside d lo hi m) : m.frames.length = d + 1 := by
  unfold inside at h
  split at h
  · cases h
  · rename_i f rest hf
    simp only [Bool.and_eq_true, beq_iff_eq] at h
    rw [hf, List.length_cons, h.1]

theorem Top.of_inside (hm : Top t below m) (h : inside below.length lo hi m) :
    At t below (fun k => lo ≤ k ∧ k < hi) m := by
  obtain ⟨f, hf, ht⟩ := hm
  simp only [inside, hf, beq_self_eq_true, Bool.true_and] at h
  split at h
  · rename_i k hpc
    simp only [Bool.and_eq_true, decide_eq_true_eq] at h
    obtain ⟨j, rfl⟩ : ∃ j : Nat, k = j := ⟨k.toNat, by omega⟩
    exact ⟨f, j, hf, ht, hpc, by omega, by omega⟩
  · cases h

theorem Moves.length {d : Nat} (h : Moves image d lo hi c m m') (hm' : m'.frames.length = d + 1) :
    m.frames.length = d + 1 := by
  cases h with
  | none => exact hm'
  | step hin _ _ => exact length_of_inside hin

theorem Moves.follows (h : Moves image below.length lo hi c m m') (hm : Top t below m)
    (hm' : m'.frames.length = below.length + 1) :
    Follows image (At t below fun k => lo ≤ k ∧ k < hi) m m' ∧ Top t below m' := by
  induction h with
  | none m => exact ⟨.refl, hm⟩
  | step hin hstep hmoves ih =>
    obtain ⟨hfollows, htop⟩ := ih (top_step hstep hm (hmoves.length hm')) hm'
    exact ⟨.head ⟨hm.of_inside hin, hstep⟩ hfollows, htop⟩

theorem Breaks.follows {e : Failure} {output : String}
    (h : Breaks image below.length lo hi m e output) (hm : Top t below m) :
    FollowsToFailure image (At t below fun k => lo ≤ k ∧ k < hi) m e output := by
  obtain ⟨c, m₁, m₂, hmoves, hin, hstep⟩ := h
  obtain ⟨hfollows, htop⟩ := hmoves.follows hm (length_of_inside hin)
  exact ⟨m₁, m₂, hfollows, htop.of_inside hin, hstep⟩

end Span

section Dispatch

variable {image : Image} {t : Template} {below : List Frame} {k : Nat} {m : Machine} {a : Arm}

theorem follows_test {b : Bool} (ha : a.Calm) (hm : Top t below m) (hcode : Holds t k (a.code k))
    (h : test image a.test m = .ok b m) :
    Follows image (At t below fun j => k ≤ j ∧ j < k + (a.test.length + 1)) (m.seek k)
      (m.seek (if b then k + (a.test.length + 1) else k + a.size)) := by
  have hmoves : Moves image (below.map Frame.template).length k (k + (a.test.length + 1)) _
      (m.seek k) _ :=
    moves_test hm.calls hcode.left ha.straight (Nat.le_refl k) hcode.right.head (by omega) h
  rw [List.length_map] at hmoves
  refine (hmoves.follows (hm.seek k).top ?_).1
  obtain ⟨f, hf, -⟩ := (hm.seek (if b then k + (a.test.length + 1) else k + a.size)).top
  rw [hf, List.length_cons]

theorem follows_test_failure {e : Failure} {m' : Machine} (ha : a.Calm) (hm : Top t below m)
    (hcode : Holds t k (a.code k)) (h : test image a.test m = .error e m') :
    FollowsToFailure image (At t below fun j => k ≤ j ∧ j < k + (a.test.length + 1)) (m.seek k) e
      m'.output := by
  have hbreaks : Breaks image (below.map Frame.template).length k (k + (a.test.length + 1))
      (m.seek k) e m'.output :=
    breaks_test hm.calls hcode.left ha.straight (Nat.le_refl k) hcode.right.head (by omega) h
  rw [List.length_map] at hbreaks
  exact hbreaks.follows (hm.seek k).top

theorem comes_select {l : List Arm} (hl : ∀ a ∈ l, a.Calm) (hm : Top t below m)
    (hcode : Holds t k (armsCode l k)) :
    Comes image (At t below (tested l k)) (m.seek k) m (select image m l k) := by
  -- the conditions leave the machine as it was, so that only the place changes from arm to arm
  induction l generalizing k with
  | nil => exact .refl
  | cons a l ih =>
    have ha := hl a List.mem_cons_self
    have hnext : Holds t (k + a.size) (armsCode l (k + a.size)) := by
      simpa only [a.length_code] using hcode.right
    have ⟨f, hf, _⟩ := hm
    obtain ⟨b, hb⟩ | ⟨e, m', he, hout⟩ := test_of_computes (ha.computes image) hf
    · have hfirst : Follows image (At t below (tested (a :: l) k)) _ _ :=
        (follows_test ha hm hcode.left hb).mono fun _ => At.mono fun _ => .inl
      simp only [select, hb]
      cases b with
      | true => exact hfirst
      | false =>
        have hlater := ih (fun b hb => hl b (List.mem_cons_of_mem a hb)) hnext
        exact hfirst.comes (hlater.mono fun _ => At.mono fun _ => .inr)
    · have hfails := follows_test_failure ha hm hcode.left he
      rw [hout] at hfails
      simp only [select, he]
      exact hfails.mono fun _ => At.mono fun _ => .inl

theorem of_select {l : List Arm} {r : Nat × Option Arm} (hcode : Holds t k (armsCode l k))
    (h : select image m l k = .ok r) :
    match r with
    | (lo, some a) => a ∈ l ∧ Holds t lo (a.body ++ [.jump a.exit])
    | (lo, none) => lo = k + armsSize l := by
  induction l generalizing k with
  | nil =>
    cases h
    rfl
  | cons a l ih =>
    have hnext : Holds t (k + a.size) (armsCode l (k + a.size)) := by
      simpa only [a.length_code] using hcode.right
    simp only [select] at h
    split at h
    · cases h
    · cases h
      exact ⟨List.mem_cons_self, hcode.left.right.tail⟩
    · obtain ⟨lo, _ | b⟩ := r
      · rw [armsSize, ← Nat.add_assoc]
        exact ih hnext h
      · obtain ⟨hmem, hbody⟩ := ih hnext h
        exact ⟨List.mem_cons_of_mem a hmem, hbody⟩

end Dispatch

section Body

variable {image : Image} {t : Template} {below : List Frame} {lo : Nat} {ops : List Op}
  {m m' : Machine}

theorem op_of_next? {f : Frame} {i : Instr} {k : Nat} (hops : Holds f.template lo ops)
    (hpc : f.pc = .int k) (hlo : lo ≤ k) (hhi : k < lo + ops.length) (hi : f.next? = some i) :
    ops[k - lo]? = some i.op := by
  obtain ⟨op, hop⟩ : ∃ op, ops[k - lo]? = some op := ⟨_, List.getElem?_eq_getElem (by omega)⟩
  have hplace := hops (k - lo) op hop
  rw [Nat.add_sub_cancel' hlo] at hplace
  have hfetch := (Frame.next?_eq_some.1 hi).2
  rw [hpc, fetch_place hplace] at hfetch
  cases hfetch
  exact hop

theorem inside_step (hops : Holds t lo ops) (henclosed : Enclosed ops)
    (h : step image false m = .ok true m') (hm : Inside t below lo (lo + ops.length) m) :
    Inside t below lo (lo + ops.length) m' ∨ At t below (· = lo + ops.length) m' := by
  obtain ⟨upper, g, k, hg, rfl, hpc, hlo, hhi⟩ := hm
  obtain ⟨f, rest, i, hf, hi, htransit⟩ := step_transit h
  obtain ⟨frames, hframes⟩ : ∃ frames, m'.frames = frames := ⟨_, rfl⟩
  rw [hframes] at htransit
  cases upper with
  | nil =>
    obtain ⟨rfl, rfl⟩ := List.cons.inj (hf.symm.trans hg)
    have hop := op_of_next? hops hpc hlo hhi hi
    have hadd : f.pc.add (.int 1) = .ok (.int (k + 1 : Nat)) := by
      rw [hpc]
      rfl
    have hinline := henclosed.inline _ (List.mem_of_getElem? hop)
    simp only [Op.inline, Bool.and_eq_true, Bool.not_eq_true', bne_iff_ne] at hinline
    cases htransit with
    | stay hnext =>
      obtain ⟨-, hnext⟩ | ⟨hjumps, -⟩ := hnext
      · cases hnext.symm.trans hadd
        by_cases hk : k + 1 = lo + ops.length
        · exact .inr ⟨_, k + 1, hframes, rfl, rfl, hk⟩
        · exact .inl ⟨[], _, k + 1, hframes, rfl, rfl, by omega, by omega⟩
      · rw [hinline.1] at hjumps
        cases hjumps
    | enter hcall hnext =>
      cases hnext.symm.trans hadd
      -- the last operation is no call, so the place to come back to is inside as well
      have hk : k + 1 ≠ lo + ops.length := by
        intro hk
        have hlast : ops.length - 1 = k - lo := by omega
        rw [hcall, ← hlast, ← List.getLast?_eq_getElem?] at hop
        exact henclosed.last _ hop
      exact .inl ⟨[_], _, k + 1, hframes, rfl, rfl, by omega, by omega⟩
    | leave hret hstack => exact absurd hret hinline.2
  | cons u upper =>
    obtain ⟨rfl, rfl⟩ := List.cons.inj (hf.symm.trans hg)
    cases htransit with
    | stay hnext => exact .inl ⟨_ :: upper, g, k, hframes, rfl, hpc, hlo, hhi⟩
    | enter hcall hnext => exact .inl ⟨_ :: _ :: upper, g, k, hframes, rfl, hpc, hlo, hhi⟩
    | @leave v stack hret hstack =>
      cases upper with
      | nil => exact .inl ⟨[], { g with stack := v :: g.stack }, k, hframes, rfl, hpc, hlo, hhi⟩
      | cons u upper =>
        exact .inl ⟨{ u with stack := v :: u.stack } :: upper, g, k, hframes, rfl, hpc, hlo, hhi⟩

theorem stays_of_enclosed (hops : Holds t lo ops) (henclosed : Enclosed ops)
    (hm : At t below (· = lo) m) : Stays image t below lo (lo + ops.length) m := by
  intro m' hrun
  induction hrun with
  | refl =>
    by_cases hlength : ops.length = 0
    · exact .inr ⟨m, .refl, hm.mono fun k hk => by omega, .refl⟩
    · obtain ⟨f, k, hf, ht, hpc, rfl⟩ := hm
      exact .inl ⟨.refl, [], f, k, hf, ht, hpc, Nat.le_refl k, by omega⟩
  | tail _ hstep ih =>
    obtain ⟨hfollows, hin⟩ | ⟨m₁, hfollows, hend, hrest⟩ := ih
    · have hnext := Relation.ReflTransGen.tail hfollows ⟨hin, hstep.2⟩
      obtain hin' | hend := inside_step hops henclosed hstep.2 hin
      · exact .inl ⟨hnext, hin'⟩
      · exact .inr ⟨_, hnext, hend, .refl⟩
    · exact .inr ⟨m₁, hfollows, hend, .tail hrest hstep⟩

end Body

theorem step_jump (image : Image) {t : Template} {below : List Frame} {k : Nat} {m : Machine}
    {target : Value} (hm : At t below (· = k) m)
    (hop : t.code[k]? = some (.plain (.jump target))) :
    ∃ m' f, jump target m = .ok () m' ∧ step image false m = .ok true m' ∧
      m'.frames = f :: below ∧ f.template = t ∧ f.pc = target := by
  have hstep : step image false (m.seek k) = _ := step_seek hm.top.calls hop
  rw [hm.seek_eq] at hstep
  obtain ⟨f, j, hf, ht, hpc, rfl⟩ := hm
  refine ⟨_, { f with pc := target }, jump_eq hf target, hstep.trans ?_, rfl, ht, rfl⟩
  simp only [seek, hf]
  rfl

end Machine

theorem Frame.next?_pending {f : Frame} (h : f.pc = Generator.pending) :
    f.next? = f.template.code.back? := by
  have hless : Generator.pending.less (.int f.template.code.size) = .ok true := by
    rw [Generator.pending, Value.less_int, decide_eq_true (by omega)]
  have hplace : (place? f.template.code.size (-1) >>= fun k => f.template.code[k]?) =
      f.template.code.back? := by
    cases hsize : f.template.code.size with
    | zero => simp [place?, Array.back?, hsize]
    | succ n =>
      have hn : ((n + 1 : Nat) : Int) + -1 = n := by omega
      simp only [place?, Array.back?, hsize, hn]
      rfl
  have hposition : Generator.pending.position = .ok (-1) := rfl
  simp only [next?, Machine.fetch, h, hless, hposition, bind, Except.bind] at hplace ⊢
  rw [hplace]
  cases f.template.code.back? <;> rfl

/-- Arms, and what is done if none of their conditions holds. -/
structure Chain where
  arms : List Arm
  last : List Op

namespace Chain

open Machine

def size (c : Chain) : Nat := armsSize c.arms + c.last.length

def code (c : Chain) (k : Nat) : List Op := armsCode c.arms k ++ c.last

def leaving (t : Template) (a : Arm) (j : Nat) : Prop :=
  t.code[j]? = some (.plain (.jump a.exit)) ∨ t.code[j]? = some (.plain .nop)

/-- The machine goes on from the end of a body: behind the chain, or at the last instruction of the
function if the jump there was not completed. -/
def GoesOn (c : Chain) (image : Image) (t : Template) (below : List Frame) (k : Nat) (a : Arm)
    (m : Machine) : Prop :=
  if a.exit = Generator.pending then
    ∃ m' f, jump a.exit m = .ok () m' ∧ step image false m = .ok true m' ∧
      m'.frames = f :: below ∧ f.next? = t.code.back?
  else
    Follows image (At t below (leaving t a)) m (m.seek (k + c.size))

/-- How a chain is run that stands in a template at place `k`: nothing but conditions is executed
up to the body that is selected, and the body is executed to its end. -/
def Unfolds (c : Chain) (t : Template) (k : Nat) : Prop :=
  ∀ image below m, At t below (· = k) m →
    Comes image (At t below (tested c.arms k)) m m (select image m c.arms k) ∧
      ∀ lo a?, select image m c.arms k = .ok (lo, a?) →
        match a? with
        | some a => Holds t lo a.body ∧ Stays image t below lo (lo + a.body.length) (m.seek lo) ∧
            ∀ m', At t below (· = lo + a.body.length) m' → c.GoesOn image t below k a m'
        | none => Holds t lo c.last ∧ Stays image t below lo (k + c.size) (m.seek lo)

def LeadsOut (c : Chain) (k : Nat) (target : Value) : Prop :=
  target = Generator.pending ∨ target = .int (k + c.size : Nat) ∨
    (target = .int (k + armsSize c.arms : Nat) ∧ c.last = [.nop])

variable {c : Chain} {t : Template} {k : Nat}

theorem goesOn {image : Image} {below : List Frame} {lo : Nat} {a : Arm} {m : Machine}
    (hcode : Holds t k (c.code k)) (haims : c.LeadsOut k a.exit)
    (hjump : t.code[lo]? = some (.plain (.jump a.exit))) (hm : At t below (· = lo) m) :
    c.GoesOn image t below k a m := by
  have ⟨m', f, hjumps, hstep, hf, ht, hpc⟩ := step_jump image hm hjump
  have hfirst {j : Nat} (hj : a.exit = .int j) :
      Follows image (At t below (leaving t a)) m (m.seek j) := by
    have hleaving : At t below (leaving t a) m := hm.mono fun i hi => .inl (by rw [hi, hjump])
    rw [hj] at hjumps
    cases hjumps.symm.trans (jump_seek m j)
    exact .single ⟨hleaving, hstep⟩
  have hcomplete {j : Nat} (hj : a.exit = .int j) : a.exit ≠ Generator.pending := by
    rw [hj]
    intro h
    cases h
  unfold GoesOn
  obtain hexit | hexit | ⟨hexit, hlast⟩ := haims
  · rw [if_pos hexit]
    exact ⟨m', f, hjumps, hstep, hf, by rw [Frame.next?_pending (hpc.trans hexit), ht]⟩
  · rw [if_neg (hcomplete hexit)]
    exact hfirst hexit
  · have hnop := hcode.right
    rw [length_armsCode, hlast] at hnop
    have hend : k + c.size = k + armsSize c.arms + 1 := by
      rw [size, hlast]
      rfl
    rw [if_neg (hcomplete hexit), hend]
    have hlanding : At t below (leaving t a) (m.seek (k + armsSize c.arms)) :=
      (hm.top.seek _).mono fun i hi => .inr (by rw [hi, hnop.head])
    refine .tail (hfirst hexit) ⟨hlanding, ?_⟩
    rw [step_seek hm.top.calls hnop.head]
    rfl

theorem unfolds_of_holds (hcode : Holds t k (c.code k)) (hcalm : ∀ a ∈ c.arms, a.Calm)
    (hbodies : ∀ a ∈ c.arms, Enclosed a.body) (hlast : Enclosed c.last)
    (haims : ∀ a ∈ c.arms, c.LeadsOut k a.exit) : c.Unfolds t k := by
  intro image below m hm
  have hcomes : Comes image (At t below (tested c.arms k)) (m.seek k) m
      (select image m c.arms k) := comes_select hcalm hm.top hcode.left
  rw [hm.seek_eq] at hcomes
  refine ⟨hcomes, fun lo a? hselect => ?_⟩
  have hplace := of_select hcode.left hselect
  cases a? with
  | some a =>
    obtain ⟨ha, hbody⟩ := hplace
    refine ⟨hbody.left, stays_of_enclosed hbody.left (hbodies a ha) (hm.top.seek lo), ?_⟩
    exact fun m' hm' => goesOn hcode (haims a ha) hbody.right.head hm'
  | none =>
    have hend : k + armsSize c.arms + c.last.length = k + c.size := by
      rw [size, Nat.add_assoc]
    have hholds := hcode.right
    rw [length_armsCode] at hholds
    cases hplace
    rw [← hend]
    exact ⟨hholds, stays_of_enclosed hholds hlast (hm.top.seek _)⟩

end Chain
end StackLang
