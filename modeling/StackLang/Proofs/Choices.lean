import StackLang.Compiler
import StackLang.Proofs.Fragments
import StackLang.Proofs.Generation

namespace StackLang

open Generator Machine

def Stmt.prints : Stmt → Bool
  | .call callee args => (printed? callee args).any Expr.whole
  | _ => false

namespace Generator

def fragment? (o : Offsets) (structs : Table String StructDef) (x : Gen Unit) : Option (List Op) :=
  match x ⟨.empty, some ⟨"", 0, #[]⟩, o, structs⟩ with
  | .ok _ g => g.current.map fun t => t.code.toList.map Instr.op
  | .error _ _ => none

section Fragment

variable {o : Offsets} {structs : Table String StructDef} {C : List Op → Prop} {x : Gen Unit}
  {ops : List Op}

theorem Writes.fragment (h : Writes o structs x ops) : fragment? o structs x = some ops := by
  simp only [fragment?, h .empty ⟨"", 0, #[]⟩]
  simp [Template.append, Instr.plain, Function.comp_def]

theorem Fixed.of_fragment (hx : Fixed o structs C x) (h : fragment? o structs x = some ops) :
    C ops ∧ Writes o structs x ops := by
  obtain ⟨a, ha, hw⟩ | ⟨e, he⟩ := hx
  · cases hw.fragment.symm.trans h
    exact ⟨ha, hw⟩
  · obtain ⟨g, hg⟩ := he .empty ⟨"", 0, #[]⟩
    simp [fragment?, hg] at h

theorem Fixed.inScope (hx : Fixed o.enter structs C x) : Fixed o structs C (inScope x) := by
  have heq (image : Image) (t : Template) : Generator.inScope x ⟨image, some t, o, structs⟩ =
      (do x; onOffsets Offsets.leave) ⟨image, some t, o.enter, structs⟩ := rfl
  obtain ⟨a, ha, hw⟩ | ⟨e, he⟩ := hx
  · refine .inl ⟨a, ha, fun image t => ?_⟩
    rw [heq]
    simp only [bind, EStateM.bind, hw image t]
    rfl
  · refine .inr ⟨e, fun image t => ?_⟩
    obtain ⟨g, hg⟩ := he image t
    exact ⟨g, by rw [heq]; simp only [bind, EStateM.bind, hg]⟩

/-- The code of prints. -/
structure Printing (ops : List Op) : Prop where
  inline : ∀ op ∈ ops, op.inline
  last : ∀ op, ops.getLast? = some op → op = .write

theorem Printing.enclosed (h : Printing ops) : Enclosed ops where
  inline := h.inline
  last function hlast := by cases h.last _ hlast

theorem stmts_fixed {l : List Stmt} (hl : l.all Stmt.prints) :
    Fixed o structs Printing (stmts l) := by
  induction l with
  | nil =>
    simp only [stmts]
    exact .pure ⟨by simp, by simp⟩
  | cons s l ih =>
    obtain ⟨hs, hl⟩ := Bool.and_eq_true_iff.1 hl
    have hstmt : Fixed o structs Printing (stmt s) := by
      cases s with
      | call callee args =>
        obtain ⟨e, hargs, he⟩ := (Option.any_eq_true _ _).1 hs
        rw [stmt_print_eq hargs]
        refine (expr_fixed e he).seq (.emit rfl) (D := (· = [.write])) ?_
        rintro a b ha rfl
        refine ⟨List.forall_mem_append.2 ⟨ha.inline, by simp [Op.inline, Op.jumps]⟩, ?_⟩
        simp
      | _ => cases hs
    simp only [stmts]
    refine hstmt.seq (ih hl) fun a b ha hb => ⟨List.forall_mem_append.2 ⟨ha.inline, hb.inline⟩, ?_⟩
    intro op h
    rw [List.getLast?_append, Option.or_eq_some_iff] at h
    obtain h | ⟨-, h⟩ := h
    · exact hb.last op h
    · exact ha.last op h

end Fragment

/-- Generation in a given scope that finds the operations `a` written from place `n` on leaves the
operations `b` there. -/
def Turns (o : Offsets) (structs : Table String StructDef) (n : Nat) (x : Gen Unit)
    (a b : List Op) : Prop :=
  ∀ (image : Image) (t : Template), t.code.size = n →
    x ⟨image, some (t.append a), o, structs⟩ = .ok () ⟨image, some (t.append b), o, structs⟩

section Turns

variable {o : Offsets} {structs : Table String StructDef} {n : Nat} {x y : Gen Unit}
  {a b d : List Op}

theorem Gets.turns (h : Gets n x o a o b) : Turns o structs n x a b :=
  fun image t ht => h image t structs ht

theorem Writes.turns (h : Writes o structs x b) : Turns o structs n x a (a ++ b) := by
  intro image t _
  rw [← Template.append_append]
  exact h image (t.append a)

namespace Turns

theorem seq (hx : Turns o structs n x a b) (hy : Turns o structs n y b d) :
    Turns o structs n (do x; y) a d := by
  intro image t ht
  simp only [bind, EStateM.bind, hx image t ht]
  exact hy image t ht

theorem here {f : Nat → Gen Unit} (h : Turns o structs n (f (n + a.length)) a b) :
    Turns o structs n (Generator.here >>= f) a b := by
  intro image t ht
  have hsize : (t.append a).code.size = n + a.length := by rw [Template.size_append, ht]
  rw [← hsize] at h
  exact h image t ht

end Turns
end Turns

def arm (o : Offsets) (structs : Table String StructDef) (exit : Value) (b : Branch) : Arm where
  test := (fragment? o structs (expr b.condition)).getD []
  body := (fragment? o structs (inScope (stmts b.body))).getD []
  exit := exit

end Generator

/-- Branches that have a condition without effects and a body of prints, all of which have code. -/
def Branch.ready (o : Offsets) (structs : Table String StructDef) (b : Branch) : Bool :=
  b.condition.whole && b.condition.isPure (known o structs) && b.body.all Stmt.prints &&
    (fragment? o structs (expr b.condition)).isSome &&
    (fragment? o structs (inScope (stmts b.body))).isSome

namespace Generator

section Arm

variable {o : Offsets} {structs : Table String StructDef} {b : Branch} {v : Value}

theorem condition_of_ready (h : b.ready o structs) :
    (arm o structs v b).Calm ∧ Writes o structs (expr b.condition) (arm o structs v b).test := by
  simp only [Branch.ready, Bool.and_eq_true] at h
  obtain ⟨ops, hops⟩ := Option.isSome_iff_exists.1 h.1.2
  have hpiece := (expr_fixed b.condition h.1.1.1.1).of_fragment hops
  rw [h.1.1.1.2] at hpiece
  simp only [arm, hops, Option.getD_some]
  exact ⟨⟨hpiece.1.straight rfl, hpiece.1.computes rfl⟩, hpiece.2⟩

theorem body_of_ready (h : b.ready o structs) :
    Printing (arm o structs v b).body ∧
      Writes o structs (inScope (stmts b.body)) (arm o structs v b).body := by
  simp only [Branch.ready, Bool.and_eq_true] at h
  obtain ⟨ops, hops⟩ := Option.isSome_iff_exists.1 h.2
  simp only [arm, hops, Option.getD_some]
  exact (Fixed.inScope (stmts_fixed h.1.1.2)).of_fragment hops

end Arm

section Code

variable {o : Offsets} {structs : Table String StructDef} {n : Nat} {l : List Branch}
  {p q : List Op}

def draft (a : Arm) : List Op := a.test ++ .jumpFalse pending :: (a.body ++ [.jump a.exit])

theorem length_draft (a : Arm) : (draft a).length = a.size := by
  simp only [draft, Arm.size, List.length_append, List.length_cons, List.length_nil]
  omega

theorem Turns.skip {a : Arm} {i j : Nat} (hi : i = n + p.length + a.test.length)
    (hj : j = n + p.length + a.size) :
    Turns o structs n (patch i (.jumpFalse (.int j))) (p ++ draft a ++ q)
      (p ++ a.code (n + p.length) ++ q) := by
  subst hj
  have h : Gets n (patch i (.jumpFalse (.int (n + p.length + a.size : Nat)))) o
      ((p ++ a.test) ++ .jumpFalse pending :: (a.body ++ [.jump a.exit] ++ q)) o
      ((p ++ a.test) ++ .jumpFalse _ :: (a.body ++ [.jump a.exit] ++ q)) :=
    Gets.patch (by rw [hi, List.length_append, Nat.add_assoc])
  simpa [draft, Arm.code] using h.turns

theorem Turns.skipFirst {a : Arm} : Turns o structs n
    (patch (n + a.test.length) (.jumpFalse (.int (n + (draft a).length : Nat)))) (draft a)
    (a.code n) := by
  have h : Turns o structs n _ ([] ++ draft a ++ [])
      ([] ++ a.code (n + ([] : List Op).length) ++ []) :=
    Turns.skip rfl (congrArg (n + ·) (length_draft a))
  rw [List.append_nil, List.append_nil] at h
  exact h

theorem Turns.finish {a : Arm} {i k : Nat} {v : Value}
    (hi : i = n + (a.test.length + 1 + a.body.length)) :
    Turns o structs n (patch i (.jump v)) (a.code k ++ q) ({ a with exit := v }.code k ++ q) := by
  have h : Gets n (patch i (.jump v)) o
      ((a.test ++ .jumpFalse (.int (k + a.size : Nat)) :: a.body) ++ .jump a.exit :: q) o
      ((a.test ++ .jumpFalse (.int (k + a.size : Nat)) :: a.body) ++ .jump v :: q) :=
    Gets.patch (by simp only [hi, List.length_append, List.length_cons]; omega)
  simpa [Arm.code, Arm.size] using h.turns

theorem Turns.opened {a : Arm} {x y : Gen Unit} {f : Nat → Gen Unit}
    (hx : Writes o structs x a.test) (hy : Writes o structs y a.body)
    (h : Turns o structs n (f (n + p.length + a.test.length))
      (p ++ (a.test ++ .jumpFalse pending :: a.body)) q) :
    Turns o structs n (do x; let skip ← Generator.here; emit (.jumpFalse pending); y; f skip) p
      q := by
  refine hx.turns.seq (.here ((Gets.emit _).turns.seq (hy.turns.seq ?_)))
  simpa [Nat.add_assoc] using h

theorem draft_eq {a : Arm} (ha : a.exit = pending) :
    (p ++ (a.test ++ .jumpFalse pending :: a.body)) ++ [.jump pending] = p ++ draft a := by
  simp [draft, ha]

theorem branches_turns (hl : ∀ b ∈ l, b.ready o structs) :
    Turns o structs n (branches l) p
      (p ++ armsCode (l.map (arm o structs pending)) (n + p.length)) := by
  -- the arms of earlier branches are part of `p`
  induction l generalizing p with
  | nil =>
    simp only [branches, List.map_nil, armsCode, List.append_nil]
    exact Gets.pure.turns
  | cons b l ih =>
    obtain ⟨condition, body⟩ := b
    have hb := hl _ List.mem_cons_self
    have htest := (condition_of_ready (v := pending) hb).2
    have hbody := (body_of_ready (v := pending) hb).2
    obtain ⟨a, ha⟩ : ∃ a, arm o structs pending (.mk condition body) = a := ⟨_, rfl⟩
    have hexit : a.exit = pending := by rw [← ha, arm]
    rw [ha] at htest hbody
    have hskip : Turns o structs n (patch (n + p.length + a.test.length)
        (.jumpFalse (.int (n + (p ++ draft a).length : Nat)))) (p ++ draft a)
        (p ++ a.code (n + p.length)) := by
      have hlength : n + (p ++ draft a).length = n + p.length + a.size := by
        rw [List.length_append, length_draft, Nat.add_assoc]
      simpa only [List.append_nil] using Turns.skip (q := []) rfl hlength
    have hlater := ih (p := p ++ a.code (n + p.length)) fun b hb => hl b (List.mem_cons_of_mem _ hb)
    simp only [List.append_assoc, List.length_append, a.length_code, ← Nat.add_assoc] at hlater
    simp only [branches, List.map_cons, armsCode, ha]
    refine .opened htest hbody ((Gets.emit _).turns.seq (.here ?_))
    rw [draft_eq hexit]
    exact hskip.seq hlater

def opening (condition : Expr) (body : List Stmt) (f : Nat → Nat → Gen Unit) : Gen Unit := do
  expr condition
  let skip ← here
  emit (.jumpFalse pending)
  inScope (stmts body)
  let finish ← here
  emit (.jump pending)
  f skip finish

section Choice

variable {condition : Expr} {body : List Stmt} {a : Arm}
  (htest : Writes o structs (expr condition) a.test)
  (hbody : Writes o structs (inScope (stmts body)) a.body) (hexit : a.exit = pending)

include htest hbody hexit

theorem opening_turns {f : Nat → Nat → Gen Unit}
    (h : Turns o structs n (f (n + a.test.length) (n + (a.test.length + 1 + a.body.length)))
      (draft a) q) : Turns o structs n (opening condition body f) [] q := by
  refine .opened htest hbody (.here ((Gets.emit _).turns.seq ?_))
  have hfinish : n + (a.test ++ .jumpFalse pending :: a.body).length =
      n + (a.test.length + 1 + a.body.length) := by
    simp only [List.length_append, List.length_cons]
    omega
  rw [draft_eq hexit, List.nil_append, List.nil_append, List.length_nil, Nat.add_zero, hfinish]
  exact h

theorem choice_alone_turns : Turns o structs n (stmt (.choice (.mk condition body) [] [])) []
    ({ a with exit := .int (n + a.size : Nat) }.code n ++ [.nop]) := by
  have hlast : n + (draft a ++ [Op.nop]).length - 1 = n + a.size := by
    simp [length_draft, ← Nat.add_assoc]
  have hskip : Turns o structs n (patch (n + a.test.length) (.jumpFalse (.int (n + a.size : Nat))))
      (draft a ++ [.nop]) (a.code n ++ [.nop]) := Turns.skip (p := []) rfl rfl
  rw [stmt, ← opening]
  refine opening_turns htest hbody hexit ((Gets.emit _).turns.seq (.here ?_))
  rw [hlast]
  exact hskip.seq (.finish rfl)

theorem choice_alone_fails (s : Stmt) (r : List Stmt) (image : Image) (t : Template) :
    ∃ g, stmt (.choice (.mk condition body) [] (s :: r)) ⟨image, some t, o, structs⟩ =
      .error (.crash .noPendingJump) g := by
  -- both jumps are completed before it turns out that there is no third one
  have heq : stmt (.choice (.mk condition body) [] (s :: r)) = (do
      opening condition body fun skip finish => do
        let next ← here
        patch skip (.jumpFalse (address next))
        patch finish (.jump (address next))
      throw (.crash .noPendingJump)) := by
    simp only [stmt, opening, bind_assoc]
  have hfinish : Turns o structs t.code.size
      (patch (t.code.size + (a.test.length + 1 + a.body.length))
        (.jump (.int (t.code.size + (draft a).length : Nat)))) (a.code t.code.size)
      ({ a with exit := .int (t.code.size + (draft a).length : Nat) }.code t.code.size) := by
    simpa only [List.append_nil] using Turns.finish (q := []) rfl
  have hopening := opening_turns htest hbody hexit (f := fun skip finish => do
    let next ← here
    patch skip (.jumpFalse (address next))
    patch finish (.jump (address next))) (.here (Turns.skipFirst.seq hfinish)) image t rfl
  rw [Template.append_nil] at hopening
  rw [heq]
  simp only [bind, EStateM.bind] at hopening ⊢
  rw [hopening]
  exact ⟨_, rfl⟩

theorem several_turns {f : Nat → Gen Unit} (hl : ∀ b ∈ l, b.ready o structs)
    (h : Turns o structs n (f (n + (a.test.length + 1 + a.body.length)))
      (armsCode (a :: l.map (arm o structs pending)) n) q) :
    Turns o structs n (opening condition body fun skip finish => do
      patch skip (.jumpFalse (address (← here)))
      branches l
      f finish) [] q := by
  have hlater := branches_turns (n := n) (p := a.code n) hl
  rw [a.length_code] at hlater
  exact opening_turns htest hbody hexit (.here (Turns.skipFirst.seq (hlater.seq h)))

theorem choice_open_turns (hl : ∀ b ∈ l, b.ready o structs) (hne : l ≠ []) :
    Turns o structs n (stmt (.choice (.mk condition body) l [])) []
      (armsCode (a :: l.map (arm o structs pending)) n) := by
  cases l with
  | nil => exact absurd rfl hne
  | cons b l =>
    rw [stmt]
    exact several_turns htest hbody hexit hl Gets.pure.turns

theorem choice_closed_turns {otherwise : List Stmt} {last : List Op}
    (hl : ∀ b ∈ l, b.ready o structs) (hne : l ≠ []) (hne' : otherwise ≠ [])
    (hlast : Writes o structs (inScope (stmts otherwise)) last) :
    let arms := l.map (arm o structs pending)
    Turns o structs n (stmt (.choice (.mk condition body) l otherwise)) []
      (armsCode ({ a with exit := .int (n + (armsSize (a :: arms) + last.length) : Nat) } :: arms) n
        ++ last) := by
  intro arms
  obtain ⟨b, l, rfl⟩ := List.exists_cons_of_ne_nil hne
  obtain ⟨s, r, rfl⟩ := List.exists_cons_of_ne_nil hne'
  rw [stmt]
  refine several_turns htest hbody hexit hl (hlast.turns.seq (.here ?_))
  rw [List.length_append, length_armsCode]
  simp only [armsCode, List.append_assoc]
  exact Turns.finish rfl

end Choice
end Code

def firstExit (c : Chain) (k : Nat) : List Branch → List Stmt → Value
  | [], _ => .int (k + armsSize c.arms : Nat)
  | _ :: _, [] => pending
  | _ :: _, _ :: _ => .int (k + c.size : Nat)

/-- The chain of a choice at place `k`. The jumps behind the bodies of other branches than the first
are not completed. -/
def chain (o : Offsets) (structs : Table String StructDef) (k : Nat) (first : Branch)
    (others : List Branch) (otherwise : List Stmt) : Chain :=
  let c : Chain :=
    { arms := (first :: others).map (arm o structs pending)
      last := if others.isEmpty then [.nop]
        else (fragment? o structs (inScope (stmts otherwise))).getD [] }
  { c with arms := arm o structs (firstExit c k others otherwise) first ::
      others.map (arm o structs pending) }

section Chain

variable {o : Offsets} {structs : Table String StructDef} {k : Nat} {first : Branch}
  {others : List Branch} {otherwise : List Stmt}

theorem arms_of_chain (hready : ∀ b ∈ first :: others, b.ready o structs) {a : Arm}
    (ha : a ∈ (chain o structs k first others otherwise).arms) : a.Calm ∧ Printing a.body := by
  obtain rfl | ha := List.mem_cons.1 ha
  · have hfirst := hready first List.mem_cons_self
    exact ⟨(condition_of_ready hfirst).1, (body_of_ready hfirst).1⟩
  · obtain ⟨b, hb, rfl⟩ := List.mem_map.1 ha
    have hb := hready b (List.mem_cons_of_mem first hb)
    exact ⟨(condition_of_ready hb).1, (body_of_ready hb).1⟩

theorem aims_of_chain {a : Arm} (ha : a ∈ (chain o structs k first others otherwise).arms) :
    (chain o structs k first others otherwise).LeadsOut k a.exit := by
  obtain rfl | ha := List.mem_cons.1 ha
  · cases others with
    | nil => exact .inr (.inr ⟨rfl, rfl⟩)
    | cons b l =>
      cases otherwise with
      | nil => exact .inl rfl
      | cons s r => exact .inr (.inl rfl)
  · obtain ⟨b, hb, rfl⟩ := List.mem_map.1 ha
    exact .inl rfl

theorem choice_fails (hfirst : first.ready o structs) (hne : otherwise ≠ []) (image : Image)
    (t : Template) : ∃ g, stmt (.choice first [] otherwise) ⟨image, some t, o, structs⟩ =
      .error (.crash .noPendingJump) g := by
  obtain ⟨s, r, rfl⟩ := List.exists_cons_of_ne_nil hne
  have htest := (condition_of_ready (v := pending) hfirst).2
  have hbody := (body_of_ready (v := pending) hfirst).2
  obtain ⟨condition, body⟩ := first
  exact choice_alone_fails htest hbody rfl s r image t

variable (hready : ∀ b ∈ first :: others, b.ready o structs) (hprints : otherwise.all Stmt.prints)
  (hlast : (fragment? o structs (inScope (stmts otherwise))).isSome)

include hprints hlast

theorem last_of_prints :
    let last := (fragment? o structs (inScope (stmts otherwise))).getD []
    Printing last ∧ Writes o structs (inScope (stmts otherwise)) last := by
  obtain ⟨ops, hops⟩ := Option.isSome_iff_exists.1 hlast
  rw [hops]
  exact (Fixed.inScope (stmts_fixed hprints)).of_fragment hops

include hready

theorem choice_turns (h : others ≠ [] ∨ otherwise = []) :
    Turns o structs k (stmt (.choice first others otherwise)) []
      ((chain o structs k first others otherwise).code k) := by
  have hfirst := hready first List.mem_cons_self
  have hothers (b : Branch) (hb : b ∈ others) := hready b (List.mem_cons_of_mem first hb)
  have htest := (condition_of_ready (v := pending) hfirst).2
  have hbody := (body_of_ready (v := pending) hfirst).2
  obtain ⟨condition, body⟩ := first
  cases others with
  | nil =>
    obtain rfl : otherwise = [] := h.resolve_left fun h => h rfl
    simp only [chain, firstExit, Chain.code, List.isEmpty_nil, if_true, List.map_cons, List.map_nil,
      armsCode, armsSize, List.append_nil, Nat.add_zero]
    exact choice_alone_turns htest hbody rfl
  | cons b l =>
    cases otherwise with
    | nil =>
      have hnil : (fragment? o structs (inScope (stmts []))).getD [] = [] := rfl
      simp only [chain, firstExit, Chain.code, List.isEmpty_cons, Bool.false_eq_true, if_false,
        hnil, List.append_nil]
      exact choice_open_turns htest hbody rfl hothers (List.cons_ne_nil b l)
    | cons s r =>
      exact choice_closed_turns htest hbody rfl hothers (List.cons_ne_nil b l)
        (List.cons_ne_nil s r) (last_of_prints hprints hlast).2

theorem chain_unfolds {host : Template}
    (hcode : Holds host k ((chain o structs k first others otherwise).code k)) :
    (chain o structs k first others otherwise).Unfolds host k := by
  refine Chain.unfolds_of_holds hcode (fun a ha => (arms_of_chain hready ha).1)
    (fun a ha => (arms_of_chain hready ha).2.enclosed) ?_ fun a ha => aims_of_chain ha
  cases others with
  | nil =>
    have hnop : Enclosed [.nop] := ⟨by simp [Op.inline, Op.jumps], by simp⟩
    exact hnop
  | cons b l => exact (last_of_prints hprints hlast).1.enclosed

omit hready in
theorem back?_chain (t : Template) (v : Value) :
    (t.append ((chain o structs k first others otherwise).code k)).code.back? ≠
      some (.plain (.push v)) := by
  intro h
  obtain ⟨op, hop⟩ : ∃ op,
      ((chain o structs k first others otherwise).code k).getLast? = some op := by
    rw [← Option.ne_none_iff_exists', ne_eq, List.getLast?_eq_none_iff]
    simp [chain, Chain.code, armsCode, Arm.code]
  have hback : (t.append ((chain o structs k first others otherwise).code k)).code.back? =
      some (.plain op) := by simp [Template.append, hop]
  cases Option.some.inj (hback.symm.trans h)
  rw [Chain.code, List.getLast?_append, Option.or_eq_some_iff] at hop
  obtain hop | ⟨-, hop⟩ := hop
  · cases others with
    | nil => cases hop
    | cons b l => cases (last_of_prints hprints hlast).1.last _ hop
  · exact getLast?_armsCode _ _ _ hop

end Chain
end Generator

theorem Machine.Holds.append {t host : Template} {k : Nat} {ops : List Op} {rest : Array Instr}
    (h : Holds t k ops) (hcode : host.code = t.code ++ rest) : Holds host k ops := by
  intro i op hi
  have hop := h i op hi
  rw [hcode, Array.getElem?_append_left (Array.getElem?_eq_some_iff.1 hop).1, hop]

/-- A choice in a main function, at the place to which generation has come. If it has a single
branch and an alternative without condition, generation fails; otherwise the code of its chain is
appended, and it is run as a chain in the finished function. -/
theorem mainBody_choice {g g₁ : Generator} {t : Template} {before : List Stmt} {first : Branch}
    {others : List Branch} {otherwise : List Stmt} (after : List Stmt)
    (hbefore : stmts before g = .ok () g₁) (ht : g₁.current = some t)
    (hready : ∀ b ∈ first :: others, b.ready g₁.offsets g₁.structs)
    (hprints : otherwise.all Stmt.prints)
    (hlast : (fragment? g₁.offsets g₁.structs (inScope (stmts otherwise))).isSome) :
    let k := t.code.size
    let c := chain g₁.offsets g₁.structs k first others otherwise
    let body := before ++ .choice first others otherwise :: after
    (others = [] ∧ otherwise ≠ [] →
      ∃ g', mainBody body g = .error (.crash .noPendingJump) g') ∧
    (others ≠ [] ∨ otherwise = [] →
      stmts (before ++ [.choice first others otherwise]) g =
        .ok () { g₁ with current := some (t.append (c.code k)) } ∧
      ∀ g' host, mainBody body g = .ok () g' → g'.current = some host → c.Unfolds host k) := by
  intro k c body
  obtain ⟨image, current, o, structs⟩ := g₁
  cases ht
  have hbody : mainBody body g =
      (do stmt (.choice first others otherwise); stmts after; mainEnd)
        ⟨image, some t, o, structs⟩ := by
    rw [mainBody_eq (by simp [body]), stmts_append]
    simp only [stmts, bind_assoc]
    simp only [bind, EStateM.bind, hbefore]
  refine ⟨?_, fun h => ?_⟩
  · rintro ⟨rfl, hne⟩
    obtain ⟨g', hg'⟩ := choice_fails (hready first List.mem_cons_self) hne image t
    refine ⟨g', ?_⟩
    rw [hbody]
    simp only [bind, EStateM.bind, hg']
  · have hchoice := choice_turns (k := k) hready hprints hlast h image t rfl
    rw [Template.append_nil] at hchoice
    have hthen (x : Gen Unit) : (do stmt (.choice first others otherwise); x)
        ⟨image, some t, o, structs⟩ = x ⟨image, some (t.append (c.code k)), o, structs⟩ := by
      simp only [bind, EStateM.bind, hchoice]
      rfl
    refine ⟨?_, fun g' host hg' hhost => ?_⟩
    · rw [stmts_append]
      simp only [stmts, bind_pure_unit]
      simp only [bind, EStateM.bind, hbefore, hchoice]
      rfl
    · -- what is generated behind the chain leaves it as it is
      rw [hbody, hthen] at hg'
      have hI : Upheld (Begins (t.append (c.code k)).code) _ :=
        begins_upheld (back?_chain hprints hlast t _)
      have hbegins : Begins (t.append (c.code k)).code
          ⟨image, some (t.append (c.code k)), o, structs⟩ := by
        intro t' ht'
        cases ht'
        exact ⟨#[], by simp⟩
      have hretains := Retains.bind (hI.stmts after) fun _ => hI.compositional.mainEnd
      obtain ⟨rest, hrest⟩ := hretains _ () g' hbegins hg' host hhost
      exact chain_unfolds hready hprints hlast ((holds_append t _).append hrest)

namespace Triage

def declared : Stmt := declaring .intType "int" "x" (some (number "2"))

def told (lexeme : String) : Stmt := printing (number lexeme)

def branch (lexeme : String) : Branch :=
  .mk (binary (.path [.mk (word .id "x") none]) .equal "==" (number lexeme)) [told lexeme]

def main : Template :=
  Template.append ⟨"main", 0, #[]⟩
    [.push (.int 2), .store (.int 0),
      .load (.int 0), .push (.int 1), .equal, .jumpFalse (.int 9), .push (.int 1), .write,
      .jump (.int 18),
      .load (.int 0), .push (.int 2), .equal, .jumpFalse (.int 16), .push (.int 2), .write,
      .jump pending,
      .push (.int 3), .write,
      .push (.int 4), .write, .push .null, .ret]

end Triage

open Triage in
/-- Of `int x = 2; if (x == 1) {print(1);} elseif (x == 2) {print(2);} else {print(3);} print(4);`
the second branch is chosen, and the machine goes on from its end at the last instruction. -/
theorem mainBody_choice_second :
    mainBody [declared, .choice (branch "1") [branch "2"] [told "3"], told "4"]
      ⟨.empty, some ⟨"main", 0, #[]⟩, ⟨[[]]⟩, ∅⟩ = .ok () ⟨.empty, some main, ⟨[["x"]]⟩, ∅⟩ ∧
    let m : Machine := ⟨.empty, [⟨main, .int 2, [.int 2], []⟩], [], ""⟩
    let c := chain ⟨[["x"]]⟩ ∅ 2 (branch "1") [branch "2"] [told "3"]
    Follows .empty (At main [] (tested c.arms 2)) m (m.seek 13) ∧
      Stays .empty main [] 13 15 (m.seek 13) ∧
      ∀ m', At main [] (· = 15) m' → ∃ m₁ f, step .empty false m' = .ok true m₁ ∧
        m₁.frames = [f] ∧ f.next? = some (.plain .ret) := by
  have hmain : mainBody [declared, .choice (branch "1") [branch "2"] [told "3"], told "4"]
      ⟨.empty, some ⟨"main", 0, #[]⟩, ⟨[[]]⟩, ∅⟩ = .ok () ⟨.empty, some main, ⟨[["x"]]⟩, ∅⟩ := rfl
  refine ⟨hmain, ?_⟩
  intro m c
  have hbefore : stmts [declared] ⟨.empty, some ⟨"main", 0, #[]⟩, ⟨[[]]⟩, ∅⟩ = .ok () ⟨.empty,
      some (Template.append ⟨"main", 0, #[]⟩ [.push (.int 2), .store (.int 0)]), ⟨[["x"]]⟩, ∅⟩ :=
    rfl
  have hready : ∀ b ∈ [branch "1", branch "2"], b.ready ⟨[["x"]]⟩ ∅ := by decide +kernel
  have hselect : select .empty m c.arms 2 = .ok (13, some (arm ⟨[["x"]]⟩ ∅ pending (branch "2"))) :=
    rfl
  have hprints : [told "3"].all Stmt.prints := by decide +kernel
  have hlast : (fragment? ⟨[["x"]]⟩ ∅ (inScope (stmts [told "3"]))).isSome := by decide +kernel
  obtain ⟨-, hruns⟩ := (mainBody_choice [told "4"] hbefore rfl hready hprints hlast).2
    (.inl (List.cons_ne_nil _ _))
  obtain ⟨hcomes, hbody⟩ := hruns _ main hmain rfl .empty [] m ⟨_, 2, rfl, rfl, rfl, rfl⟩
  obtain ⟨-, hstays, hgoes⟩ := hbody _ _ hselect
  have hcomes : Comes .empty (At main [] (tested c.arms 2)) m m (select .empty m c.arms 2) := hcomes
  rw [hselect] at hcomes
  refine ⟨hcomes, hstays, fun m' hm' => ?_⟩
  have hexit : (arm ⟨[["x"]]⟩ ∅ pending (branch "2")).exit = pending := rfl
  have hgoes := hgoes m' hm'
  rw [Chain.GoesOn, if_pos hexit] at hgoes
  obtain ⟨m₁, f, -, hstep, hf, hnext⟩ := hgoes
  exact ⟨m₁, f, hstep, hf, hnext⟩

/-- In both programs the first condition holds, so that 1 and 3 should be printed. An alternative to
a single branch is not generated; with a second branch the machine does not come to the last print,
but to a return without a value. -/
theorem execute_choice_unfinished :
    let alternative :=
      "void main() \x7bif (true) \x7bprint(1);\x7d else \x7bprint(2);\x7d print(3);\x7d"
    let second :=
      "void main() \x7bif (true) \x7bprint(1);\x7d elseif (true) \x7bprint(2);\x7d print(3);\x7d"
    (Compiler.execute false false (.ofText alternative) []).1.output = "" ∧
      (Compiler.execute false false (.ofText alternative) []).2 = some (.crash .noPendingJump) ∧
      (Compiler.execute false false (.ofText second) []).1.output = "1" ∧
      (Compiler.execute false false (.ofText second) []).2 = some (.crash .outOfRange) := by
  decide +kernel

end StackLang
