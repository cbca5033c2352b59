import StackLang.Proofs.Walk

namespace StackLang.Flow

open Machine

variable {image : Image} {d lo hi : Nat}

theorem Executes.calls {p : Flow} {m m' : Machine} {r : Finish} (h : Executes image p m r)
    (hp : p.straight) (hr : r = .falls m') : m'.calls = m.calls := by
  induction h generalizing m' with
  | act h =>
    cases hr
    exact (Local.perform image hp).calls h
  | act_fails | ret | ret_fails | branch_fails | loop_fails => cases hr
  | seq _ _ ihp ihq => rw [ihq hp.2 hr, ihp hp.1 rfl]
  | seq_stops _ hs | loop_stops _ _ hs =>
    subst hr
    cases hs
  | branch_true h _ ih => rw [ih hp.2 hr, (Local.test image hp.1).calls h]
  | branch_false h | loop_false h =>
    cases hr
    exact (Local.test image hp.1).calls h
  | loop_true h _ _ ihp ihl => rw [ihl hp hr, ihp hp.2 rfl, (Local.test image hp.1).calls h]

/-- The machine gets to an ending of code that ends at place `j`. -/
def Attains (image : Image) (d lo hi : Nat) (m : Machine) (j : Nat) : Finish → Prop
  | .falls m' => ∃ c, Moves image d lo hi c m (m'.seek j)
  | r => ∃ n, span image d lo hi n m = some r

theorem Attains.after {c j : Nat} {m m₁ : Machine} {r : Finish} (hm : Moves image d lo hi c m m₁)
    (h : Attains image d lo hi m₁ j r) : Attains image d lo hi m j r := by
  cases r with
  | falls m' =>
    obtain ⟨c', hc'⟩ := h
    exact ⟨c + c', hm.trans hc'⟩
  | returns m' | raises e out =>
    obtain ⟨n, hn⟩ := h
    exact ⟨n + c, hm.span_iff.2 ⟨n, rfl, hn⟩⟩

theorem Attains.of_stops {i j : Nat} {m : Machine} {r : Finish} (h : Attains image d lo hi m i r)
    (hr : r.stops) : Attains image d lo hi m j r := by
  cases r with
  | falls m' => cases hr
  | returns m' | raises e out => exact h

/-- Code of a structured program stands in a template, inside a span. -/
structure Placed (t : Template) (lo hi k : Nat) (p : Flow) : Prop where
  straight : p.straight
  holds : Holds t k (p.code k)
  lo_le : lo ≤ k
  le_hi : k + p.size ≤ hi

/-- Guarded code stands in a template, inside a span. -/
structure Guards (t : Template) (lo hi k : Nat) (ops : List Op) (p : Flow) (back : Nat) : Prop where
  straight : ∀ op ∈ ops, op.straight
  test : Holds t k ops
  skip : t.code[k + ops.length]? =
    some (.plain (.jumpFalse (.int (k + (ops.length + 1 + p.size + 1) : Nat))))
  body : Placed t lo hi (k + (ops.length + 1)) p
  goBack : t.code[k + (ops.length + 1) + p.size]? = some (.plain (.jump (.int back)))
  landing : t.code[k + (ops.length + 1 + p.size + 1)]? = some (.plain .nop)
  lo_le : lo ≤ k
  le_hi : k + (ops.length + 1 + p.size + 2) ≤ hi

section Placed

variable {t : Template} {ts : List Template} {k : Nat} {p q : Flow} {ops : List Op}

theorem Placed.left (h : Placed t lo hi k (.seq p q)) : Placed t lo hi k p :=
  ⟨h.straight.1, h.holds.left, h.lo_le, by have := h.le_hi; simp only [size] at this; omega⟩

theorem Placed.right (h : Placed t lo hi k (.seq p q)) : Placed t lo hi (k + p.size) q where
  straight := h.straight.2
  holds := by simpa only [length_code] using h.holds.right
  lo_le := Nat.le_add_right_of_le h.lo_le
  le_hi := by have := h.le_hi; simp only [size] at this; omega

theorem guards_of_holds {back : Nat} (hops : ∀ op ∈ ops, op.straight) (hp : p.straight)
    (h : Holds t k (guarded ops (p.code (k + (ops.length + 1))) back
      (k + (ops.length + 1 + p.size + 1)))) (hlo : lo ≤ k)
    (hhi : k + (ops.length + 1 + p.size + 2) ≤ hi) : Guards t lo hi k ops p back where
  straight := hops
  test := h.left
  skip := h.right.head
  body := ⟨hp, h.right.tail.left, by omega, by omega⟩
  goBack := by simpa only [length_code, Nat.add_assoc] using h.right.tail.right.head
  landing := by
    have := h.right.tail.right.tail.head
    rw [length_code] at this
    rw [← this]
    congr 1
    omega
  lo_le := hlo
  le_hi := hhi

theorem Placed.branch (h : Placed t lo hi k (.branch ops p)) :
    Guards t lo hi k ops p (k + (ops.length + 1 + p.size + 1)) :=
  guards_of_holds h.straight.1 h.straight.2 h.holds h.lo_le h.le_hi

theorem Placed.loop (h : Placed t lo hi k (.loop ops p)) : Guards t lo hi k ops p k :=
  guards_of_holds h.straight.1 h.straight.2 h.holds h.lo_le h.le_hi

namespace Guards

variable {back : Nat} {m m' : Machine}

theorem moves_body (h : Guards t lo hi k ops p back) (hm : m.calls = t :: ts)
    (htest : Machine.test image ops m = .ok true m') :
    Moves image ts.length lo hi (ops.length + 1) (m.seek k) (m'.seek (k + (ops.length + 1))) :=
  moves_test hm h.test h.straight h.lo_le h.skip (by have := h.le_hi; omega) htest

theorem moves_landing (h : Guards t lo hi k ops p back) (hm : m.calls = t :: ts) :
    Moves image ts.length lo hi 1 (m.seek (k + (ops.length + 1 + p.size + 1)))
      (m.seek (k + (ops.length + 1 + p.size + 2))) :=
  moves_nop hm h.landing (by have := h.lo_le; have := h.le_hi; omega)

theorem moves_skip (h : Guards t lo hi k ops p back) (hm : m.calls = t :: ts)
    (htest : Machine.test image ops m = .ok false m') :
    Moves image ts.length lo hi (ops.length + 1 + 1) (m.seek k)
      (m'.seek (k + (ops.length + 1 + p.size + 2))) := by
  have hm' : m'.calls = t :: ts := ((Local.test image h.straight).calls htest).trans hm
  have hskip : Moves image ts.length lo hi (ops.length + 1) (m.seek k)
      (m'.seek (k + (ops.length + 1 + p.size + 1))) :=
    moves_test hm h.test h.straight h.lo_le h.skip (by have := h.le_hi; omega) htest
  exact hskip.trans (h.moves_landing hm')

theorem moves_back (h : Guards t lo hi k ops p back) (hm : m.calls = t :: ts) :
    Moves image ts.length lo hi 1 (m.seek (k + (ops.length + 1) + p.size)) (m.seek back) :=
  moves_jump hm h.goBack (by have := h.lo_le; have := h.le_hi; omega)

theorem breaks {e : Failure} (h : Guards t lo hi k ops p back) (hm : m.calls = t :: ts)
    (htest : Machine.test image ops m = .error e m') :
    Breaks image ts.length lo hi (m.seek k) e m'.output :=
  breaks_test hm h.test h.straight h.lo_le h.skip (by have := h.le_hi; omega) htest

end Guards

theorem Executes.leads {m : Machine} {r : Finish} (h : Executes image p m r)
    (hm : m.calls = t :: ts) (hp : Placed t lo hi k p) :
    Attains image ts.length lo hi (m.seek k) (k + p.size) r := by
  induction h generalizing k with
  | act h => exact ⟨_, moves_perform hm hp.holds hp.straight hp.lo_le hp.le_hi h⟩
  | act_fails h => exact (breaks_perform hm hp.holds hp.straight hp.lo_le hp.le_hi h).span
  | ret h =>
    obtain ⟨hmoves, hcalls⟩ :=
      moves_leave hm hp.holds.left hp.straight hp.lo_le hp.holds.right.head hp.le_hi h
    exact ⟨_, hmoves.span_iff.2 ⟨1, rfl, span_left (by simp [hcalls])⟩⟩
  | ret_fails h =>
    exact (breaks_leave hm hp.holds.left hp.straight hp.lo_le hp.holds.right.head hp.le_hi h).span
  | seq h _ ihp ihq =>
    obtain ⟨c, hc⟩ := ihp hm hp.left
    have hm' := (h.calls hp.left.straight rfl).trans hm
    rw [size, ← Nat.add_assoc]
    exact (ihq hm' hp.right).after hc
  | seq_stops _ hr ih => exact (ih hm hp.left).of_stops hr
  | @branch_true ops p m m' r h hbody ih =>
    have hg := hp.branch
    have hm' : m'.calls = t :: ts := ((Local.test image hg.straight).calls h).trans hm
    refine Attains.after (hg.moves_body hm h) ?_
    cases r with
    | falls m₂ =>
      have hm₂ : m₂.calls = t :: ts := (hbody.calls hg.body.straight rfl).trans hm'
      obtain ⟨c, hc⟩ := ih hm' hg.body
      exact ⟨_, (hc.trans (hg.moves_back hm₂)).trans (hg.moves_landing hm₂)⟩
    | returns m₂ | raises e out => exact (ih hm' hg.body).of_stops trivial
  | branch_false h => exact ⟨_, hp.branch.moves_skip hm h⟩
  | branch_fails h => exact (hp.branch.breaks hm h).span
  | @loop_true ops p m m₁ m₂ r h hbody _ ihp ihl =>
    have hg := hp.loop
    have hm₁ : m₁.calls = t :: ts := ((Local.test image hg.straight).calls h).trans hm
    have hm₂ : m₂.calls = t :: ts := (hbody.calls hg.body.straight rfl).trans hm₁
    obtain ⟨c, hc⟩ := ihp hm₁ hg.body
    exact (ihl hm₂ hp).after (((hg.moves_body hm h).trans hc).trans (hg.moves_back hm₂))
  | loop_stops h _ hr ih =>
    have hg := hp.loop
    have hm' := ((Local.test image hg.straight).calls h).trans hm
    exact ((ih hm' hg.body).of_stops hr).after (hg.moves_body hm h)
  | loop_false h => exact ⟨_, hp.loop.moves_skip hm h⟩
  | loop_fails h => exact (hp.loop.breaks hm h).span

theorem loop_ends {n : Nat} {m : Machine} {r : Finish} (hm : m.calls = t :: ts)
    (hp : Placed t lo hi k (.loop ops p))
    (ihp : ∀ {n j : Nat} {m : Machine} {r : Finish}, m.calls = t :: ts → Placed t lo hi j p →
      span image ts.length lo hi n (m.seek j) = some r → ∃ r', Executes image p m r')
    (h : span image ts.length lo hi n (m.seek k) = some r) :
    ∃ r', Executes image (.loop ops p) m r' := by
  -- every round takes a step at least
  induction n using Nat.strongRecOn generalizing m with
  | ind n ih =>
    have hg := hp.loop
    cases htest : test image ops m with
    | error e m₁ => exact ⟨_, .loop_fails htest⟩
    | ok b m₁ =>
      cases b with
      | false => exact ⟨_, .loop_false htest⟩
      | true =>
        have hm₁ : m₁.calls = t :: ts := ((Local.test image hg.straight).calls htest).trans hm
        obtain ⟨j, rfl, hbody⟩ := (hg.moves_body hm htest).span_iff.1 h
        obtain ⟨r', hr'⟩ := ihp hm₁ hg.body hbody
        cases r' with
        | returns m₂ | raises e out => exact ⟨_, .loop_stops htest hr' trivial⟩
        | falls m₂ =>
          have hm₂ : m₂.calls = t :: ts := (hr'.calls hg.body.straight rfl).trans hm₁
          obtain ⟨c, hc⟩ := hr'.leads hm₁ hg.body
          obtain ⟨i, rfl, hround⟩ := (hc.trans (hg.moves_back hm₂)).span_iff.1 hbody
          obtain ⟨r'', hr''⟩ := ih i (by omega) hm₂ hround
          exact ⟨r'', .loop_true htest hr' hr''⟩

theorem executes_of_span {n : Nat} {m : Machine} {r : Finish} (hm : m.calls = t :: ts)
    (hp : Placed t lo hi k p) (h : span image ts.length lo hi n (m.seek k) = some r) :
    ∃ r', Executes image p m r' := by
  induction p generalizing n k m r with
  | act ops =>
    cases hops : perform image ops m with
    | ok a m' => exact ⟨_, .act hops⟩
    | error e m' => exact ⟨_, .act_fails hops⟩
  | ret ops =>
    cases hops : leave image ops m with
    | ok a m' => exact ⟨_, .ret hops⟩
    | error e m' => exact ⟨_, .ret_fails hops⟩
  | seq p q ihp ihq =>
    obtain ⟨r', hr'⟩ := ihp hm hp.left h
    cases r' with
    | returns m₁ | raises e out => exact ⟨_, .seq_stops hr' trivial⟩
    | falls m₁ =>
      have hm₁ : m₁.calls = t :: ts := (hr'.calls hp.left.straight rfl).trans hm
      obtain ⟨c, hc⟩ := hr'.leads hm hp.left
      obtain ⟨i, rfl, hrest⟩ := hc.span_iff.1 h
      obtain ⟨r'', hr''⟩ := ihq hm₁ hp.right hrest
      exact ⟨r'', .seq hr' hr''⟩
  | branch ops p ihp =>
    have hg := hp.branch
    cases htest : test image ops m with
    | error e m₁ => exact ⟨_, .branch_fails htest⟩
    | ok b m₁ =>
      cases b with
      | false => exact ⟨_, .branch_false htest⟩
      | true =>
        have hm₁ : m₁.calls = t :: ts := ((Local.test image hg.straight).calls htest).trans hm
        obtain ⟨j, rfl, hbody⟩ := (hg.moves_body hm htest).span_iff.1 h
        obtain ⟨r', hr'⟩ := ihp hm₁ hg.body hbody
        exact ⟨r', .branch_true htest hr'⟩
  | loop ops p ihp => exact loop_ends hm hp ihp h

theorem span_iff_executes {m : Machine} {r : Finish} (hm : m.calls = t :: ts) (hp : p.straight)
    (hcode : Holds t k (p.code k)) :
    (∃ n, span image ts.length k (k + p.size) n (m.seek k) = some r) ↔
      ∃ r', Executes image p m r' ∧ r'.movedTo (k + p.size) = r := by
  have hplaced : Placed t k (k + p.size) k p := ⟨hp, hcode, Nat.le_refl _, Nat.le_refl _⟩
  have hends : ∀ r', Executes image p m r' →
      ∃ n, span image ts.length k (k + p.size) n (m.seek k) = some (r'.movedTo (k + p.size)) := by
    intro r' hr'
    have hl := hr'.leads hm hplaced
    cases r' with
    | returns m' | raises e out => exact hl
    | falls m' =>
      obtain ⟨c, hc⟩ := hl
      have hm' : m'.calls = t :: ts := (hr'.calls hp rfl).trans hm
      refine ⟨_, hc.span_iff.2 ⟨1, rfl, ?_⟩⟩
      have hout : ¬inside ts.length k (k + p.size) (m'.seek (k + p.size)) := by
        simp [inside_seek hm']
      rw [span, if_neg hout, if_pos (by simp [hm'])]
      rfl
  constructor
  · rintro ⟨n, hn⟩
    obtain ⟨r', hr'⟩ := executes_of_span hm hplaced hn
    obtain ⟨n', hn'⟩ := hends r' hr'
    exact ⟨r', hr', span_unique hn' hn⟩
  · rintro ⟨r', hr', rfl⟩
    exact hends r' hr'

end Placed
end StackLang.Flow
