import StackLang.Proofs.Invariance
import StackLang.Proofs.Span

namespace StackLang.Machine

variable {image : Image} {lo hi : Nat}

/-- Computations that neither look at the place of the next instruction nor enter or leave a
call. -/
structure Local {α : Type} (x : Exec α) : Prop where
  blind : ∀ k, Blind (.place k) x
  calls : ∀ {m a m'}, x m = .ok a m' → m'.calls = m.calls

theorem calls_stable (ts : List Template) :
    Stable (fun _ => True) fun m => m.calls = ts where
  operands _ _ _ _ := trivial
  locals _ _ _ _ := trivial
  work hm hf _ _ := by rw [← hm, calls, calls, hf]; rfl
  talk _ _ hm := hm
  objects _ o _ := by cases o <;> simp [Object.All]
  alter hm _ := hm

namespace Local

variable {α β : Type}

theorem seek {x : Exec α} (hx : Local x) (m : Machine) (k : Nat) :
    x (m.seek k) = onState (Machine.seek k) (x m) := by
  rw [← Veil.cover_place]
  exact hx.blind k m

theorem seek_ok {x : Exec α} (hx : Local x) {m m' : Machine} {a : α} {k : Nat}
    (h : x m = .ok a m') : x (m.seek k) = .ok a (m'.seek k) := by
  rw [hx.seek, h]
  rfl

theorem seek_error {x : Exec α} (hx : Local x) {m m' : Machine} {e : Failure} {k : Nat}
    (h : x m = .error e m') : x (m.seek k) = .error e (m'.seek k) := by
  rw [hx.seek, h]
  rfl

protected theorem pure (a : α) : Local (pure a) where
  blind _ := .pure a
  calls h := by cases h; rfl

theorem bind {x : Exec α} {f : α → Exec β} (hx : Local x) (hf : ∀ a, Local (f a)) :
    Local (x >>= f) where
  blind k := (hx.blind k).bind fun a => (hf a).blind k
  calls h := by
    obtain ⟨a, m₁, hx', hf'⟩ := bind_eq_ok.1 h
    rw [(hf a).calls hf', hx.calls hx']

theorem pop : Local Machine.pop where
  blind _ := .pop
  calls {m _ _} h := (((calls_stable m.calls).pop admits_all).ok rfl h).1

/-- An operation stays in its call if it is no jump, no call and no return. -/
theorem of_blind {image : Image} {op : Op} (hop : op.sequential)
    (h : ∀ k, Blind (.place k) (Machine.exec image (.plain op))) :
    Local (Machine.exec image (.plain op)) where
  blind := h
  calls {m _ _} hm :=
    (((calls_stable m.calls).exec admits_all image hop fun _ _ => trivial).ok rfl hm).1

theorem exec (image : Image) {op : Op} (h : op.straight) :
    Local (Machine.exec image (.plain op)) := by
  refine of_blind (by cases op <;> first | rfl | cases h) fun k => ?_
  cases op with
  | length => exact .length fun _ => rfl
  | getField field => exact .getField (fun _ => rfl) field
  | getItem => exact .getItem fun _ => rfl
  | allocStruct | setField | allocArray | setItem | jump | jumpFalse | call | ret => cases h
  | _ => exact .exec image rfl

theorem perform (image : Image) {ops : List Op} (h : ∀ op ∈ ops, op.straight) :
    Local (Machine.perform image ops) := by
  induction ops with
  | nil => exact .pure ()
  | cons op ops ih =>
    exact .bind (.exec image (h op List.mem_cons_self)) fun _ =>
      ih fun op hop => h op (List.mem_cons_of_mem _ hop)

theorem test (image : Image) {ops : List Op} (h : ∀ op ∈ ops, op.straight) :
    Local (Machine.test image ops) :=
  .bind (.perform image h) fun _ => .bind .pop fun _ => .pure _

end Local

theorem jump_seek (m : Machine) (j : Nat) : jump (.int j) m = .ok () (m.seek j) := by
  obtain ⟨heap, _ | ⟨f, rest⟩, input, output⟩ := m <;> rfl

theorem exec_jumpFalse {m m' : Machine} {x : Value} {j k : Nat} (h : pop m = .ok x m') :
    exec image (.plain (.jumpFalse (.int j))) (m.seek k) =
      .ok () (m'.seek (if x.holds then k else j)) := by
  refine bind_eq_ok.2 ⟨x, m'.seek k, Local.pop.seek_ok h, ?_⟩
  by_cases hx : x.holds
  · have hskip : (!x.truthy || decide (x = .text "false")) = false := by
      simpa [Value.holds] using hx
    simp only [hskip, hx, if_true, if_false, Bool.false_eq_true]
    rfl
  · have hskip : (!x.truthy || decide (x = .text "false")) = true := by
      simp [Value.holds] at hx ⊢
      grind
    simp only [hskip, hx, if_true, if_false, Bool.false_eq_true, jump_seek, seek_seek]

theorem ret_seek {m m' : Machine} (h : ret m = .ok () m') :
    (∀ k, ret (m.seek k) = .ok () m') ∧ m'.calls = m.calls.tail := by
  obtain ⟨heap, _ | ⟨⟨t, pc, locals, _ | ⟨v, stack⟩⟩, rest⟩, input, output⟩ := m
  · cases h
  · cases h
  · cases h
    refine ⟨fun k => rfl, ?_⟩
    cases rest <;> rfl

theorem ret_seek_error {m m' : Machine} {e : Failure} (h : ret m = .error e m') (k : Nat) :
    ∃ m₁, ret (m.seek k) = .error e m₁ ∧ m₁.output = m'.output := by
  obtain ⟨heap, _ | ⟨⟨t, pc, locals, _ | ⟨v, stack⟩⟩, rest⟩, input, output⟩ := m
  · cases h
    exact ⟨_, rfl, rfl⟩
  · cases h
    exact ⟨_, rfl, rfl⟩
  · cases h

section Code

variable {m : Machine} {t : Template} {ts : List Template} {k : Nat}

/-- Operations stand in a template from place `k` on. -/
def Holds (t : Template) (k : Nat) (ops : List Op) : Prop :=
  ∀ i op, ops[i]? = some op → t.code[k + i]? = some (.plain op)

theorem Holds.left {a b : List Op} (h : Holds t k (a ++ b)) : Holds t k a := by
  intro i op hi
  have hlt := (List.getElem?_eq_some_iff.1 hi).1
  exact h i op (by rw [List.getElem?_append_left hlt, hi])

theorem Holds.right {a b : List Op} (h : Holds t k (a ++ b)) : Holds t (k + a.length) b := by
  intro i op hi
  have := h (a.length + i) op (by rw [List.getElem?_append_right (by omega)]; simpa using hi)
  simpa only [Nat.add_assoc] using this

theorem Holds.head {op : Op} {ops : List Op} (h : Holds t k (op :: ops)) :
    t.code[k]? = some (.plain op) := h 0 op rfl

theorem Holds.tail {op : Op} {ops : List Op} (h : Holds t k (op :: ops)) :
    Holds t (k + 1) ops := Holds.right (a := [op]) h

theorem moves_op {op : Op} {m' : Machine} (hm : m.calls = t :: ts)
    (hop : t.code[k]? = some (.plain op)) (hk : lo ≤ k ∧ k < hi)
    (h : exec image (.plain op) (m.seek (k + 1)) = .ok () m') :
    Moves image ts.length lo hi 1 (m.seek k) m' := by
  refine .step ((inside_seek hm).2 hk) ?_ (.none m')
  rw [step_seek hm hop]
  exact bind_eq_ok.2 ⟨(), m', h, rfl⟩

theorem breaks_op {op : Op} {e : Failure} {m' : Machine} (hm : m.calls = t :: ts)
    (hop : t.code[k]? = some (.plain op)) (hk : lo ≤ k ∧ k < hi)
    (h : exec image (.plain op) (m.seek (k + 1)) = .error e m') :
    Breaks image ts.length lo hi (m.seek k) e m'.output := by
  refine ⟨0, _, m', .none _, (inside_seek hm).2 hk, ?_, rfl⟩
  rw [step_seek hm hop]
  exact bind_eq_error.2 (.inl h)

theorem moves_jump {j : Nat} (hm : m.calls = t :: ts)
    (hop : t.code[k]? = some (.plain (.jump (.int j)))) (hk : lo ≤ k ∧ k < hi) :
    Moves image ts.length lo hi 1 (m.seek k) (m.seek j) := by
  refine moves_op hm hop hk ?_
  rw [← seek_seek m (k + 1) j]
  exact jump_seek _ j

theorem moves_nop (hm : m.calls = t :: ts) (hop : t.code[k]? = some (.plain .nop))
    (hk : lo ≤ k ∧ k < hi) : Moves image ts.length lo hi 1 (m.seek k) (m.seek (k + 1)) :=
  moves_op hm hop hk rfl

section Local

variable {ops : List Op} {m' : Machine} {e : Failure} (hm : m.calls = t :: ts)
  (hops : Holds t k ops) (hs : ∀ op ∈ ops, Local (exec image (.plain op))) (hlo : lo ≤ k)

include hm hops hs hlo

theorem moves_local (hhi : k + ops.length ≤ hi) (h : perform image ops m = .ok () m') :
    Moves image ts.length lo hi ops.length (m.seek k) (m'.seek (k + ops.length)) := by
  induction ops generalizing m k with
  | nil =>
    cases h
    exact .none _
  | cons op ops ih =>
    rw [List.length_cons] at hhi
    obtain ⟨⟨⟩, m₁, hop, hrest⟩ := bind_eq_ok.1 h
    have hlocal := hs op List.mem_cons_self
    have hfirst : Moves image ts.length lo hi 1 (m.seek k) (m₁.seek (k + 1)) :=
      moves_op hm hops.head ⟨hlo, by omega⟩ (hlocal.seek_ok hop)
    have hm₁ : m₁.calls = t :: ts := (hlocal.calls hop).trans hm
    have hlater := ih hm₁ hops.tail (fun op h => hs op (List.mem_cons_of_mem _ h)) (by omega)
      (by omega) hrest
    rw [List.length_cons, Nat.add_comm ops.length, ← Nat.add_assoc]
    exact hfirst.trans hlater

theorem breaks_local (hhi : k + ops.length ≤ hi) (h : perform image ops m = .error e m') :
    Breaks image ts.length lo hi (m.seek k) e m'.output := by
  induction ops generalizing m k with
  | nil => cases h
  | cons op ops ih =>
    rw [List.length_cons] at hhi
    have hlocal := hs op List.mem_cons_self
    obtain hop | ⟨⟨⟩, m₁, hop, hrest⟩ := bind_eq_error.1 h
    · rw [← output_seek m' (k + 1)]
      exact breaks_op hm hops.head ⟨hlo, by omega⟩ (hlocal.seek_error hop)
    · have hm₁ : m₁.calls = t :: ts := (hlocal.calls hop).trans hm
      have hfirst : Moves image ts.length lo hi 1 (m.seek k) (m₁.seek (k + 1)) :=
        moves_op hm hops.head ⟨hlo, by omega⟩ (hlocal.seek_ok hop)
      exact hfirst.breaks (ih hm₁ hops.tail (fun op h => hs op (List.mem_cons_of_mem _ h))
        (by omega) (by omega) hrest)

end Local

section Straight

variable {ops : List Op} {m' : Machine} {e : Failure} (hm : m.calls = t :: ts)
  (hops : Holds t k ops) (hs : ∀ op ∈ ops, op.straight) (hlo : lo ≤ k)

include hm hops hs hlo

theorem moves_perform (hhi : k + ops.length ≤ hi) (h : perform image ops m = .ok () m') :
    Moves image ts.length lo hi ops.length (m.seek k) (m'.seek (k + ops.length)) :=
  moves_local hm hops (fun op hop => .exec image (hs op hop)) hlo hhi h

theorem breaks_perform (hhi : k + ops.length ≤ hi) (h : perform image ops m = .error e m') :
    Breaks image ts.length lo hi (m.seek k) e m'.output :=
  breaks_local hm hops (fun op hop => .exec image (hs op hop)) hlo hhi h

theorem moves_test {j : Nat} {b : Bool}
    (hjump : t.code[k + ops.length]? = some (.plain (.jumpFalse (.int j))))
    (hhi : k + ops.length < hi) (h : test image ops m = .ok b m') :
    Moves image ts.length lo hi (ops.length + 1) (m.seek k)
      (m'.seek (if b then k + (ops.length + 1) else j)) := by
  obtain ⟨⟨⟩, m₁, hops', hpop⟩ := bind_eq_ok.1 h
  obtain ⟨x, m₂, hpop, hx⟩ := bind_eq_ok.1 hpop
  cases hx
  have hm₁ : m₁.calls = t :: ts := ((Local.perform image hs).calls hops').trans hm
  refine (moves_perform hm hops hs hlo (by omega) hops').trans ?_
  exact moves_op hm₁ hjump ⟨by omega, hhi⟩ (exec_jumpFalse hpop)

theorem breaks_test {j : Nat}
    (hjump : t.code[k + ops.length]? = some (.plain (.jumpFalse (.int j))))
    (hhi : k + ops.length < hi) (h : test image ops m = .error e m') :
    Breaks image ts.length lo hi (m.seek k) e m'.output := by
  obtain hops' | ⟨⟨⟩, m₁, hops', hpop⟩ := bind_eq_error.1 h
  · exact breaks_perform hm hops hs hlo (by omega) hops'
  · obtain hpop | ⟨x, m₂, -, hx⟩ := bind_eq_error.1 hpop
    · have hm₁ : m₁.calls = t :: ts := ((Local.perform image hs).calls hops').trans hm
      refine (moves_perform hm hops hs hlo (by omega) hops').breaks ?_
      rw [← output_seek m' (k + ops.length + 1)]
      exact breaks_op hm₁ hjump ⟨by omega, hhi⟩
        (bind_eq_error.2 (.inl (Local.pop.seek_error hpop)))
    · cases hx

theorem moves_leave (hret : t.code[k + ops.length]? = some (.plain .ret))
    (hhi : k + ops.length < hi) (h : leave image ops m = .ok () m') :
    Moves image ts.length lo hi (ops.length + 1) (m.seek k) m' ∧ m'.calls = ts := by
  obtain ⟨⟨⟩, m₁, hops', hm'⟩ := bind_eq_ok.1 h
  have hm₁ : m₁.calls = t :: ts := ((Local.perform image hs).calls hops').trans hm
  obtain ⟨hexec, hcalls⟩ := ret_seek hm'
  rw [hm₁] at hcalls
  exact ⟨(moves_perform hm hops hs hlo (by omega) hops').trans
    (moves_op hm₁ hret ⟨by omega, hhi⟩ (hexec _)), hcalls⟩

theorem breaks_leave (hret : t.code[k + ops.length]? = some (.plain .ret))
    (hhi : k + ops.length < hi) (h : leave image ops m = .error e m') :
    Breaks image ts.length lo hi (m.seek k) e m'.output := by
  obtain hops' | ⟨⟨⟩, m₁, hops', hm'⟩ := bind_eq_error.1 h
  · exact breaks_perform hm hops hs hlo (by omega) hops'
  · have hm₁ : m₁.calls = t :: ts := ((Local.perform image hs).calls hops').trans hm
    obtain ⟨m₂, hexec, hout⟩ := ret_seek_error hm' (k + ops.length + 1)
    rw [← hout]
    exact (moves_perform hm hops hs hlo (by omega) hops').breaks
      (breaks_op hm₁ hret ⟨by omega, hhi⟩ hexec)

end Straight
end Code
end StackLang.Machine
