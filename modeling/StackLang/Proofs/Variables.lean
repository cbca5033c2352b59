import Mathlib.Data.List.Induction
import Mathlib.Data.List.Nodup
import StackLang.Proofs.Stepping

namespace StackLang.Machine

def locals (m : Machine) : List Value := (m.frames.head?.map Frame.locals).getD []

/-- The innermost call had no variables and then stored the given values at the given addresses, in
this order. Whatever else was executed left its variables alone. -/
inductive Stores (image : Image) : List (Nat × Value) → Machine → Prop
  | entered {m : Machine} : m.frames ≠ [] → m.locals = [] → Stores image [] m
  | other {ws : List (Nat × Value)} {m m' : Machine} : Stores image ws m → m'.frames ≠ [] →
      m'.locals = m.locals → Stores image ws m'
  | store {ws : List (Nat × Value)} {m m' : Machine} {f : Frame} {below : List Frame} {x : Value}
      {stack : List Value} {a : Nat} {comment : String} : Stores image ws m →
      m.frames = f :: below → f.stack = x :: stack →
      exec image ⟨.store (.int a), comment⟩ m = .ok () m' → Stores image (ws ++ [(a, x)]) m'

/-- The value that was stored last at an address. -/
def latest (ws : List (Nat × Value)) (a : Nat) : Option Value :=
  (ws.reverse.find? (·.1 == a)).map Prod.snd

/-- Loading from an address that was stored to gives the value that was stored there last. -/
def Recalls (image : Image) (ws : List (Nat × Value)) (m : Machine) : Prop :=
  ∀ (a : Nat) (x : Value) (comment : String), latest ws a = some x →
    exec image ⟨.load (.int a), comment⟩ m = push x m

def Orderly (addresses : List Nat) : Prop :=
  addresses.Pairwise (· ≤ ·) ∧ ∀ i (h : i < addresses.length), addresses[i] ≤ i

instance (addresses : List Nat) : Decidable (Orderly addresses) :=
  inferInstanceAs (Decidable (_ ∧ _))

theorem latest_concat (ws : List (Nat × Value)) (a b : Nat) (x : Value) :
    latest (ws ++ [(a, x)]) b = if a = b then some x else latest ws b := by
  by_cases h : a = b <;> simp [latest, h]

theorem latest_isSome {ws : List (Nat × Value)} {a : Nat} :
    (latest ws a).isSome ↔ a ∈ ws.map Prod.fst := by
  simp [latest]

theorem orderly_concat {l : List Nat} {a : Nat} :
    Orderly (l ++ [a]) ↔ Orderly l ∧ a ≤ l.length ∧ ∀ b ∈ l, b ≤ a := by
  have hplaces : (∀ i (h : i < (l ++ [a]).length), (l ++ [a])[i] ≤ i) ↔
      (∀ i (h : i < l.length), l[i] ≤ i) ∧ a ≤ l.length := by
    constructor
    · intro h
      refine ⟨fun i hi => ?_, by simpa using h l.length (by simp)⟩
      have := h i (by simp; omega)
      rwa [List.getElem_append_left hi] at this
    · rintro ⟨h, ha⟩ i hi
      rw [List.getElem_append]
      split
      · exact h i _
      · rw [List.getElem_singleton]
        omega
  simp only [Orderly, List.pairwise_append, hplaces, List.pairwise_singleton, List.mem_singleton,
    forall_eq, true_and]
  exact ⟨fun ⟨⟨hl, ha⟩, hi, hlen⟩ => ⟨⟨hl, hi⟩, hlen, ha⟩,
    fun ⟨⟨hl, hi⟩, hlen, ha⟩ => ⟨⟨hl, ha⟩, hi, hlen⟩⟩

theorem Orderly.of_prefix {l l' : List Nat} (h : Orderly l) (hl : l' <+: l) : Orderly l' := by
  refine ⟨h.1.sublist hl.sublist, fun i hi => ?_⟩
  rw [hl.getElem hi]
  exact h.2 i _

theorem length_insertAt (x : Value) (n : Nat) (vs : List Value) :
    (insertAt x n vs).length = vs.length + 1 := by
  induction n, vs using insertAt.induct with
  | case1 vs => rfl
  | case2 n => rfl
  | case3 n v vs ih => rw [insertAt, List.length_cons, ih, List.length_cons]

theorem insertAt_perm (x : Value) (n : Nat) (vs : List Value) : (insertAt x n vs).Perm (x :: vs) := by
  induction n, vs using insertAt.induct with
  | case1 vs => exact .refl _
  | case2 n => exact .refl _
  | case3 n v vs ih => exact (ih.cons v).trans (.swap x v vs)

theorem insertAt_below {x : Value} {n k : Nat} {vs : List Value} (hk : k < n) (hlen : k < vs.length) :
    (insertAt x n vs)[k]? = vs[k]? := by
  induction n, vs using insertAt.induct generalizing k with
  | case1 vs => cases hk
  | case2 n => cases hlen
  | case3 n v vs ih =>
    cases k with
    | zero => rfl
    | succ k => exact ih (Nat.lt_of_succ_lt_succ hk) (Nat.lt_of_succ_lt_succ hlen)

theorem insertAt_same {x : Value} {n : Nat} {vs : List Value} (hn : n ≤ vs.length) :
    (insertAt x n vs)[n]? = some x := by
  induction n, vs using insertAt.induct with
  | case1 vs => rfl
  | case2 n => cases hn
  | case3 n v vs ih => exact ih (Nat.le_of_succ_le_succ hn)

theorem insertAt_above {x : Value} {n k : Nat} {vs : List Value} (hk : n ≤ k) :
    (insertAt x n vs)[k + 1]? = vs[k]? := by
  induction n, vs using insertAt.induct generalizing k with
  | case1 vs => rfl
  | case2 n =>
    cases hk <;> rfl
  | case3 n v vs ih =>
    cases k with
    | zero => cases hk
    | succ k => exact ih (Nat.le_of_succ_le_succ hk)

theorem insertAt_of_le {x : Value} {n : Nat} {vs : List Value} (h : vs.length ≤ n) :
    insertAt x n vs = vs ++ [x] := by
  induction n, vs using insertAt.induct with
  | case1 vs => rw [List.length_eq_zero_iff.1 (Nat.le_zero.1 h)]; rfl
  | case2 k => rfl
  | case3 k v vs ih => rw [insertAt, ih (Nat.le_of_succ_le_succ h), List.cons_append]

def placed (ws : List (Nat × Value)) : List Value :=
  ws.foldl (fun vs w => insertAt w.2 w.1 vs) []

theorem placed_concat (ws : List (Nat × Value)) (a : Nat) (x : Value) :
    placed (ws ++ [(a, x)]) = insertAt x a (placed ws) := by
  simp [placed]

theorem length_placed (ws : List (Nat × Value)) : (placed ws).length = ws.length := by
  induction ws using List.reverseRecOn with
  | nil => rfl
  | append_singleton ws w ih =>
    rw [placed_concat, length_insertAt, ih, List.length_append, List.length_singleton]

theorem placed_perm (ws : List (Nat × Value)) : (placed ws).Perm (ws.map Prod.snd) := by
  induction ws using List.reverseRecOn with
  | nil => exact .refl _
  | append_singleton ws w ih =>
    rw [placed_concat, List.map_append, List.map_singleton]
    exact (insertAt_perm _ _ _).trans ((ih.cons _).trans (List.perm_append_singleton _ _).symm)

section Frames

variable {image : Image} {m m' : Machine} {f : Frame} {below : List Frame} {x : Value}
  {stack : List Value} {a : Nat} {comment : String}

theorem exec_store (hm : m.frames = f :: below) (hf : f.stack = x :: stack)
    (ha : (a : Int) < Value.sizeLimit) :
    exec image ⟨.store (.int a), comment⟩ m =
      .ok () { m with frames := { f with stack, locals := insertAt x a f.locals } :: below } := by
  obtain ⟨heap, frames, input, output⟩ := m
  obtain ⟨t, pc, vs, operands⟩ := f
  cases hm
  cases hf
  have hguard : ¬(Value.sizeLimit ≤ (a : Int) ∨ (a : Int) < -Value.sizeLimit) := by
    unfold Value.sizeLimit at ha ⊢
    omega
  refine bind_eq_ok.2 ⟨x, _, rfl, bind_eq_ok.2 ⟨a, _, rfl, ?_⟩⟩
  rw [if_neg hguard]
  rfl

theorem lt_of_exec_store (h : exec image ⟨.store (.int a), comment⟩ m = .ok () m') :
    (a : Int) < Value.sizeLimit := by
  obtain ⟨x, m₁, -, h⟩ := bind_eq_ok.1 h
  obtain ⟨i, m₂, hi, h⟩ := bind_eq_ok.1 h
  cases hi
  by_cases hguard : Value.sizeLimit ≤ (a : Int) ∨ (a : Int) < -Value.sizeLimit
  · rw [if_pos hguard] at h
    cases h
  · omega

theorem push_cons (hm : m.frames = f :: below) :
    push x m = .ok () { m with frames := { f with stack := x :: f.stack } :: below } := by
  obtain ⟨heap, frames, input, output⟩ := m
  cases hm
  rfl

theorem exec_load (hm : m.frames = f :: below) :
    exec image ⟨.load (.int a), comment⟩ m =
      match f.locals[a]? with
      | some v => push v m
      | none => .error (.crash .outOfRange) m := by
  obtain ⟨heap, frames, input, output⟩ := m
  cases hm
  have hplace :
      (if (0 : Int) ≤ a then some (a : Int).toNat else place? f.locals.length a) = some a := by
    simp
  cases hv : f.locals[a]? with
  | some v =>
    refine bind_eq_ok.2 ⟨v, ⟨heap, f :: below, input, output⟩, ?_, rfl⟩
    refine bind_eq_ok.2 ⟨a, _, rfl, bind_eq_ok.2 ⟨f, _, rfl, ?_⟩⟩
    simp only [hplace, hv]
    rfl
  | none =>
    refine bind_eq_error.2 (.inl ?_)
    refine bind_eq_error.2 (.inr ⟨a, _, rfl, bind_eq_error.2 (.inr ⟨f, _, rfl, ?_⟩)⟩)
    simp only [hplace, hv]
    rfl

end Frames

variable {image : Image} {ws : List (Nat × Value)} {m : Machine}

theorem locals_cons {f : Frame} {below : List Frame} (h : m.frames = f :: below) :
    m.locals = f.locals := by
  simp [locals, h]

theorem Stores.locals_eq (h : Stores image ws m) : m.frames ≠ [] ∧ m.locals = placed ws := by
  induction h with
  | entered hframes hlocals => exact ⟨hframes, hlocals⟩
  | other _ hframes hlocals ih => exact ⟨hframes, hlocals.trans ih.2⟩
  | store _ hm hf h ih =>
    rw [exec_store hm hf (lt_of_exec_store h)] at h
    cases h
    refine ⟨List.cons_ne_nil _ _, ?_⟩
    rw [placed_concat, ← ih.2, locals_cons hm]
    rfl

theorem exists_stores (image : Image) (ws : List (Nat × Value))
    (h : ∀ w ∈ ws, (w.1 : Int) < Value.sizeLimit) : ∃ m, Stores image ws m := by
  induction ws using List.reverseRecOn with
  | nil =>
    refine ⟨⟨.empty, [.enter ⟨"", 0, #[]⟩], [], ""⟩, .entered (List.cons_ne_nil _ _) rfl⟩
  | append_singleton ws w ih =>
    obtain ⟨m, hm⟩ := ih fun w hw => h w (List.mem_append_left _ hw)
    have hready : Stores image ws { m with frames := [⟨⟨"", 0, #[]⟩, .int 0, m.locals, [w.2]⟩] } :=
      hm.other (List.cons_ne_nil _ _) rfl
    have hw : (w.1 : Int) < Value.sizeLimit := h w (List.mem_append_right _ List.mem_cons_self)
    have hexec : exec image ⟨.store (.int w.1), ""⟩ { m with
        frames := [⟨⟨"", 0, #[]⟩, .int 0, m.locals, [w.2]⟩] } = .ok () _ := exec_store rfl rfl hw
    exact ⟨_, hready.store rfl rfl hexec⟩

theorem recalls_iff (h : Stores image ws m) :
    Recalls image ws m ↔ ∀ a x, latest ws a = some x → (placed ws)[a]? = some x := by
  obtain ⟨hframes, hlocals⟩ := h.locals_eq
  obtain ⟨f, below, hm⟩ := List.exists_cons_of_ne_nil hframes
  rw [locals_cons hm] at hlocals
  simp only [Recalls, exec_load hm, hlocals]
  constructor
  · intro h a x hx
    have := h a x "" hx
    rw [push_cons hm] at this
    cases hv : (placed ws)[a]? with
    | none =>
      rw [hv] at this
      cases this
    | some v =>
      simp only [hv, push_cons hm] at this
      simpa using this
  · intro h a x comment hx
    rw [h a x hx]

theorem placed_of_orderly (h : Orderly (ws.map Prod.fst)) {a : Nat} {x : Value}
    (hx : latest ws a = some x) : (placed ws)[a]? = some x := by
  induction ws using List.reverseRecOn generalizing a x with
  | nil => cases hx
  | append_singleton ws w ih =>
    obtain ⟨b, y⟩ := w
    rw [List.map_append, List.map_singleton, orderly_concat] at h
    obtain ⟨horderly, hlen, hle⟩ := h
    rw [List.length_map, ← length_placed ws] at hlen
    rw [latest_concat] at hx
    rw [placed_concat]
    by_cases hb : b = a
    · subst hb
      rw [if_pos rfl] at hx
      rw [insertAt_same hlen, hx]
    · rw [if_neg hb] at hx
      have hold := ih horderly hx
      have hab : a ≤ b := hle a (latest_isSome.1 (Option.isSome_of_eq_some hx))
      rw [insertAt_below (by omega) (List.getElem?_eq_some_iff.1 hold).1, hold]

theorem exists_numbered (l : List Nat) :
    ∃ ws : List (Nat × Value), ws.map Prod.fst = l ∧ (ws.map Prod.snd).Nodup := by
  refine ⟨l.zipIdx.map fun w => (w.1, .int w.2), ?_, ?_⟩
  · simp [Function.comp_def]
  · have hvalues : (l.zipIdx.map fun w => (w.1, Value.int w.2)).map Prod.snd =
        (List.range' 0 l.length).map fun i : Nat => Value.int i := by
      rw [← List.zipIdx_map_snd 0 l, List.map_map, List.map_map]
      rfl
    rw [hvalues]
    exact List.Nodup.map (fun i j h => Int.ofNat_inj.1 (Value.int.inj h)) List.nodup_range'

theorem orderly_of_placed {l : List Nat}
    (h : ∀ ws : List (Nat × Value), ws.map Prod.fst <+: l → ∀ a x, latest ws a = some x →
      (placed ws)[a]? = some x) : Orderly l := by
  induction l using List.reverseRecOn with
  | nil => exact ⟨.nil, by simp⟩
  | append_singleton l a ih =>
    have hl := ih fun ws hws => h ws (hws.trans (List.prefix_append l [a]))
    obtain ⟨ws, rfl, hnodup⟩ := exists_numbered l
    have hbefore := h ws (List.prefix_append _ _)
    have hafter := h (ws ++ [(a, .null)]) (by simp)
    simp only [latest_concat, placed_concat] at hafter
    have hlen : a ≤ ws.length := by
      have := (List.getElem?_eq_some_iff.1 (hafter a .null (if_pos rfl))).1
      rw [length_insertAt, length_placed] at this
      omega
    refine orderly_concat.2 ⟨hl, by rwa [List.length_map], fun b hb => ?_⟩
    by_contra hab
    obtain ⟨y, hy⟩ := Option.isSome_iff_exists.1 (latest_isSome.2 hb)
    obtain ⟨c, rfl⟩ : ∃ c, b = c + 1 := Nat.exists_eq_add_of_le' (by omega)
    have hmoved := hafter (c + 1) y (by rw [if_neg (by omega), hy])
    rw [insertAt_above (by omega)] at hmoved
    have hdistinct := (placed_perm ws).nodup_iff.2 hnodup
    have := (List.getElem?_inj (List.getElem?_eq_some_iff.1 hmoved).1 hdistinct).1
      (hmoved.trans (hbefore _ y hy).symm)
    omega

/-- The variables of a call are a memory throughout a sequence of stores if and only if the
addresses are orderly. -/
theorem recalls_iff_orderly (image : Image) (l : List Nat)
    (hl : ∀ a ∈ l, (a : Int) < Value.sizeLimit) :
    (∀ ws m, ws.map Prod.fst <+: l → Stores image ws m → Recalls image ws m) ↔ Orderly l := by
  constructor
  · intro h
    refine orderly_of_placed fun ws hws => ?_
    have hsize : ∀ w ∈ ws, (w.1 : Int) < Value.sizeLimit := fun w hw =>
      hl _ (hws.subset (List.mem_map_of_mem hw))
    obtain ⟨m, hm⟩ := exists_stores image ws hsize
    exact (recalls_iff hm).1 (h ws m hws hm)
  · intro h ws m hws hm
    exact (recalls_iff hm).2 fun a x => placed_of_orderly (h.of_prefix hws)

theorem recalls_zero_one_one :
    (∀ a ∈ [0, 1, 1], ((a : Nat) : Int) < Value.sizeLimit) ∧ Orderly [0, 1, 1] ∧
      ∀ ws m, ws.map Prod.fst <+: [0, 1, 1] → Stores .empty ws m → Recalls .empty ws m := by
  have hsize : ∀ a ∈ [0, 1, 1], ((a : Nat) : Int) < Value.sizeLimit := by decide
  have horderly : Orderly [0, 1, 1] := by decide
  exact ⟨hsize, horderly, (recalls_iff_orderly .empty _ hsize).2 horderly⟩

/-- A store below an address takes its value away from it. -/
theorem not_recalls_after_store_below :
    ∃ m, Stores .empty [(0, .int 1), (1, .int 5), (0, .int 2)] m ∧
      latest [(0, .int 1), (1, .int 5), (0, .int 2)] 1 = some (.int 5) ∧
      exec .empty ⟨.load (.int 1), ""⟩ m = push (.int 1) m := by
  obtain ⟨m, hm⟩ := exists_stores .empty [(0, .int 1), (1, .int 5), (0, .int 2)] (by decide)
  obtain ⟨hframes, hlocals⟩ := hm.locals_eq
  obtain ⟨f, below, hf⟩ := List.exists_cons_of_ne_nil hframes
  rw [locals_cons hf] at hlocals
  have hload : exec .empty ⟨.load (.int (1 : Nat)), ""⟩ m = _ := exec_load hf
  rw [hlocals] at hload
  exact ⟨m, hm, by decide, hload⟩

end StackLang.Machine
