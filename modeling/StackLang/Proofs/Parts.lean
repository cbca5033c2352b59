import StackLang.Proofs.Loose

namespace StackLang

open Generator

/-- The operation at place `i` may be followed by the one at place `k`. -/
def Precedes (b : List Loose) (i k : Nat) : Prop :=
  ∃ l, b[i]? = some l ∧
    ((l.passes ∧ k = i + 1) ∨ ∃ op, l = .op op ∧ op.jumps ∧ op.operand = address k)

/-- From the first of the places `lo` to `hi - 1` control comes to some of these, and from them to
others or to the exits. -/
def Region (b : List Loose) (lo hi : Nat) (exits : Nat → Prop) : Prop :=
  lo ≤ hi ∧ ∃ live : Nat → Prop, (live lo ∨ (lo = hi ∧ exits hi)) ∧
    (∀ i, live i → lo ≤ i ∧ i < hi) ∧ ∀ i k, live i → Precedes b i k → live k ∨ exits k

/-- The end of a part, if control can come to it. -/
def Exit (through : Bool) (hi : Nat) (k : Nat) : Prop := through ∧ k = hi

theorem address_inj {j k : Nat} (h : address j = address k) : j = k :=
  Int.ofNat_inj.1 (Value.int.inj h)

theorem pending_ne_address {k : Nat} : pending ≠ address k := by
  rw [pending, address, Ne, Value.int.injEq]
  omega

namespace Region

variable {a b : List Loose} {lo mid hi : Nat} {E E₁ E₂ : Nat → Prop} {p q : Bool}

theorem le (h : Region b lo hi E) : lo ≤ hi := h.1

theorem mono (h : Region b lo hi E₁) (hE : ∀ k, E₁ k → E k) : Region b lo hi E := by
  obtain ⟨hle, live, hentry, hrange, hclosed⟩ := h
  refine ⟨hle, live, ?_, hrange, fun i k hi hk => ?_⟩
  · exact hentry.imp_right fun h => ⟨h.1, hE _ h.2⟩
  · exact (hclosed i k hi hk).imp_right (hE k)

theorem join (h₁ : Region b lo mid E₁) (h₂ : Region b mid hi E₂)
    (hE₁ : ∀ k, E₁ k → k = mid ∨ (k = lo ∧ lo < hi) ∨ E k)
    (hE₂ : ∀ k, E₂ k → (k = mid ∧ mid < hi) ∨ (k = lo ∧ lo < hi) ∨ E k) : Region b lo hi E := by
  obtain ⟨hle₁, live₁, hentry₁, hrange₁, hclosed₁⟩ := h₁
  obtain ⟨hle₂, live₂, hentry₂, hrange₂, hclosed₂⟩ := h₂
  have hmid : live₂ mid ∨ (mid = hi ∧ E mid) := by
    obtain hlive | ⟨rfl, hexit⟩ := hentry₂
    · exact .inl hlive
    · obtain ⟨-, h⟩ | ⟨h, h'⟩ | h := hE₂ _ hexit
      · omega
      · omega
      · exact .inr ⟨rfl, h⟩
  have hlo : lo < hi → live₁ lo ∨ live₂ lo := by
    intro hlt
    obtain hlive | ⟨rfl, -⟩ := hentry₁
    · exact .inl hlive
    · obtain hlive | ⟨h, -⟩ := hmid
      · exact .inr hlive
      · omega
  refine ⟨Nat.le_trans hle₁ hle₂, fun i => live₁ i ∨ live₂ i, ?_, ?_, ?_⟩
  · obtain hlive | ⟨rfl, -⟩ := hentry₁
    · exact .inl (.inl hlive)
    · obtain hlive | ⟨rfl, hexit⟩ := hmid
      · exact .inl (.inr hlive)
      · exact .inr ⟨rfl, hexit⟩
  · rintro i (h | h)
    · have := hrange₁ i h
      omega
    · have := hrange₂ i h
      omega
  · rintro i k (h | h) hk
    · obtain hlive | hexit := hclosed₁ i k h hk
      · exact .inl (.inl hlive)
      · obtain rfl | ⟨rfl, hlt⟩ | hexit := hE₁ k hexit
        · exact hmid.imp .inr And.right
        · exact .inl (hlo hlt)
        · exact .inr hexit
    · obtain hlive | hexit := hclosed₂ i k h hk
      · exact .inl (.inr hlive)
      · obtain ⟨rfl, -⟩ | ⟨rfl, hlt⟩ | hexit := hE₂ k hexit
        · exact hmid.imp .inr And.right
        · exact .inl (hlo hlt)
        · exact .inr hexit

theorem widen (h : Region b lo mid E) (hle : mid ≤ hi) (hE : ¬E mid) : Region b lo hi E := by
  obtain ⟨hle₁, live, hentry, hrange, hclosed⟩ := h
  refine ⟨Nat.le_trans hle₁ hle, live, ?_, fun i hi => ?_, hclosed⟩
  · obtain hlive | ⟨-, hexit⟩ := hentry
    · exact .inl hlive
    · exact absurd hexit hE
  · have := hrange i hi
    omega

theorem seq (h₁ : Region b lo mid (Exit p mid)) (h₂ : Region b mid hi (Exit q hi)) :
    Region b lo hi (Exit (p && q) hi) := by
  cases p with
  | true =>
    apply h₁.join h₂
    · rintro k ⟨-, rfl⟩
      exact .inl rfl
    · rintro k ⟨hq, rfl⟩
      exact .inr (.inr ⟨hq, rfl⟩)
  | false =>
    apply (h₁.widen h₂.le _).mono
    · rintro k ⟨hp, -⟩
      cases hp
    · rintro ⟨hp, -⟩
      cases hp

theorem straight (hle : lo ≤ hi) (hb : ∀ i l, lo ≤ i → i < hi → b[i]? = some l → l.inline) :
    Region b lo hi (Exit true hi) := by
  refine ⟨hle, fun i => lo ≤ i ∧ i < hi, ?_, fun _ h => h, ?_⟩
  · by_cases h : lo < hi
    · exact .inl ⟨Nat.le_refl _, h⟩
    · exact .inr ⟨by omega, rfl, rfl⟩
  · rintro i k ⟨hlo, hhi⟩ ⟨l, hl, ⟨-, rfl⟩ | ⟨op, rfl, hjumps, -⟩⟩
    · by_cases h : i + 1 < hi
      · exact .inl ⟨by omega, h⟩
      · exact .inr ⟨rfl, by omega⟩
    · have hinline := hb i _ hlo hhi hl
      rw [Loose.jumps_of_inline hinline] at hjumps
      cases hjumps

theorem single {l : Loose} (hl : b[lo]? = some l) (hE : ∀ k, Precedes b lo k → E k) :
    Region b lo (lo + 1) E := by
  refine ⟨Nat.le_succ lo, (· = lo), .inl rfl, ?_, ?_⟩
  · rintro i rfl
    omega
  · rintro i k rfl hk
    exact .inr (hE k hk)

theorem congr (h : Region a lo hi E) (hab : ∀ i l, lo ≤ i → i < hi → b[i]? = some l →
    ∃ l', a[i]? = some l' ∧ l'.Becomes l) : Region b lo hi E := by
  obtain ⟨hle, live, hentry, hrange, hclosed⟩ := h
  refine ⟨hle, live, hentry, hrange, ?_⟩
  rintro i k hlive ⟨l, hl, hk⟩
  obtain ⟨hlo, hhi⟩ := hrange i hlive
  obtain ⟨l', hl', hbecomes⟩ := hab i l hlo hhi hl
  apply hclosed i k hlive
  obtain rfl | ⟨hinline', hinline⟩ := hbecomes.cases
  · exact ⟨l, hl', hk⟩
  · obtain ⟨-, rfl⟩ | ⟨op, rfl, hjumps, -⟩ := hk
    · exact ⟨l', hl', .inl ⟨Loose.passes_of_inline hinline', rfl⟩⟩
    · rw [Loose.jumps_of_inline hinline] at hjumps
      cases hjumps

theorem grow (h : Region a lo hi E) (hab : Grows a b) (hle : hi ≤ a.length) : Region b lo hi E := by
  apply h.congr
  intro i l hlo hhi hl
  obtain ⟨l', hl'⟩ : ∃ l', a[i]? = some l' := ⟨_, List.getElem?_eq_getElem (by omega)⟩
  obtain ⟨l'', hl'', hbecomes⟩ := hab.keeps i l' hl'
  cases hl.symm.trans hl''
  exact ⟨l', hl', hbecomes⟩

theorem set (h : Region b lo hi E) {i : Nat} {l : Loose} (hi' : i < lo ∨ hi ≤ i) :
    Region (b.set i l) lo hi E := by
  apply h.congr
  intro j l' hlo hhi hl'
  rw [List.getElem?_set_ne (by omega)] at hl'
  exact ⟨l', hl', .inl rfl⟩

theorem of_prolongs (h : Prolongs a b) : Region b a.length b.length (Exit true b.length) :=
  straight h.length_le fun i l hlo _ hl => h.inline i l hlo hl

theorem jump {v : Value} (hl : b[lo]? = some (.op (.jump v))) (hE : ∀ k, v = address k → E k) :
    Region b lo (lo + 1) E := by
  apply single hl
  rintro k ⟨l, hl', ⟨hpasses, -⟩ | ⟨op, rfl, -, hk⟩⟩
  · cases hl.symm.trans hl'
    cases hpasses
  · cases hl.symm.trans hl'
    exact hE k hk

theorem nop (hl : b[lo]? = some (.op .nop)) : Region b lo (lo + 1) (· = lo + 1) := by
  apply single hl
  rintro k ⟨l, hl', ⟨-, hk⟩ | ⟨op, rfl, hjumps, -⟩⟩
  · exact hk
  · cases hl.symm.trans hl'
    cases hjumps

theorem returned (h : Prolongs a b) :
    Region (b ++ [.op .ret]) a.length (b.length + 1) fun _ => False := by
  have hvalue : Region (b ++ [.op .ret]) a.length b.length (Exit true b.length) :=
    (of_prolongs h).grow ((Grows.refl b).push (Op.aims_of_not_jumps rfl)) (Nat.le_refl _)
  have hret : Region (b ++ [.op .ret]) b.length (b.length + 1) fun _ => False := by
    apply single List.getElem?_concat_length
    rintro k ⟨l, hl, ⟨hpasses, -⟩ | ⟨op, rfl, hjumps, -⟩⟩
    · rw [List.getElem?_concat_length] at hl
      cases hl
      cases hpasses
    · rw [List.getElem?_concat_length] at hl
      cases hl
      cases hjumps
  apply hvalue.join hret
  · rintro k ⟨-, rfl⟩
    exact .inl rfl
  · exact fun _ => False.elim

theorem arm {v : Value} (h : Region b lo hi fun k => k = hi + 1 ∨ Exit p hi k)
    (hl : b[hi]? = some (.op (.jump v))) (hE : ∀ k, v = address k → E k) :
    Region b lo (hi + 1) fun k => k = hi + 1 ∨ (p ∧ E k) := by
  cases p with
  | true =>
    apply h.join (jump hl hE)
    · rintro k (h | ⟨-, h⟩)
      · exact .inr (.inr (.inl h))
      · exact .inl h
    · exact fun k h => .inr (.inr (.inr ⟨rfl, h⟩))
  | false =>
    have hleft (k : Nat) : ¬Exit false hi k := fun h => Bool.noConfusion h.1
    apply (h.widen (Nat.le_succ hi) _).mono
    · exact fun k hk => .inl (hk.resolve_right (hleft k))
    · rintro (h | h)
      · omega
      · exact hleft _ h

section Guard

variable {b₁ b₂ b₃ b₄ : List Loose} (h₁ : Prolongs a b₁)
  (h₂ : Grows (b₁ ++ [.op (.jumpFalse pending)]) b₂)
  (hbody : Region b₂ (b₁.length + 1) b₂.length (Exit p b₂.length))

include h₁ h₂ hbody

theorem guard (h₃ : Grows b₂ b) (n : Nat) :
    Region (b.set b₁.length (.op (.jumpFalse (address n)))) a.length b₂.length
      fun k => k = n ∨ Exit p b₂.length k := by
  have hlt := h₂.length_lt
  have hle := h₃.length_le
  have hgrows : Grows b₁ b :=
    (((Grows.refl b₁).push (Op.aims_pending rfl)).trans h₂).trans h₃
  have htest : Region (b.set b₁.length (.op (.jumpFalse (address n)))) a.length b₁.length
      (Exit true b₁.length) :=
    ((of_prolongs h₁).grow hgrows (Nat.le_refl _)).set (.inr (Nat.le_refl _))
  have hplace : (b.set b₁.length (.op (.jumpFalse (address n))))[b₁.length]? =
      some (.op (.jumpFalse (address n))) := List.getElem?_set_self (by omega)
  have hskip : Region (b.set b₁.length (.op (.jumpFalse (address n)))) b₁.length (b₁.length + 1)
      fun k => k = n ∨ k = b₁.length + 1 := by
    apply single hplace
    rintro k ⟨l, hl, ⟨-, hk⟩ | ⟨op, rfl, -, hk⟩⟩
    · exact .inr hk
    · cases hplace.symm.trans hl
      exact .inl (address_inj hk).symm
  have hbody' := (hbody.grow h₃ (Nat.le_refl _)).set (l := .op (.jumpFalse (address n)))
    (.inl (Nat.lt_succ_self b₁.length))
  have hcondition : Region (b.set b₁.length (.op (.jumpFalse (address n)))) a.length
      (b₁.length + 1) fun k => k = n ∨ k = b₁.length + 1 := by
    apply htest.join hskip
    · rintro k ⟨-, rfl⟩
      exact .inl rfl
    · exact fun k h => .inr (.inr h)
  apply hcondition.join hbody'
  · rintro k (h | h)
    · exact .inr (.inr (.inl h))
    · exact .inl h
  · exact fun k h => .inr (.inr (.inr h))

theorem looped (h₃ : Prolongs b₂ b₃) :
    let b := (b₃ ++ [.op (.jump (address a.length))]) ++ [.op .nop]
    let b' := b.set b₁.length (.op (.jumpFalse (address (b.length - 1))))
    Region b' a.length b.length (Exit true b.length) := by
  intro b b'
  have hlength : b.length = b₃.length + 2 := by simp [b]
  have hlt := h₂.length_lt
  have hle₁ := h₁.length_le
  have hle₃ := h₃.length_le
  have hgrows : Grows b₃ b := ((Grows.refl b₃).push (Op.aims_jump (by omega))).push
    (Op.aims_of_not_jumps rfl)
  have hguard : Region b' a.length b₂.length fun k => k = b.length - 1 ∨ Exit p b₂.length k :=
    guard h₁ h₂ hbody (h₃.toGrows.trans hgrows) (b.length - 1)
  have hstep : Region b' b₂.length b₃.length (Exit true b₃.length) :=
    ((of_prolongs h₃).grow hgrows (Nat.le_refl _)).set (.inl (by omega))
  have hback : Region b' b₃.length (b₃.length + 1) (· = a.length) := by
    apply jump (v := address a.length)
    · rw [List.getElem?_set_ne (by omega)]
      simp [b]
    · exact fun k hk => (address_inj hk).symm
  have hend : Region b' (b₃.length + 1) b.length (Exit true b.length) := by
    rw [hlength]
    refine (nop ?_).mono fun k hk => ⟨rfl, hk⟩
    rw [List.getElem?_set_ne (by omega)]
    simp [b]
  have hround : Region b' a.length b₃.length fun k => k = b₃.length + 1 ∨ k = b₃.length := by
    apply hguard.join hstep
    · rintro k (rfl | ⟨-, rfl⟩)
      · exact .inr (.inr (.inl (by omega)))
      · exact .inl rfl
    · rintro k ⟨-, rfl⟩
      exact .inr (.inr (.inr rfl))
  have hloop : Region b' a.length (b₃.length + 1) (· = b₃.length + 1) := by
    apply hround.join hback
    · rintro k (h | h)
      · exact .inr (.inr h)
      · exact .inl h
    · exact fun k h => .inr (.inl ⟨h, by omega⟩)
  apply hloop.join hend
  · exact fun k h => .inl h
  · exact fun k h => .inr (.inr h)

theorem alone :
    let b := (b₂ ++ [.op (.jump pending)]) ++ [.op .nop]
    let b' := b.set b₁.length (.op (.jumpFalse (address (b.length - 1))))
    Region (b'.set b₂.length (.op (.jump (address (b.length - 1))))) a.length b.length
      (Exit true b.length) := by
  intro b b'
  have hlength : b.length = b₂.length + 1 + 1 := by simp [b]
  have hlt := h₂.length_lt
  have hgrows : Grows b₂ b :=
    ((Grows.refl b₂).push (Op.aims_pending rfl)).push (Op.aims_of_not_jumps rfl)
  have hguard : Region b' a.length b₂.length fun k => k = b.length - 1 ∨ Exit p b₂.length k :=
    guard h₁ h₂ hbody hgrows (b.length - 1)
  rw [hlength, Nat.add_sub_cancel] at hguard ⊢
  have hguard' := hguard.set (l := .op (.jump (address (b₂.length + 1)))) (.inr (Nat.le_refl _))
  have harm := hguard'.arm (List.getElem?_set_self (by simp only [b', List.length_set]; omega))
    fun k hk => (address_inj hk).symm
  have hend : Region (b'.set b₂.length (.op (.jump (address (b₂.length + 1))))) (b₂.length + 1)
      (b₂.length + 1 + 1) (· = b₂.length + 1 + 1) := by
    apply nop
    rw [List.getElem?_set_ne (by omega), List.getElem?_set_ne (by omega)]
    simp [b]
  apply harm.join hend
  · rintro k (h | ⟨-, h⟩)
    · exact .inl h
    · exact .inl h
  · exact fun k h => .inr (.inr ⟨rfl, h⟩)

/-- An alternative with further ones behind it. The jump behind it is still to be completed. -/
theorem branch :
    Region ((b₂ ++ [Loose.op (.jump pending)]).set b₁.length
      (.op (.jumpFalse (address (b₂.length + 1))))) a.length (b₂.length + 1)
      (Exit true (b₂.length + 1)) := by
  have hlt := h₂.length_lt
  have hgrows : Grows b₂ (b₂ ++ [Loose.op (.jump pending)]) :=
    (Grows.refl b₂).push (Op.aims_pending rfl)
  have hguard := guard h₁ h₂ hbody hgrows (b₂.length + 1)
  have hjump : ((b₂ ++ [Loose.op (.jump pending)]).set b₁.length
      (.op (.jumpFalse (address (b₂.length + 1)))))[b₂.length]? = some (.op (.jump pending)) := by
    rw [List.getElem?_set_ne (by omega), List.getElem?_concat_length]
  apply (hguard.arm hjump fun k hk => pending_ne_address hk).mono
  rintro k (h | ⟨-, h⟩)
  · exact ⟨rfl, h⟩
  · exact h.elim

theorem chain
    (h₃ : Grows ((b₂ ++ [Loose.op (.jump pending)]).set b₁.length
      (.op (.jumpFalse (address (b₂.length + 1))))) b₃)
    (hothers : Region b₃ (b₂.length + 1) b₃.length (Exit true b₃.length)) (h₄ : Grows b₃ b₄)
    (hlast : Region b₄ b₃.length b₄.length (Exit q b₄.length)) :
    Region (b₄.set b₂.length (.op (.jump (address b₄.length)))) a.length b₄.length
      (Exit (p || q) b₄.length) := by
  have hle₃ := h₃.length_le
  rw [List.length_set, List.length_append, List.length_singleton] at hle₃
  have hle₄ := h₄.length_le
  have hgrows : Grows b₂ (b₂ ++ [Loose.op (.jump pending)]) :=
    (Grows.refl b₂).push (Op.aims_pending rfl)
  have hguard := guard h₁ h₂ hbody hgrows (b₂.length + 1)
  have hguard' := (hguard.grow (h₃.trans h₄) (by simp)).set
    (l := .op (.jump (address b₄.length))) (.inr (Nat.le_refl _))
  have harm := hguard'.arm (List.getElem?_set_self (by omega))
    fun k hk => (address_inj hk).symm
  have hothers' := (hothers.grow h₄ (Nat.le_refl _)).set
    (l := .op (.jump (address b₄.length))) (.inl (Nat.lt_succ_self _))
  have hlast' := hlast.set (i := b₂.length) (l := .op (.jump (address b₄.length)))
    (.inl (by omega))
  have hrest := hothers'.seq hlast'
  apply harm.join hrest
  · rintro k (h | ⟨hp, h⟩)
    · exact .inl h
    · exact .inr (.inr ⟨by simp [hp], h⟩)
  · rintro k ⟨hq, h⟩
    exact .inr (.inr ⟨by simpa using .inr hq, h⟩)

end Guard

end Region

/-- If code ends with a jump, that one is not completed. -/
def LastPends (b : List Loose) : Prop :=
  ∀ op, b.getLast? = some (.op op) → op.jumps → op.operand = pending

section LastPends

variable {a b : List Loose} {l : Loose}

theorem LastPends.concat {op : Op} (h : op.jumps → op.operand = pending) :
    LastPends (b ++ [.op op]) := by
  intro op' hop'
  rw [List.getLast?_concat, Option.some.injEq] at hop'
  cases hop'
  exact h

theorem LastPends.push {op : Op} (h : op.jumps = false) : LastPends (b ++ [.op op]) := by
  apply concat
  rw [h]
  exact Bool.noConfusion

theorem LastPends.set {i : Nat} (h : LastPends b) (hi : i + 1 < b.length) :
    LastPends (b.set i l) := by
  intro op hop
  rw [getLast?_set_of_lt hi] at hop
  exact h op hop

theorem LastPends.extend (h : LastPends a) (hab : Prolongs a b) : LastPends b := by
  intro op hop hjumps
  rw [List.getLast?_eq_getElem?] at hop
  have hinline : ¬(Loose.op op).inline := fun hinline => by
    rw [Loose.jumps_of_inline hinline] at hjumps
    cases hjumps
  have hlt := (List.getElem?_eq_some_iff.1 hop).1
  by_cases hle : a.length ≤ b.length - 1
  · exact absurd (hab.inline _ _ hle hop) hinline
  · -- Nothing was added, so the jump was the last operation before.
    have hlength : a.length = b.length := by
      have := hab.length_le
      omega
    obtain ⟨l', hl'⟩ : ∃ l', a[b.length - 1]? = some l' := ⟨_, List.getElem?_eq_getElem (by omega)⟩
    obtain ⟨l'', hl'', hbecomes⟩ := hab.keeps _ l' hl'
    cases hop.symm.trans hl''
    obtain rfl | ⟨-, h'⟩ := hbecomes.cases
    · refine h op ?_ hjumps
      rw [List.getLast?_eq_getElem?, hlength]
      exact hl'
    · exact absurd h' hinline

end LastPends

/-- What is known of the code of statements that declare the given variables: with `past` it does
not end by returning, and without `completes` control does not come behind it. -/
structure Assembled (names : List String) (past completes : Bool) (a b : List Loose) : Prop where
  grows : Grows a b
  past : past → Past a b
  pends : LastPends a → LastPends b
  part : Region b a.length b.length (Exit completes b.length)
  stores : names ≠ [] → ∃ k, .store (.own k) ∈ b

namespace Assembled

variable {names names' : List String} {past past' completes completes' p q : Bool}
  {a b : List Loose}

theorem of_prolongs (h : Prolongs a b) (hpast : past → Past a b)
    (hstores : names ≠ [] → ∃ k, .store (.own k) ∈ b) : Assembled names past true a b :=
  ⟨h.toGrows, hpast, fun ha => ha.extend h, .of_prolongs h, hstores⟩

theorem seq {b' : List Loose} (h : Assembled names past completes a b)
    (h' : Assembled names' past' completes' b b') :
    Assembled (names ++ names') past' (completes && completes') a b' where
  grows := h.grows.trans h'.grows
  past hpast := (h'.past hpast).of_le h.grows.length_le
  pends ha := h'.pends (h.pends ha)
  part := (h.part.grow h'.grows (Nat.le_refl _)).seq h'.part
  stores hne := by
    by_cases hnames : names' = []
    · rw [hnames, List.append_nil] at hne
      obtain ⟨k, hk⟩ := h.stores hne
      obtain ⟨i, hi⟩ := List.mem_iff_getElem?.1 hk
      obtain ⟨l, hl, rfl | ⟨hop, -⟩⟩ := h'.grows.keeps i _ hi
      · exact ⟨k, List.mem_iff_getElem?.2 ⟨i, hl⟩⟩
      · cases hop
    · exact h'.stores hnames

theorem weaken (h : Assembled names past completes a b) (hpast : past' → past)
    (hcompletes : completes → completes') : Assembled names past' completes' a b :=
  ⟨h.grows, fun hp => h.past (hpast hp), h.pends, h.part.mono fun _ hk => ⟨hcompletes hk.1, hk.2⟩,
    h.stores⟩

theorem enclosed (h : Assembled names past completes a b) : Assembled [] past completes a b :=
  ⟨h.grows, h.past, h.pends, h.part, by simp⟩

theorem returned (h : Prolongs a b) : Assembled [] false false a (b ++ [.op .ret]) where
  grows := h.toGrows.push (Op.aims_of_not_jumps rfl)
  past := by simp
  pends _ := .push rfl
  part := by
    rw [List.length_append]
    exact (Region.returned h).mono fun _ => False.elim
  stores := by simp

section Guard

variable {b₁ b₂ b₃ b₄ : List Loose} (h₁ : Prolongs a b₁)
  (h₂ : Assembled names past p (b₁ ++ [.op (.jumpFalse pending)]) b₂)

include h₂

theorem body : Region b₂ (b₁.length + 1) b₂.length (Exit p b₂.length) := by
  have hpart := h₂.part
  rwa [List.length_append] at hpart

include h₁

theorem guard_grows : Grows a b₂ := (h₁.toGrows.push (Op.aims_pending rfl)).trans h₂.grows

theorem looped (h₃ : Prolongs b₂ b₃) :
    let b := (b₃ ++ [.op (.jump (address a.length))]) ++ [.op .nop]
    Assembled [] true true a (b.set b₁.length (.op (.jumpFalse (address (b.length - 1))))) := by
  intro b
  have hgrows := (guard_grows h₁ h₂).trans h₃.toGrows
  have hlt : b₁.length + 1 < b.length := by
    have := h₂.grows.length_lt
    have := h₃.length_le
    simp only [b, List.length_append, List.length_singleton]
    omega
  have hjump : a.length ≤ (b₃ ++ [Loose.op (.jump (address a.length))]).length := by
    rw [List.length_append]
    exact Nat.le_add_right_of_le hgrows.length_le
  constructor
  · apply ((hgrows.push (Op.aims_jump hgrows.length_le)).push (Op.aims_of_not_jumps rfl)).set
      h₁.length_le
    exact Op.aims_jumpFalse (Nat.sub_le _ _)
  · exact fun _ => (Past.concat hjump (by simp)).set hlt
  · exact fun _ => (LastPends.push rfl).set hlt
  · rw [List.length_set]
    exact Region.looped h₁ h₂.grows (body h₂) h₃
  · simp

theorem alone :
    let b := (b₂ ++ [.op (.jump pending)]) ++ [.op .nop]
    let b' := b.set b₁.length (.op (.jumpFalse (address (b.length - 1))))
    Assembled [] true true a (b'.set b₂.length (.op (.jump (address (b.length - 1))))) := by
  intro b b'
  have hgrows := guard_grows h₁ h₂
  have hlength : b.length = b₂.length + 1 + 1 := by simp [b]
  have hlength' : b'.length = b.length := List.length_set
  have hlt : b₁.length + 1 < b.length := by
    have := h₂.grows.length_lt
    omega
  have hlt' : b₂.length + 1 < b'.length := by omega
  constructor
  · apply Grows.set _ hgrows.length_le (Op.aims_jump (by omega))
    apply Grows.set _ h₁.length_le (Op.aims_jumpFalse (Nat.sub_le _ _))
    exact (hgrows.push (Op.aims_pending rfl)).push (Op.aims_of_not_jumps rfl)
  · intro _
    apply (Past.set _ hlt).set hlt'
    apply Past.concat _ (by simp)
    rw [List.length_append]
    exact Nat.le_add_right_of_le hgrows.length_le
  · exact fun _ => ((LastPends.push rfl).set hlt).set hlt'
  · rw [List.length_set, hlength']
    exact Region.alone h₁ h₂.grows (body h₂)
  · simp

theorem branch :
    let b := b₂ ++ [Loose.op (.jump pending)]
    Assembled [] true true a (b.set b₁.length (.op (.jumpFalse (address b.length)))) := by
  intro b
  have hgrows := guard_grows h₁ h₂
  have hlength : b.length = b₂.length + 1 := by simp [b]
  have hlt : b₁.length + 1 < b.length := by
    have := h₂.grows.length_lt
    omega
  constructor
  · exact (hgrows.push (Op.aims_pending rfl)).set h₁.length_le (Op.aims_jumpFalse (Nat.le_refl _))
  · exact fun _ => (Past.concat hgrows.length_le (by simp)).set hlt
  · exact fun _ => (LastPends.concat fun _ => rfl).set hlt
  · rw [List.length_set, hlength]
    exact Region.branch h₁ h₂.grows (body h₂)
  · simp

theorem chain {b : List Loose} (hb : b = b₂ ++ [.op (.jump pending)])
    (h₃ : Assembled [] true true (b.set b₁.length (.op (.jumpFalse (address b.length)))) b₃)
    (h₄ : Assembled names' past' q b₃ b₄) :
    Assembled [] past' (p || q) a (b₄.set b₂.length (.op (.jump (address b₄.length)))) := by
  subst hb
  have hbranch := branch h₁ h₂
  have hothers := hbranch.seq h₃
  have hgrows := hothers.grows.trans h₄.grows
  have hlt : b₂.length + 1 < b₄.length := by
    have := (h₃.past rfl).lt
    have := h₄.grows.length_le
    simp only [List.length_set, List.length_append, List.length_singleton] at *
    omega
  constructor
  · exact hgrows.set (guard_grows h₁ h₂).length_le (Op.aims_jump (Nat.le_refl _))
  · exact fun hpast => ((h₄.past hpast).of_le hothers.grows.length_le).set hlt
  · exact fun ha => (h₄.pends (hothers.pends ha)).set hlt
  · have hpart := h₃.part
    have hgrows' := h₃.grows
    rw [List.length_set, List.length_append] at hpart
    rw [List.length_append] at hgrows'
    rw [List.length_set]
    exact Region.chain h₁ h₂.grows (body h₂) hgrows' hpart h₄.grows h₄.part
  · simp

end Guard

end Assembled
end StackLang
