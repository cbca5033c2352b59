import StackLang.Proofs.Endings

namespace StackLang

open Generator

mutual

/-- Whether a choice in the statement, however deep, has alternatives with conditions. -/
def Stmt.forks : Stmt → Bool
  | .loop _ body | .count _ _ _ body => fork body
  | .choice (.mk _ body) others otherwise => !others.isEmpty || fork body || fork otherwise
  | _ => false

def fork : List Stmt → Bool
  | [] => false
  | s :: l => s.forks || fork l

end

def Dangles (b : List Loose) (i : Nat) : Prop :=
  ∃ op : Op, b[i]? = some (.op op) ∧ op.jumps ∧ op.operand = pending

/-- What is known of jumps that were added to code. Those at the places `us` are still to be
completed; with `forks` another one dangles, without it all others lead to places of the code. -/
structure Aims (forks : Bool) (us : List Nat) (a b : List Loose) : Prop where
  grows : Grows a b
  nodup : us.Nodup
  unset : ∀ i ∈ us, a.length ≤ i ∧ Dangles b i
  inside : forks = false → ∀ (i : Nat) (op : Op), a.length ≤ i → i ∉ us →
    b[i]? = some (.op op) → op.jumps → ∃ k < b.length, op.operand = address k
  dangles : forks = true → ∃ i, a.length ≤ i ∧ i ∉ us ∧ Dangles b i

theorem Dangles.lt {b : List Loose} {i : Nat} (h : Dangles b i) : i < b.length := by
  obtain ⟨op, hop, -⟩ := h
  exact (List.getElem?_eq_some_iff.1 hop).1

theorem Dangles.grow {a b : List Loose} {i : Nat} (h : Dangles a i) (hab : Grows a b) :
    Dangles b i := by
  obtain ⟨op, hop, hjumps, hpending⟩ := h
  obtain ⟨l, hl, hbecomes⟩ := hab.keeps i _ hop
  obtain rfl | ⟨hinline, -⟩ := hbecomes.cases
  · exact ⟨op, hl, hjumps, hpending⟩
  · rw [Loose.jumps_of_inline hinline] at hjumps
    cases hjumps

theorem Dangles.set {b : List Loose} {i j : Nat} {l : Loose} (h : Dangles b j) (hij : i ≠ j) :
    Dangles (b.set i l) j := by
  obtain ⟨op, hop, hjumps, hpending⟩ := h
  exact ⟨op, by rwa [List.getElem?_set_ne hij], hjumps, hpending⟩

namespace Aims

variable {p q : Bool} {us vs : List Nat} {a b c : List Loose}

theorem of_prolongs (h : Prolongs a b) : Aims false [] a b where
  grows := h.toGrows
  nodup := .nil
  unset := List.forall_mem_nil _
  inside _ i op hi _ hop hjumps := by
    rw [Loose.jumps_of_inline (h.inline i _ hi hop)] at hjumps
    cases hjumps
  dangles h := by cases h

theorem seq (h : Aims p us a b) (h' : Aims q vs b c) : Aims (p || q) (us ++ vs) a c where
  grows := h.grows.trans h'.grows
  nodup := by
    refine List.nodup_append.2 ⟨h.nodup, h'.nodup, fun i hi j hj hij => ?_⟩
    have := (h.unset i hi).2.lt
    have := (h'.unset j hj).1
    omega
  unset i hi := by
    obtain hi | hi := List.mem_append.1 hi
    · exact ⟨(h.unset i hi).1, (h.unset i hi).2.grow h'.grows⟩
    · exact ⟨Nat.le_trans h.grows.length_le (h'.unset i hi).1, (h'.unset i hi).2⟩
  inside hpq i op hi hset hop hjumps := by
    rw [Bool.or_eq_false_iff] at hpq
    rw [List.mem_append, not_or] at hset
    by_cases hib : b.length ≤ i
    · exact h'.inside hpq.2 i op hib hset.2 hop hjumps
    · obtain ⟨l, hl⟩ : ∃ l, b[i]? = some l := ⟨_, List.getElem?_eq_getElem (by omega)⟩
      obtain ⟨l', hl', hbecomes⟩ := h'.grows.keeps i l hl
      cases hop.symm.trans hl'
      obtain rfl | ⟨-, hinline⟩ := hbecomes.cases
      · obtain ⟨k, hk, hoperand⟩ := h.inside hpq.1 i op hi hset.1 hl hjumps
        exact ⟨k, Nat.lt_of_lt_of_le hk h'.grows.length_le, hoperand⟩
      · rw [Loose.jumps_of_inline hinline] at hjumps
        cases hjumps
  dangles hpq := by
    cases p with
    | true =>
      obtain ⟨i, hi, hset, hdangles⟩ := h.dangles rfl
      refine ⟨i, hi, fun hmem => ?_, hdangles.grow h'.grows⟩
      obtain hmem | hmem := List.mem_append.1 hmem
      · exact hset hmem
      · have := (h'.unset i hmem).1
        have := hdangles.lt
        omega
    | false =>
      obtain ⟨i, hi, hset, hdangles⟩ := h'.dangles hpq
      refine ⟨i, Nat.le_trans h.grows.length_le hi, fun hmem => ?_, hdangles⟩
      obtain hmem | hmem := List.mem_append.1 hmem
      · have := (h.unset i hmem).2.lt
        omega
      · exact hset hmem

theorem extend (h : Aims p us a b) (h' : Prolongs b c) : Aims p us a c := by
  have hseq := h.seq (of_prolongs h')
  rwa [Bool.or_false, List.append_nil] at hseq

theorem defer {op : Op} (h : Aims p us a b) (hjumps : op.jumps) (hop : op.operand = pending) :
    Aims p (us ++ [b.length]) a (b ++ [.op op]) := by
  have hnext : Aims false [b.length] b (b ++ [.op op]) := by
    refine ⟨(Grows.refl b).push (Op.aims_pending hop), List.nodup_singleton _, ?_, ?_, ?_⟩
    · rintro i hi
      obtain rfl := List.mem_singleton.1 hi
      exact ⟨Nat.le_refl _, op, List.getElem?_concat_length, hjumps, hop⟩
    · intro _ i op' hi hset hop'
      have hlt := (List.getElem?_eq_some_iff.1 hop').1
      rw [List.length_append, List.length_singleton] at hlt
      exact absurd (List.mem_singleton.2 (by omega)) hset
    · intro h
      cases h
  have hseq := h.seq hnext
  rwa [Bool.or_false] at hseq

theorem jump {k : Nat} (h : Aims p us a b) (hk : k ≤ b.length) :
    Aims p us a (b ++ [.op (.jump (address k))]) := by
  have hnext : Aims false [] b (b ++ [.op (.jump (address k))]) := by
    refine ⟨(Grows.refl b).push (Op.aims_jump hk), .nil, List.forall_mem_nil _, ?_, ?_⟩
    · intro _ i op hi _ hop _
      obtain hop | ⟨-, hop⟩ := getElem?_concat_cases hop
      · have hlt := (List.getElem?_eq_some_iff.1 hop).1
        omega
      · cases hop
        exact ⟨k, by rw [List.length_append, List.length_singleton]; omega, rfl⟩
    · intro h
      cases h
  have hseq := h.seq hnext
  rwa [Bool.or_false, List.append_nil] at hseq

theorem push {op : Op} (h : Aims p us a b) (hop : op.jumps = false) :
    Aims p us a (b ++ [.op op]) := by
  have hnext : Aims false [] b (b ++ [.op op]) := by
    refine ⟨(Grows.refl b).push (Op.aims_of_not_jumps hop), .nil, List.forall_mem_nil _, ?_, ?_⟩
    · intro _ i op' hi _ hop' hjumps
      obtain hop' | ⟨-, hop'⟩ := getElem?_concat_cases hop'
      · have hlt := (List.getElem?_eq_some_iff.1 hop').1
        omega
      · cases hop'
        rw [hop] at hjumps
        cases hjumps
    · intro h
      cases h
  have hseq := h.seq hnext
  rwa [Bool.or_false, List.append_nil] at hseq

theorem complete {i k : Nat} {op : Op} (h : Aims p (i :: us) a b) (hop : op.operand = address k)
    (hk : k < b.length) : Aims p us a (b.set i (.op op)) := by
  obtain ⟨hi, hnodup⟩ := List.nodup_cons.1 h.nodup
  obtain ⟨hai, hdangles⟩ := h.unset i List.mem_cons_self
  refine ⟨h.grows.set hai fun _ => .inr ⟨k, Nat.le_of_lt hk, hop⟩, hnodup, fun j hj => ?_, ?_, ?_⟩
  · obtain ⟨haj, hj'⟩ := h.unset j (List.mem_cons_of_mem i hj)
    exact ⟨haj, hj'.set fun hij => hi (hij ▸ hj)⟩
  · intro hp j op' hj hset hop' hjumps
    rw [List.length_set]
    by_cases hij : i = j
    · subst hij
      rw [List.getElem?_set_self hdangles.lt] at hop'
      cases hop'
      exact ⟨k, hk, hop⟩
    · rw [List.getElem?_set_ne hij] at hop'
      exact h.inside hp j op' hj (List.not_mem_cons_of_ne_of_not_mem (Ne.symm hij) hset) hop' hjumps
  · intro hp
    obtain ⟨j, hj, hset, hj'⟩ := h.dangles hp
    exact ⟨j, hj, fun hmem => hset (List.mem_cons_of_mem i hmem),
      hj'.set fun hij => hset (hij ▸ List.mem_cons_self)⟩

theorem of_dangles {i : Nat} (h : Grows a b) (hi : a.length ≤ i) (hdangles : Dangles b i) :
    Aims true [] a b where
  grows := h
  nodup := .nil
  unset := List.forall_mem_nil _
  inside h := by cases h
  dangles _ := ⟨i, hi, List.not_mem_nil, hdangles⟩

section Guard

variable {b₁ b₂ b₃ b₄ : List Loose} (h₁ : Prolongs a b₁)
  (h₂ : Aims p [] (b₁ ++ [.op (.jumpFalse pending)]) b₂)

include h₁ h₂

theorem guard : Aims p [b₁.length] a b₂ :=
  ((of_prolongs h₁).defer rfl rfl).seq h₂

theorem looped (h₃ : Prolongs b₂ b₃) :
    let b := (b₃ ++ [.op (.jump (address a.length))]) ++ [.op .nop]
    Aims p [] a (b.set b₁.length (.op (.jumpFalse (address (b.length - 1))))) := by
  intro b
  have hbody : Aims p [b₁.length] a b₃ := (guard h₁ h₂).extend h₃
  have hlast : b.length - 1 < b.length := by simp [b]
  exact ((hbody.jump hbody.grows.length_le).push rfl).complete rfl hlast

theorem alone :
    let b := (b₂ ++ [.op (.jump pending)]) ++ [.op .nop]
    let b' := b.set b₁.length (.op (.jumpFalse (address (b.length - 1))))
    Aims p [] a (b'.set b₂.length (.op (.jump (address (b.length - 1))))) := by
  intro b b'
  have hboth : Aims p [b₁.length, b₂.length] a b := ((guard h₁ h₂).defer rfl rfl).push rfl
  have hlast : b.length - 1 < b.length := by simp [b]
  exact (hboth.complete rfl hlast).complete rfl (by rwa [List.length_set])

theorem branch :
    let b := b₂ ++ [Loose.op (.jump pending)]
    Aims true [] a (b.set b₁.length (.op (.jumpFalse (address b.length)))) := by
  intro b
  have hguard := guard h₁ h₂
  have hlt := h₂.grows.length_lt
  apply of_dangles _ hguard.grows.length_le
  · refine Dangles.set ⟨_, List.getElem?_concat_length, rfl, rfl⟩ ?_
    omega
  · exact (hguard.grows.push (Op.aims_pending rfl)).set h₁.length_le
      (Op.aims_jumpFalse (Nat.le_refl _))

theorem chain {b : List Loose} (hb : b = b₂ ++ [.op (.jump pending)])
    (h₃ : Aims true [] (b.set b₁.length (.op (.jumpFalse (address b.length)))) b₃)
    (h₄ : Aims q [] b₃ b₄) :
    Aims true [] a (b₄.set b₂.length (.op (.jump (address b₄.length)))) := by
  subst hb
  have hguard := guard h₁ h₂
  obtain ⟨i, hi, -, hdangles⟩ := h₃.dangles rfl
  rw [List.length_set, List.length_append, List.length_singleton] at hi
  have hle := hguard.grows.length_le
  apply of_dangles _ (Nat.le_trans hle (Nat.le_of_lt hi))
  · exact (hdangles.grow h₄.grows).set (by omega)
  · exact (((branch h₁ h₂).grows.trans h₃.grows).trans h₄.grows).set hle
      (Op.aims_jump (Nat.le_refl _))

end Guard

end Aims

namespace Generator

variable {structs : Table String StructDef} {p q : Bool} {x y : Gen Unit}

/-- The code of statements with what is known of its jumps. -/
def Lands (structs : Table String StructDef) (forks : Bool) (x : Gen Unit) : Prop :=
  ∀ ⦃block outer c⦄ ⦃Q : List (List String) → List Loose → Prop⦄,
    (∀ block' c', Aims forks [] c c' → Q (block' :: outer) c') →
    Uniform structs (block :: outer) c (fun _ => x) Q

namespace Lands

theorem seq (hx : Lands structs p x) (hy : Lands structs q y) :
    Lands structs (p || q) (do x; y) :=
  fun _ _ _ _ h => .seq (hx fun _ _ h₁ => hy fun block c₂ h₂ => h block c₂ (h₁.seq h₂))

theorem inScope (hx : Lands structs p x) : Lands structs p (inScope x) :=
  fun block _ _ _ h => .seq (.enter (.seq (hx fun _ c' hc' => .leave (h block c' hc'))))

end Lands

theorem Adds.lands (h : Adds structs p x) : Lands structs false x :=
  fun block _ _ _ hQ => h fun c' hc' _ => hQ block c' (.of_prolongs hc')

theorem varDecl_lands (d : VarDecl) : Lands structs false (varDecl d) := by
  obtain ⟨⟨type, name⟩, init⟩ := d
  intro block outer c Q h
  refine .need fun t _ => .seq (.declare ?_)
  have hstore {c₁ : List Loose} (h₁ : Prolongs c c₁) : Uniform structs
      ((block ++ [t.lexeme]) :: outer) c₁ (fun _ => do emit (.store (← offset t.lexeme))) Q :=
    store_declared fun c₂ h₂ _ _ => h _ c₂ (.of_prolongs (h₁.trans h₂))
  cases init with
  | some e => exact .seq (expr_adds e fun _ h₁ _ => hstore h₁)
  | none => exact .seq (Adds.emit (p := false) rfl fun _ h₁ _ => hstore h₁)

theorem guarded_lands {condition : Expr} {f : Nat → Gen Unit} {block : List String}
    {outer : List (List String)} {c : List Loose} {Q : List (List String) → List Loose → Prop}
    (hx : Lands structs p x)
    (h : ∀ block c₁ c₂, Prolongs c c₁ → Aims p [] (c₁ ++ [.op (.jumpFalse pending)]) c₂ →
      Uniform structs (block :: outer) c₂ (fun _ => f c₁.length) Q) :
    Uniform structs (block :: outer) c (fun _ => do
      expr condition
      let k ← here
      emit (.jumpFalse pending)
      inScope x
      f k) Q :=
  .seq (expr_adds condition fun c₁ h₁ _ => .here (.seq (.emit (.op (.jumpFalse pending))
    (.seq (hx.inScope fun block' c₂ h₂ => h block' c₁ c₂ h₁ h₂)))))

mutual

theorem stmt_lands : (s : Stmt) → Lands structs s.forks (stmt s)
  | .ret e => by
    simp only [stmt]
    exact fun block outer c Q h => .seq (expr_adds e fun c₁ h₁ _ =>
      .emit (.op .ret) (h block _ ((Aims.of_prolongs h₁).push rfl)))
  | .decl d => varDecl_lands d
  | .assign a => (assign_adds a).lands
  | .loop condition body => by
    simp only [stmt]
    exact fun block outer c Q h => .here (guarded_lands (stmts_land body) fun _ c₁ c₂ h₁ h₂ =>
      .seq (.emit (.op (.jump _)) (.seq (.emit (.op .nop) (.here (.patch
        (h _ _ (.looped h₁ h₂ (.refl c₂)))))))))
  | .count init condition step body => by
    simp only [stmt]
    refine fun block outer c Q h => .seq (.enter (.seq (varDecl_lands init fun _ c₁ h₁ =>
      .here (guarded_lands (stmts_land body) fun _ c₂ c₃ h₂ h₃ => .seq (assign_adds step
        fun c₄ h₄ _ => .seq (.emit (.op (.jump _)) (.seq (.emit (.op .nop) (.here (.seq
          (.patch (.leave ?_))))))))))))
    exact h block _ (h₁.seq (.looped h₂ h₃ h₄))
  | .choice (.mk condition body) others otherwise => by
    simp only [stmt]
    refine fun block outer c Q h => guarded_lands (stmts_land body) fun _ c₁ c₂ h₁ h₂ =>
      .here (.seq (.emit (.op (.jump _)) ?_))
    cases others with
    | nil =>
      cases otherwise with
      | nil =>
        refine .seq (.emit (.op .nop) (.here (.seq (.patch (.patch (h _ _ ?_))))))
        simpa only [Stmt.forks, fork, List.isEmpty_nil, Bool.not_true, Bool.false_or,
          Bool.or_false] using Aims.alone h₁ h₂
      | cons s l => exact .here (.seq (.patch (.seq (.patch (.throw _)))))
    | cons b bs =>
      refine .here (.seq (.patch (.seq (branches_land (b :: bs) (List.cons_ne_nil b bs)
        fun _ c₃ h₃ => ?_))))
      cases otherwise with
      | nil => exact .pure (h _ _ ((Aims.branch h₁ h₂).seq h₃))
      | cons s l =>
        exact .seq ((stmts_land (s :: l)).inScope fun _ c₄ h₄ => .here (.patch
          (h _ _ (.chain h₁ h₂ rfl h₃ h₄))))
  | .call name args => by
    simp only [stmt]
    exact (term_adds (.call name args)).lands
  | .expr e => (expr_adds e).lands

theorem stmts_land : (l : List Stmt) → Lands structs (fork l) (stmts l)
  | [] => Adds.lands .pure
  | s :: l => by
    simp only [stmts, fork]
    exact (stmt_lands s).seq (stmts_land l)

theorem branches_land : (l : List Branch) → l ≠ [] → Lands structs true (branches l)
  | [], h => (h rfl).elim
  | .mk condition body :: l, _ => by
    simp only [branches]
    refine fun block outer c Q h => guarded_lands (stmts_land body) fun _ c₁ c₂ h₁ h₂ =>
      .seq (.emit (.op (.jump _)) (.here (.seq (.patch ?_))))
    have hbranch := Aims.branch h₁ h₂
    cases l with
    | nil => exact .pure (h _ _ hbranch)
    | cons b l =>
      exact branches_land (b :: l) (List.cons_ne_nil b l) fun block c₃ h₃ =>
        h block _ (hbranch.seq h₃)

end

theorem emitReturn_lands : Lands structs false emitReturn :=
  fun block _ _ _ h => .seq (Adds.emit (p := false) rfl fun _ h₁ _ =>
    .emit (.op .ret) (h block _ ((Aims.of_prolongs h₁).push rfl)))

theorem mainBody_lands (body : List Stmt) : Lands structs (fork body) (mainBody body) := by
  by_cases hbody : body = []
  · rw [hbody]
    exact emitReturn_lands
  · rw [mainBody_eq hbody]
    intro block outer c Q h
    refine .seq (stmts_land body fun block c₁ h₁ => mainEnd_uniform (fun _ => h block c₁ h₁)
      fun _ => emitReturn_lands fun block c₂ h₂ => ?_)
    have hseq := h₁.seq h₂
    rw [Bool.or_false] at hseq
    exact h block c₂ hseq

theorem parameters_land (l : List VarDef) : Lands structs false (l.forM parameter) := by
  induction l with
  | nil => exact Adds.lands .pure
  | cons d l ih =>
    refine Lands.seq (p := false) (fun block outer c Q h => ?_) ih
    exact .need fun t _ => .seq (.declare (store_declared fun c₁ h₁ _ _ => h _ c₁ (.of_prolongs h₁)))

theorem funCode_lands (d : FunDef) : Lands structs (fork d.body) (funCode d) := by
  unfold funCode
  by_cases hmain : d.name.lexeme = "main"
  · rw [if_pos hmain]
    exact mainBody_lands d.body
  · rw [if_neg hmain]
    refine .seq (p := false) (parameters_land d.params) ?_
    by_cases hbody : d.body.isEmpty
    · rw [if_pos hbody, List.isEmpty_iff.1 hbody]
      exact emitReturn_lands
    · rw [if_neg hbody]
      exact stmts_land d.body

theorem funDef_aims {d : FunDef} {g g' : Generator} (h : funDef d g = .ok () g') :
    ∃ code, g'.current = some (d.template code g.offsets) ∧
      g'.image = g.image.install (d.template code g.offsets) ∧ Aims (fork d.body) [] [] code := by
  have hcode : Uniform g.structs [[]] [] (fun _ => funCode d) fun _ c =>
      Aims (fork d.body) [] [] c := funCode_lands d fun _ c hc => hc
  rw [funDef_eq] at h
  obtain ⟨own, c, hc, hok⟩ | ⟨e, hfail⟩ := hcode
  · simp only [bind, EStateM.bind, hok] at h
    cases h
    exact ⟨c, rfl, rfl, hc⟩
  · obtain ⟨g₁, hg₁⟩ := hfail g.offsets g.image (d.template [] .empty)
    simp only [bind, EStateM.bind, hg₁] at h
    cases h

/-- All jumps of a function that is generated lead to instructions of its code if and only if no
choice in it, however deep, has alternatives with conditions. -/
theorem funDef_targets {d : FunDef} {g g' : Generator} (h : funDef d g = .ok () g') :
    ∃ t, g'.current = some t ∧ g'.image.get? d.name.lexeme = some t ∧
      ((∀ i ∈ t.code, i.op.jumps → ∃ k : Int, i.op.operand = .int k ∧ 0 ≤ k ∧ k < t.code.size) ↔
        fork d.body = false) := by
  obtain ⟨code, hcurrent, himage, haims⟩ := funDef_aims h
  refine ⟨_, hcurrent, ?_, fun hall => ?_, fun hfork i hi hjumps => ?_⟩
  · rw [himage, Image.install, Table.get?_put, FunDef.template, beq_self_eq_true, if_pos rfl]
  · by_contra hfork
    obtain ⟨i, -, -, op, hop, hjumps, hpending⟩ := haims.dangles (Bool.not_eq_false _ ▸ hfork)
    obtain ⟨k, hk, hnonneg, -⟩ := hall (.plain op) (by
      simp only [FunDef.template, link, List.mem_toArray, List.mem_map]
      exact ⟨.op op, List.mem_of_getElem? hop, rfl⟩) hjumps
    cases hk.symm.trans hpending
    omega
  · simp only [FunDef.template, link, List.mem_toArray, List.mem_map] at hi
    obtain ⟨l, hl, rfl⟩ := hi
    obtain ⟨j, hj⟩ := List.mem_iff_getElem?.1 hl
    rw [Machine.eq_op_of_jumps hjumps] at hj
    obtain ⟨k, hk, hoperand⟩ :=
      haims.inside hfork j _ (Nat.zero_le j) List.not_mem_nil hj hjumps
    refine ⟨k, hoperand, by omega, ?_⟩
    rw [FunDef.template, size_link]
    omega

namespace Fork

def truth : Expr := .operand (.literal (word .boolVal "true"))

/-- The function `void f(int x) {while (true) {if (true) {return x;} s}}`. -/
def looping (s : List Stmt) : FunDef where
  returns := ⟨false, some (word .voidType "void")⟩
  name := word .id "f"
  params := [⟨some ⟨false, some (word .intType "int")⟩, some (word .id "x")⟩]
  body := [.loop truth (.choice (.mk truth [.ret (mention "x")]) [] [] :: s)]

end Fork

open Fork in
/-- Behind a loop around a condition all jumps have targets. If the loop also has a choice with an
alternative, one of them has not. -/
theorem funDef_targets_looping :
    (∃ g t, funDef (looping []) (.ofImage .empty) = .ok () g ∧ g.image.get? "f" = some t ∧
      ∀ i ∈ t.code, i.op.jumps → ∃ k : Int, i.op.operand = .int k ∧ 0 ≤ k ∧ k < t.code.size) ∧
    ∃ g t, funDef (looping [.choice (.mk truth []) [.mk truth []] []]) (.ofImage .empty) =
        .ok () g ∧ g.image.get? "f" = some t ∧
      ¬∀ i ∈ t.code, i.op.jumps → ∃ k : Int, i.op.operand = .int k ∧ 0 ≤ k ∧ k < t.code.size := by
  constructor
  · obtain ⟨t, -, hget, htargets⟩ := funDef_targets (d := looping []) (g := .ofImage .empty) rfl
    exact ⟨_, t, rfl, hget, htargets.2 (by decide)⟩
  · obtain ⟨t, -, hget, htargets⟩ := funDef_targets (g := .ofImage .empty)
      (d := looping [.choice (.mk truth []) [.mk truth []] []]) rfl
    exact ⟨_, t, rfl, hget, fun hall => absurd (htargets.1 hall) (by decide)⟩

end Generator
end StackLang
