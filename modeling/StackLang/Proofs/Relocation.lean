import StackLang.Proofs.Entry
import StackLang.Proofs.Parts

namespace StackLang

def Term.isCall : Term → Bool
  | .call .. => true
  | _ => false

def VarDef.label (d : VarDef) : List String := (d.name.map Token.lexeme).toList

/-- The variables that a statement adds to the block that it is in. -/
def Stmt.declares : Stmt → List String
  | .decl d => d.var.label
  | _ => []

mutual

def Stmt.runsOn : Stmt → Bool
  | .ret _ | .expr _ => false
  | .assign a => !a.target.isEmpty
  | .choice _ _ otherwise => otherwise.isEmpty || runOn otherwise
  | _ => true

def runOn : List Stmt → Bool
  | [] => false
  | [s] => s.runsOn
  | _ :: s :: l => runOn (s :: l)

end

mutual

/-- Statements behind which control may come: all but a return and a choice that returns both if its
first condition holds and if none does. The jumps behind the alternatives in between are never
completed. -/
def Stmt.completes : Stmt → Bool
  | .ret _ => false
  | .choice (.mk _ body) others otherwise =>
    others.isEmpty || otherwise.isEmpty || complete body || complete otherwise
  | _ => true

def complete : List Stmt → Bool
  | [] => true
  | s :: l => s.completes && complete l

end

namespace FunDef

/-- The variables that a function leaves: its parameters, unless it is the main function, and those
that its statements declare. -/
def leaves (d : FunDef) : List String :=
  (if d.name.lexeme = "main" then [] else d.params.flatMap VarDef.label) ++
    d.body.flatMap Stmt.declares

/-- Functions behind whose code control does not come: their statements return, or a return is added.
That is done for functions without statements, and for the main function if its code does not end
with a return already. -/
def closed (d : FunDef) : Bool :=
  d.body.isEmpty || !complete d.body || (d.name.lexeme == "main" && runOn d.body)

/-- The function with its code linked behind the variables that were left. -/
def template (d : FunDef) (code : List Loose) (base : Offsets) : Template :=
  ⟨d.name.lexeme, d.params.length, link base code⟩

end FunDef

namespace Generator

/-- The code of an expression before its variables are numbered: operations without a jump are added
and no block changes. With `past` there is a last one that is no return. -/
def Adds (structs : Table String StructDef) (past : Bool) (x : Gen Unit) : Prop :=
  ∀ ⦃own c⦄ ⦃Q : List (List String) → List Loose → Prop⦄,
    (∀ c', Prolongs c c' → (past → Past c c') → Q own c') →
    Uniform structs own c (fun _ => x) Q

/-- What the code becomes when the length of the text that it ends with is taken. -/
def shortenLast (c : List Loose) : List Loose :=
  if c.getLast? = some (.op (.push (.text " "))) then c.dropLast ++ [.op (.push (.text ""))] else c

theorem shortenLast_prolongs (c : List Loose) : Prolongs c (shortenLast c) := by
  unfold shortenLast
  split
  · obtain ⟨init, rfl⟩ := List.getLast?_eq_some_iff.1 ‹_›
    rw [List.dropLast_concat]
    constructor
    · constructor
      · simp
      · intro i l hl
        obtain hl | ⟨rfl, rfl⟩ := getElem?_concat_cases hl
        · have hlt := (List.getElem?_eq_some_iff.1 hl).1
          exact ⟨l, by rwa [List.getElem?_append_left hlt], .inl rfl⟩
        · exact ⟨_, List.getElem?_concat_length, .inr ⟨rfl, rfl⟩⟩
      · intro i op hi hop
        have hlt := (List.getElem?_eq_some_iff.1 hop).1
        simp only [List.length_append, List.length_singleton] at hi hlt
        omega
    · intro i l hi hl
      have hlt := (List.getElem?_eq_some_iff.1 hl).1
      simp only [List.length_append, List.length_singleton] at hi hlt
      omega
  · exact .refl c

theorem link_shortenLast (base : Offsets) (c : List Loose) :
    link base (shortenLast c) =
      if (link base c).back? = some (.plain (.push (.text " "))) then
        (link base c).pop.push (.plain (.push (.text "")))
      else link base c := by
  have hback : (link base c).back? = some (.plain (.push (.text " "))) ↔
      c.getLast? = some (.op (.push (.text " "))) := back?_link (by simp)
  by_cases h : c.getLast? = some (.op (.push (.text " ")))
  · rw [if_pos (hback.2 h), shortenLast, if_pos h, link_concat]
    obtain ⟨init, rfl⟩ := List.getLast?_eq_some_iff.1 h
    rw [List.dropLast_concat, link_concat, Array.pop_push]
    rfl
  · rw [if_neg (fun hb => h (hback.1 hb)), shortenLast, if_neg h]

namespace Adds

variable {structs : Table String StructDef} {p q : Bool} {x y : Gen Unit} {op : Op}

protected theorem pure : Adds structs false (pure ()) := by
  intro own c Q h
  refine .pure (h c (.refl c) fun hp => ?_)
  cases hp

protected theorem throw (e : Failure) : Adds structs p (throw e) := fun _ _ _ _ => .throw e

theorem seq (hx : Adds structs p x) (hy : Adds structs q y) : Adds structs q (do x; y) := by
  intro own c Q h
  exact .seq (hx fun c₁ h₁ _ => hy fun c₂ h₂ hq =>
    h c₂ (h₁.trans h₂) fun hpast => (hq hpast).of_le h₁.length_le)

theorem ite {P : Prop} [Decidable P] (hx : Adds structs p x) (hy : Adds structs p y) :
    Adds structs p (if P then x else y) := by
  split
  · exact hx
  · exact hy

theorem weaken (hx : Adds structs p x) : Adds structs false x := by
  intro own c Q h
  refine hx fun c' hc' _ => h c' hc' fun hp => ?_
  cases hp

theorem emit (hop : op.inline) : Adds structs p (Generator.emit op) := by
  intro own c Q h
  refine .emit (.op op) (h _ (.push (.refl c) hop) fun _ => .concat (Nat.le_refl _) ?_)
  rintro ⟨⟩
  cases hop

theorem load {name : String} (hy : Adds structs p y) : Adds structs p (do
    Generator.emit (.load (← Generator.offset name))
    y) := by
  intro own c Q h
  exact .offset (.seq (.emit_loose (l := .load (Offsets.place own name)) (by simp)
    fun c₁ h₁ _ => hy fun c₂ h₂ hp =>
      h c₂ (h₁.trans h₂) fun hpast => (hp hpast).of_le h₁.length_le))

theorem select {name : String} (hy : Adds structs p y) : Adds structs p (do
    let at? ← Generator.offset name
    if at? = .absent ∧ !(← get).structs.contains name then
      Generator.emit (.getField (.text name))
    else Generator.emit (.load at?)
    y) := by
  intro own c Q h
  have hnext {l : Loose} (hl : ∀ o, l ≠ .op o) :
      Uniform structs own c (fun base => do Generator.emit (l.link base); y) Q :=
    .seq (.emit_loose hl fun c₁ h₁ _ => hy fun c₂ h₂ hp =>
      h c₂ (h₁.trans h₂) fun hpast => (hp hpast).of_le h₁.length_le)
  refine .offset ?_
  unfold Offsets.place
  cases Offsets.find own name with
  | some k => exact hnext (l := .load (.own k)) (by simp)
  | none =>
    have hget (g : Generator) : (get : Gen Generator) g = .ok g g := rfl
    by_cases hstruct : structs.contains name
    · refine (hnext (l := .load (.left name)) (by simp)).congr fun base image t => ?_
      simp only [bind, EStateM.bind, hget, amid, hstruct]
      rw [if_neg (by simp)]
      rfl
    · refine (hnext (l := .item name) (by simp)).congr fun base image t => ?_
      simp only [bind, EStateM.bind, hget, amid, hstruct, Place.operand, Loose.link]
      by_cases habsent : base.operand name = .absent
      · rw [if_pos (by simp [habsent]), if_pos habsent]
        rfl
      · rw [if_neg (by simp [habsent]), if_neg habsent]
        rfl

theorem field {struct : String} {i : Nat} {f : String → Gen Unit}
    (h : ∀ name, Adds structs p (f name)) : Adds structs p (Generator.field struct i >>= f) := by
  intro own c Q hQ
  have hget (g : Generator) : (get : Gen Generator) g = .ok g g := rfl
  have hfail (e : Failure) : Uniform structs own c (fun _ => throw e) Q := .throw e
  cases hstruct : structs.get? struct with
  | none =>
    refine (hfail (.crash .unknownKey)).congr fun base image t => ?_
    simp only [Generator.field, bind, EStateM.bind, hget, amid, hstruct]
    rfl
  | some d =>
    cases hfield : d.fields[i]? with
    | none =>
      refine (hfail (.crash .outOfRange)).congr fun base image t => ?_
      simp only [Generator.field, bind, EStateM.bind, hget, amid, hstruct, hfield]
      rfl
    | some v =>
      cases hname : v.name with
      | none =>
        refine (hfail (.crash .missingPart)).congr fun base image t => ?_
        simp only [Generator.field, bind, EStateM.bind, hget, amid, hstruct, hfield, hname]
        rfl
      | some name =>
        refine (h name.lexeme hQ).congr fun base image t => ?_
        simp only [Generator.field, bind, EStateM.bind, hget, amid, hstruct, hfield, hname]
        rfl

theorem emitConversion (hop : op.inline) : Adds structs p (Generator.emitConversion op) := by
  by_cases hlength : op = .length
  · have heq : Generator.emitConversion op = (do
        onCode fun code =>
          if code.back? = some (.plain (.push (.text " "))) then
            code.pop.push (.plain (.push (.text "")))
          else code
        Generator.emit op) := if_pos hlength
    rw [heq]
    refine .seq (p := false) (fun own c Q h => ?_) (.emit hop)
    refine .inl ⟨own, shortenLast c, h _ (shortenLast_prolongs c) (by simp), fun base image t => ?_⟩
    rw [amid, amid, link_shortenLast]
    rfl
  · have heq : Generator.emitConversion op = Generator.emit op := if_neg hlength
    rw [heq]
    exact .emit hop

end Adds

theorem operator?_inline {sign : String} {op : Op} (h : operator? sign = some op) : op.inline := by
  unfold operator? at h
  split at h <;> cases h <;> rfl

theorem conversion?_inline {name : String} {op : Op} (h : conversion? name = some op) :
    op.inline := by
  unfold conversion? at h
  split at h <;> cases h <;> rfl

section Walk

variable {structs : Table String StructDef} {p : Bool}

theorem literal_adds (t : Token) : Adds structs false (literal t) := by
  obtain ⟨v, -, h⟩ | h | ⟨e, h⟩ := literal_cases t
  · rw [h]
    exact .emit rfl
  · rw [h]
    exact .pure
  · rw [h]
    exact .throw e

theorem operator_adds (op : Option Token) :
    Adds structs false (match op.bind fun t => operator? t.lexeme with
      | some o => emit o
      | none => pure ()) := by
  cases ho : op.bind fun t => operator? t.lexeme with
  | none => exact .pure
  | some o =>
    obtain ⟨t, -, ht⟩ := Option.bind_eq_some_iff.1 ho
    exact .emit (operator?_inline ht)

theorem call_adds {name : String} {convert : Op → Gen Unit} {select user : Gen Unit}
    (hconvert : ∀ op, op.inline → Adds structs p (convert op)) (hselect : Adds structs p select)
    (huser : Adds structs false user) :
    Adds structs p (match conversion? name with
      | some op => convert op
      | none =>
        if name = "get" then select
        else if name = "input" then emit .read
        else do
          user
          emit (.call (.text name))) := by
  cases hop : conversion? name with
  | some op => exact hconvert op (conversion?_inline hop)
  | none => exact .ite hselect (.ite (.emit rfl) (.seq huser (.emit rfl)))

mutual

theorem expr_adds : (e : Expr) → Adds structs false (expr e)
  | .mk negated first op none => by
    simp only [expr]
    have hfirst := (term_adds first).weaken
    have hop := @operator_adds structs op
    exact .ite (.seq (.throw (p := false) _) (.seq hfirst hop))
      (.seq hfirst (.ite (.seq (.emit (p := false) rfl) hop) hop))
  | .mk negated first op (some e) => by
    simp only [expr]
    have hfirst := (term_adds first).weaken
    have hop := @operator_adds structs op
    have he := (expr_adds e).seq hop
    exact .ite (.seq (expr_adds e) (.seq hfirst hop))
      (.seq hfirst (.ite (.seq (.emit (p := false) rfl) he) he))

theorem term_adds : (t : Term) → Adds structs t.isCall (term t)
  | .literal t => literal_adds t
  | .create type (some e) args => by
    simp only [term]
    exact .seq (expr_adds e) (.emit rfl)
  | .create type none (some l) => by
    simp only [term]
    exact .seq (.emit (p := false) rfl) (initializers_add type.lexeme 0 l)
  | .create type none none => by
    simp only [term]
    exact .seq (.emit (p := false) rfl) (.throw _)
  | .path refs => path_adds refs
  | .call name none => by
    simp only [term]
    exact call_adds (fun _ _ => .throw _) (.throw _) (.throw _)
  | .call name (some []) => by
    simp only [term]
    exact call_adds (fun _ _ => .throw _) (.throw _) (arguments_add [])
  | .call name (some [e]) => by
    simp only [term]
    exact call_adds (fun _ hop => .seq (expr_adds e) (.emitConversion hop))
      (.seq (expr_adds e) (.throw _)) (arguments_add [e])
  | .call name (some (e :: e' :: l)) => by
    simp only [term]
    exact call_adds (fun _ hop => .seq (expr_adds e) (.emitConversion hop))
      (.seq (expr_adds e) (.seq (expr_adds e') (.emit rfl))) (arguments_add (e :: e' :: l))
  | .group e => expr_adds e

theorem arguments_add : (l : List Expr) → Adds structs false (arguments l)
  | [] => .pure
  | e :: l => .seq (expr_adds e) (arguments_add l)

theorem initializers_add (struct : String) (i : Nat) :
    (l : List Expr) → Adds structs false (initializers struct i l)
  | [] => .pure
  | e :: l =>
    .field fun _ => .seq (.emit (p := false) rfl) (.seq (expr_adds e)
      (.seq (.emit (p := false) rfl) (initializers_add struct (i + 1) l)))

theorem path_adds : (refs : List Ref) → Adds structs false (path refs)
  | [] => .pure
  | .mk name none :: refs => by
    simp only [path]
    exact .load (selectors_add refs)
  | .mk name (some e) :: refs => by
    simp only [path]
    exact .load (.seq (expr_adds e) (.seq (.emit (p := false) rfl) (selectors_add refs)))

theorem selectors_add : (refs : List Ref) → Adds structs false (selectors refs)
  | [] => .pure
  | .mk name none :: refs => by
    simp only [selectors]
    exact .seq (.emit (p := false) rfl) (selectors_add refs)
  | .mk name (some e) :: refs => by
    simp only [selectors]
    exact .select (.seq (expr_adds e) (.seq (.emit (p := false) rfl) (selectors_add refs)))

end

theorem store_declared {block : List String} {outer : List (List String)} {c : List Loose}
    {Q : List (List String) → List Loose → Prop} {name : String}
    (h : ∀ c', Prolongs c c' → Past c c' → (∃ k, .store (.own k) ∈ c') →
      Q ((block ++ [name]) :: outer) c') :
    Uniform structs ((block ++ [name]) :: outer) c (fun _ => do
      emit (.store (← offset name))) Q := by
  obtain ⟨k, hplace⟩ : ∃ k, Offsets.place ((block ++ [name]) :: outer) name = .own k := by
    obtain ⟨i, hi⟩ : ∃ i, (block ++ [name]).idxOf? name = some i := by
      rw [← Option.isSome_iff_exists, List.isSome_idxOf?]
      exact List.mem_concat_self
    exact ⟨outer.flatten.length + i, by rw [Offsets.place, Offsets.find, hi]⟩
  apply Uniform.offset
  rw [hplace]
  exact .emit (.store (.own k)) (h _ (.push (.refl c) rfl) (.concat (Nat.le_refl _) (by simp))
    ⟨k, List.mem_concat_self⟩)

theorem inner_adds {step : String → Gen Unit} (h : ∀ name, Adds structs false (step name))
    (refs : List Ref) : Adds structs false (inner step refs) := by
  unfold inner
  induction refs.tail.dropLast with
  | nil => exact .pure
  | cons r l ih => exact .seq (h _) ih

theorem assign_adds (a : Assign) : Adds structs (!a.target.isEmpty) (assign a) := by
  obtain ⟨target, value⟩ := a
  have hvalue := @expr_adds structs value
  simp only [assign]
  split
  · exact .pure
  · rename_i name
    intro own c Q h
    exact .offset (.seq (hvalue fun c₁ h₁ _ =>
      .emit_loose (l := .store (Offsets.place own name.lexeme)) (by simp)
        fun c₂ h₂ hp => h c₂ (h₁.trans h₂) fun _ => hp.of_le h₁.length_le))
  · exact .load (.seq (expr_adds _) (.seq hvalue (.emit rfl)))
  · rename_i name i refs hnone hsome
    have hrefs : refs ≠ [] := by
      intro hrefs
      cases i with
      | none => exact hnone hrefs rfl
      | some e => exact hsome e hrefs rfl
    simp only [List.getLast?_eq_some_getLast hrefs]
    cases i with
    | none => exact .load (.seq (inner_adds (fun _ => .emit rfl) _) (.seq hvalue (.emit rfl)))
    | some e =>
      exact .load (.seq (expr_adds e) (.seq (.emit (p := false) rfl)
        (.seq (inner_adds (fun _ => .load (.emit rfl)) _) (.seq hvalue (.emit rfl)))))

/-- The code of statements before its variables are numbered. The variables that they declare are
added to the innermost block. -/
def Builds (structs : Table String StructDef) (names : List String) (past completes : Bool)
    (x : Gen Unit) : Prop :=
  ∀ ⦃block outer c⦄ ⦃Q : List (List String) → List Loose → Prop⦄,
    (∀ c', Assembled names past completes c c' → Q ((block ++ names) :: outer) c') →
    Uniform structs (block :: outer) c (fun _ => x) Q

namespace Builds

variable {names names' : List String} {past past' completes completes' : Bool} {x y : Gen Unit}

theorem of_nil (h : ∀ ⦃block outer c⦄ ⦃Q : List (List String) → List Loose → Prop⦄,
    (∀ c', Assembled [] past completes c c' → Q (block :: outer) c') →
    Uniform structs (block :: outer) c (fun _ => x) Q) : Builds structs [] past completes x := by
  intro block outer c Q hQ
  refine h fun c' hc' => ?_
  have hnext := hQ c' hc'
  rwa [List.append_nil] at hnext

theorem seq (hx : Builds structs names past completes x)
    (hy : Builds structs names' past' completes' y) :
    Builds structs (names ++ names') past' (completes && completes') (do x; y) := by
  intro block outer c Q h
  refine .seq (hx fun c₁ h₁ => hy fun c₂ h₂ => ?_)
  rw [List.append_assoc]
  exact h c₂ (h₁.seq h₂)

theorem runsOff (hx : Builds structs names past completes x) :
    Builds structs names false completes x :=
  fun _ _ _ _ h => hx fun c' hc' => h c' (hc'.weaken (by simp) id)

theorem inScope (hx : Builds structs names past completes x) :
    Builds structs [] past completes (inScope x) :=
  of_nil fun _ _ _ _ h => .seq (.enter (.seq (hx fun c' hc' =>
    .leave (h c' hc'.enclosed))))

end Builds

theorem Adds.builds {x : Gen Unit} (h : Adds structs p x) : Builds structs [] p true x :=
  .of_nil fun _ _ _ _ hQ => h fun c' hc' hp => hQ c' (.of_prolongs hc' hp (by simp))

theorem varDecl_builds (d : VarDecl) : Builds structs d.var.label true true (varDecl d) := by
  obtain ⟨⟨type, name⟩, init⟩ := d
  intro block outer c Q h
  refine .need fun t ht => .seq (.declare ?_)
  cases ht
  have hstore {c₁ : List Loose} (h₁ : Prolongs c c₁) : Uniform structs
      ((block ++ [t.lexeme]) :: outer) c₁ (fun _ => do emit (.store (← offset t.lexeme))) Q :=
    store_declared fun c₂ h₂ hp hown =>
      h c₂ (.of_prolongs (h₁.trans h₂) (fun _ => hp.of_le h₁.length_le) fun _ => hown)
  cases init with
  | some e => exact .seq (expr_adds e fun c₁ h₁ _ => hstore h₁)
  | none => exact .seq (Adds.emit (p := false) rfl fun c₁ h₁ _ => hstore h₁)

theorem guarded {condition : Expr} {x : Gen Unit} {f : Nat → Gen Unit} {names block : List String}
    {outer : List (List String)} {past completes : Bool} {c : List Loose}
    {Q : List (List String) → List Loose → Prop} (hx : Builds structs names past completes x)
    (h : ∀ c₁ c₂, Prolongs c c₁ → Assembled [] past completes (c₁ ++ [.op (.jumpFalse pending)]) c₂ →
      Uniform structs (block :: outer) c₂ (fun _ => f c₁.length) Q) :
    Uniform structs (block :: outer) c (fun _ => do
      expr condition
      let k ← here
      emit (.jumpFalse pending)
      inScope x
      f k) Q := by
  refine .seq (expr_adds condition fun c₁ h₁ _ => .here (.seq
    (.emit (.op (.jumpFalse pending)) (.seq (hx.inScope fun c₂ h₂ => ?_)))))
  rw [List.append_nil]
  exact h c₁ c₂ h₁ h₂

theorem stmts_singleton (s : Stmt) : stmts [s] = stmt s := by
  simp only [stmts]
  exact bind_pure_unit

mutual

theorem stmt_builds : (s : Stmt) → Builds structs s.declares s.runsOn s.completes (stmt s)
  | .ret e => by
    simp only [stmt]
    exact .of_nil fun block outer c Q h => .seq (expr_adds e fun c₁ h₁ _ =>
      .emit (.op .ret) (h _ (.returned h₁)))
  | .decl d => varDecl_builds d
  | .assign a => (assign_adds a).builds
  | .loop condition body => by
    simp only [stmt]
    exact .of_nil fun block outer c Q h => .here (guarded (stmts_build body) fun c₁ c₂ h₁ h₂ =>
      .seq (.emit (.op (.jump _)) (.seq (.emit (.op .nop) (.here (.patch
        (h _ (.looped h₁ h₂ (.refl c₂)))))))))
  | .count init condition step body => by
    simp only [stmt]
    refine .of_nil fun block outer c Q h => .seq (.enter (.seq (varDecl_builds init fun c₁ h₁ =>
      .here (guarded (stmts_build body) fun c₂ c₃ h₂ h₃ => .seq (assign_adds step fun c₄ h₄ _ =>
        .seq (.emit (.op (.jump _)) (.seq (.emit (.op .nop) (.here (.seq (.patch (.leave ?_))))))))))))
    exact h _ (h₁.seq (.looped h₂ h₃ h₄)).enclosed
  | .choice (.mk condition body) others otherwise => by
    simp only [stmt]
    refine .of_nil fun block outer c Q h => guarded (stmts_build body) fun c₁ c₂ h₁ h₂ =>
      .here (.seq (.emit (.op (.jump _)) ?_))
    cases others with
    | nil =>
      cases otherwise with
      | nil => exact .seq (.emit (.op .nop) (.here (.seq (.patch (.patch (h _ (.alone h₁ h₂)))))))
      | cons s l => exact .here (.seq (.patch (.seq (.patch (.throw _)))))
    | cons b bs =>
      refine .here (.seq (.patch (.seq (branches_build (b :: bs) fun c₃ h₃ => ?_))))
      rw [List.append_nil]
      cases otherwise with
      | nil => exact .pure (h _ ((Assembled.branch h₁ h₂).seq h₃))
      | cons s l =>
        refine .seq ((stmts_build (s :: l)).inScope fun c₄ h₄ => .here (.patch ?_))
        rw [List.append_nil]
        exact h _ (.chain h₁ h₂ rfl h₃ h₄)
  | .call name args => by
    simp only [stmt]
    exact (term_adds (.call name args)).builds
  | .expr e => (expr_adds e).builds

theorem stmts_build : (l : List Stmt) →
    Builds structs (l.flatMap Stmt.declares) (runOn l) (complete l) (stmts l)
  | [] => Adds.builds .pure
  | [s] => by
    rw [stmts_singleton, List.flatMap_singleton, complete, complete, Bool.and_true]
    exact stmt_builds s
  | s :: s' :: l => by
    rw [stmts, List.flatMap_cons, runOn, complete]
    exact (stmt_builds s).seq (stmts_build (s' :: l))

theorem branches_build : (l : List Branch) → Builds structs [] (!l.isEmpty) true (branches l)
  | [] => Adds.builds .pure
  | .mk condition body :: l => by
    simp only [branches]
    refine .of_nil fun block outer c Q h => guarded (stmts_build body) fun c₁ c₂ h₁ h₂ =>
      .seq (.emit (.op (.jump _)) (.here (.seq (.patch ?_))))
    have hbranch := Assembled.branch h₁ h₂
    cases l with
    | nil => exact .pure (h _ hbranch)
    | cons b l =>
      refine branches_build (b :: l) fun c₃ h₃ => ?_
      rw [List.append_nil]
      exact h _ (hbranch.seq h₃)

end

theorem emitReturn_builds : Builds structs [] false false emitReturn :=
  .of_nil fun _ _ _ _ h => .seq (Adds.emit (p := false) rfl fun _ h₁ _ =>
    .emit (.op .ret) (h _ (.returned h₁)))

theorem mainEnd_uniform {own : List (List String)} {c : List Loose}
    {Q : List (List String) → List Loose → Prop} (hret : endsReturning c → Q own c)
    (hadd : ¬endsReturning c → Uniform structs own c (fun _ => emitReturn) Q) :
    Uniform structs own c (fun _ => mainEnd) Q := by
  have htemplate (base : Offsets) (image : Image) (t : Template) :
      template (amid structs own c base image t) =
        .ok { t with code := link base c } (amid structs own c base image t) := rfl
  by_cases hc : endsReturning c
  · refine (Uniform.pure (hret hc)).congr fun base image t => ?_
    simp only [mainEnd, bind, EStateM.bind, htemplate, (back?_link (by simp)).2 hc]
    rfl
  · cases hlast : c.getLast? with
    | none =>
      rw [List.getLast?_eq_none_iff] at hlast
      subst hlast
      exact (Uniform.throw (.crash .outOfRange)).congr fun base image t => rfl
    | some l =>
      refine (hadd hc).congr fun base image t => ?_
      have hback : (link base c).back? = some (.plain (l.link base)) := by
        rw [back?_link_map, hlast]
        rfl
      have hne : Instr.plain (l.link base) ≠ .plain .ret := by
        rw [← Option.some_inj.ne, ← hback]
        exact fun h => hc ((back?_link (by simp)).1 h)
      simp only [mainEnd, bind, EStateM.bind, htemplate, hback]
      rw [if_neg hne]

theorem mainBody_builds (body : List Stmt) : Builds structs (body.flatMap Stmt.declares) false
    (!(body.isEmpty || !complete body || runOn body)) (mainBody body) := by
  by_cases hbody : body = []
  · rw [hbody]
    exact emitReturn_builds
  · rw [mainBody_eq hbody]
    intro block outer c Q h
    refine .seq (stmts_build body fun c₁ h₁ => mainEnd_uniform (fun hret => ?_) fun hrun => ?_)
    · -- The code does not run on, so nothing is added.
      have hrun : runOn body = false := by
        rw [← Bool.not_eq_true]
        exact fun hrun => (h₁.past hrun).not_endsReturning hret
      refine h c₁ (h₁.weaken (by simp) fun hcomplete => ?_)
      simp [hbody, hrun, hcomplete]
    · refine .seq (Adds.emit (p := false) rfl fun c₂ h₂ _ => .emit (.op .ret) (h _ ?_))
      have h₃ := h₁.seq (.returned h₂)
      rw [List.append_nil, Bool.and_false] at h₃
      exact h₃.weaken id (by simp)

theorem parameter_builds (d : VarDef) : Builds structs d.label false true (parameter d) := by
  obtain ⟨type, name⟩ := d
  intro block outer c Q h
  refine .need fun t ht => .seq (.declare ?_)
  cases ht
  exact store_declared fun c₁ h₁ _ hown => h c₁ (.of_prolongs h₁ (by simp) fun _ => hown)

theorem parameters_build (l : List VarDef) :
    Builds structs (l.flatMap VarDef.label) false true (l.forM parameter) := by
  induction l with
  | nil => exact Adds.builds .pure
  | cons d l ih => exact (parameter_builds d).seq ih

/-- The code of a function, between the blocks that are opened before and behind it. -/
def funCode (d : FunDef) : Gen Unit :=
  if d.name.lexeme = "main" then mainBody d.body
  else do
    d.params.forM parameter
    if d.body.isEmpty then emitReturn else stmts d.body

theorem funCode_builds (d : FunDef) : Builds structs d.leaves false (!d.closed) (funCode d) := by
  unfold funCode FunDef.leaves FunDef.closed
  by_cases hmain : d.name.lexeme = "main"
  · simp only [hmain, if_true, BEq.rfl, Bool.true_and, List.nil_append]
    exact mainBody_builds d.body
  · simp only [hmain, if_false, beq_eq_false_iff_ne.2 hmain, Bool.false_and, Bool.or_false]
    by_cases hbody : d.body.isEmpty
    · rw [if_pos hbody, List.isEmpty_iff.1 hbody]
      exact (parameters_build d.params).seq emitReturn_builds
    · simp only [hbody, Bool.false_eq_true, if_false, Bool.false_or, Bool.not_not]
      exact (parameters_build d.params).seq (stmts_build d.body).runsOff

theorem funDef_eq (d : FunDef) (g : Generator) : funDef d g = (do funCode d; finish)
    (amid g.structs [[]] [] g.offsets g.image (d.template [] .empty)) := by
  unfold funDef funCode
  by_cases hmain : d.name.lexeme = "main"
  · rw [if_pos hmain, if_pos hmain]
    rfl
  · rw [if_neg hmain, if_neg hmain, bind_assoc]
    by_cases hbody : d.body.isEmpty
    · simp only [hbody, if_true]
      rfl
    · simp only [hbody, Bool.false_eq_true, if_false]
      rfl

end Walk

def Compiles (structs : Table String StructDef) (d : FunDef) (code : List Loose) : Prop :=
  ∀ g : Generator, g.structs = structs → funDef d g = .ok () { g with
    image := g.image.install (d.template code g.offsets)
    current := some (d.template code g.offsets)
    offsets := ⟨[] :: d.leaves :: g.offsets.blocks⟩ }

theorem funDef_cases (structs : Table String StructDef) (d : FunDef) :
    (∃ code, Compiles structs d code ∧ Assembled d.leaves false (!d.closed) [] code) ∨
      ∃ e, ∀ g : Generator, g.structs = structs → ∃ g', funDef d g = .error e g' := by
  have hcode : Uniform structs [[]] [] (fun _ => funCode d) fun own c =>
      own = [d.leaves] ∧ Assembled d.leaves false (!d.closed) [] c :=
    funCode_builds d fun c hc => ⟨rfl, hc⟩
  obtain ⟨own, c, ⟨rfl, hc⟩, hok⟩ | ⟨e, hfail⟩ := hcode
  · refine .inl ⟨c, fun g hg => ?_, hc⟩
    subst hg
    rw [funDef_eq]
    simp only [bind, EStateM.bind, hok]
    rfl
  · refine .inr ⟨e, fun g hg => ?_⟩
    subst hg
    obtain ⟨g', hg'⟩ := hfail g.offsets g.image (d.template [] .empty)
    refine ⟨g', ?_⟩
    rw [funDef_eq]
    simp only [bind, EStateM.bind, hg']

end Generator
end StackLang
