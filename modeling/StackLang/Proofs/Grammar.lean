import StackLang.Proofs.Rendering

namespace StackLang.Grammar

open Token

def front : List Kind → Kind
  | [] => .eos
  | k :: _ => k

@[simp] theorem front_cons (k : Kind) (a : List Kind) : front (k :: a) = k := rfl

structure Dialect where
  /-- A call may stand wherever a value may. -/
  calls : Bool := false
  /-- An expression may be missing in front of a closing parenthesis. -/
  omits : Bool := false
  /-- Parts of creations and declarations may be missing. -/
  lax : Bool := false
  /-- A path may stand in place of a type, and an item need not be assigned to. -/
  items : Bool := false
  /-- In some places arguments may follow an expression, which ends with a call then. -/
  late : Bool := false
  /-- The step of a counting loop may start with any token. -/
  blind : Bool := false

namespace Dialect

/-- The language proper. -/
def standard : Dialect := { calls := true }

/-- No call inside of an expression, and no liberty that is taken by one parser only. -/
def shared : Dialect := { lax := true }

/-- What the recognizer accepts. -/
def recognized : Dialect := { calls := true, omits := true, lax := true, items := true }

/-- What the parser makes trees of. -/
def parsed : Dialect := { lax := true, late := true, blind := true }

structure Within (D E : Dialect) : Prop where
  calls : D.calls → E.calls
  omits : D.omits → E.omits
  lax : D.lax → E.lax
  items : D.items → E.items
  late : D.late → E.late
  blind : D.blind → E.blind

theorem standard_within_recognized : standard.Within recognized :=
  ⟨fun _ => rfl, fun _ => rfl, fun _ => rfl, fun _ => rfl, id, id⟩

theorem shared_within_recognized : shared.Within recognized :=
  ⟨fun _ => rfl, fun _ => rfl, fun _ => rfl, fun _ => rfl, id, id⟩

theorem shared_within_parsed : shared.Within parsed :=
  ⟨id, id, fun _ => rfl, id, fun _ => rfl, fun _ => rfl⟩

end Dialect

inductive Naming (D : Dialect) : List Kind → List Kind → Prop
  | type {a : List Kind} {k : Kind} : k.namesType → Naming D (k :: a) a
  | none {a : List Kind} : D.lax → (front a).namesType = false → Naming D a a

inductive Part where
  | expr
  | value
  | content
  | arguments
  | others
  | index
  | selectors

inductive Derives (D : Dialect) : Part → List Kind → List Kind → Prop
  | operand {a b : List Kind} : Derives D .value a b → Derives D .expr a b
  | operation {a b c : List Kind} {op : Kind} : Derives D .value a (op :: b) → op.isOperator →
      Derives D .expr b c → Derives D .expr a c
  | negation {a b : List Kind} : Derives D .expr a b → Derives D .expr (.notOp :: a) b
  | omitted {a : List Kind} : D.omits → Derives D .expr (.rparen :: a) (.rparen :: a)
  | literal {a : List Kind} {k : Kind} : k.isLiteral → Derives D .value (k :: a) a
  | group {a b : List Kind} : Derives D .expr a (.rparen :: b) → Derives D .value (.lparen :: a) b
  | creation {a b c : List Kind} : Naming D a b → Derives D .content b c →
      Derives D .value (.newKw :: a) c
  | path {a b c : List Kind} : Derives D .index a b → Derives D .selectors b c →
      Derives D .value (.id :: a) c
  | call {a b : List Kind} : D.calls → Derives D .arguments a (.rparen :: b) →
      Derives D .value (.id :: .lparen :: a) b
  | record {a b : List Kind} : Derives D .arguments a (.rparen :: b) →
      Derives D .content (.lparen :: a) b
  | array {a b : List Kind} : Derives D .expr a (.rbracket :: b) →
      Derives D .content (.lbracket :: a) b
  | noContent {a : List Kind} : D.lax → front a ≠ .lparen → front a ≠ .lbracket →
      Derives D .content a a
  | noArguments {a : List Kind} : Derives D .arguments a a
  | arguments {a b c : List Kind} : Derives D .expr a b → Derives D .others b c →
      Derives D .arguments a c
  | noOthers {a : List Kind} : Derives D .others a a
  | others {a b c : List Kind} : Derives D .expr a b → Derives D .others b c →
      Derives D .others (.comma :: a) c
  | noIndex {a : List Kind} : Derives D .index a a
  | index {a b : List Kind} : Derives D .expr a (.rbracket :: b) →
      Derives D .index (.lbracket :: a) b
  | noSelectors {a : List Kind} : Derives D .selectors a a
  | selectors {a b c : List Kind} : Derives D .index a b → Derives D .selectors b c →
      Derives D .selectors (.dot :: .id :: a) c

def Trail (D : Dialect) (a c : List Kind) : Prop :=
  ∃ b, Derives D .index a b ∧ Derives D .selectors b c

def Indexes (D : Dialect) (a b : List Kind) : Prop :=
  (a = b ∧ front a ≠ .lbracket) ∨ ∃ c, a = .lbracket :: c ∧ Derives D .expr c (.rbracket :: b)

theorem Indexes.derives {D : Dialect} {a b : List Kind} (h : Indexes D a b) :
    Derives D .index a b := by
  obtain ⟨rfl, -⟩ | ⟨c, rfl, hc⟩ := h
  · exact .noIndex
  · exact .index hc

def bare (a : List Kind) : List Kind := a.dropWhile (· == .notOp)

/-- The arguments of a call. One that is itself a call, by arguments behind it, stands alone. -/
inductive Passed (D : Dialect) : List Kind → List Kind → Prop
  | list {a b : List Kind} : Derives D .arguments a (.rparen :: b) → Passed D (.lparen :: a) b
  | call {a b c : List Kind} : D.late → front (bare a) = .id → Derives D .expr a b →
      Passed D b (.rparen :: c) → Passed D (.lparen :: a) c

theorem Passed.cons {D : Dialect} {a b : List Kind} (h : Passed D a b) : ∃ c, a = .lparen :: c := by
  cases h <;> exact ⟨_, rfl⟩

inductive Initial (D : Dialect) : List Kind → List Kind → Prop
  | plain {a b : List Kind} : Derives D .expr a b → Initial D a b
  | call {a b c : List Kind} : D.late → front (bare a) = .id → Derives D .expr a b →
      Passed D b c → Initial D a c

inductive Counted (D : Dialect) : List Kind → List Kind → Prop
  | plain {a b : List Kind} : Derives D .expr a b → Counted D a b
  | call {a b c : List Kind} : D.late → front (bare a) = .id → Derives D .value (bare a) b →
      Passed D b c → Counted D a c
  | last {a b c d : List Kind} {op : Kind} : D.late → Derives D .value (bare a) (op :: b) →
      op.isOperator → front (bare b) = .id → Derives D .expr b c → Passed D c d → Counted D a d

inductive Trailing (D : Dialect) : List Kind → List Kind → Prop
  | done {a : List Kind} : Trailing D a a
  | next {a b c : List Kind} {op name : Kind} : op.isOperator → (a = b ∨ Passed D a b) →
      Trailing D b c → Trailing D (op :: name :: a) c

inductive Returned (D : Dialect) : List Kind → List Kind → Prop
  | plain {a b : List Kind} : Derives D .expr a b → Returned D a b
  | call {a b c d : List Kind} : D.late → front (bare a) = .id → Derives D .value (bare a) b →
      Passed D b c → Trailing D c d → Returned D a d
  | last {a b c d : List Kind} {op : Kind} : D.late → front (bare a) = .id →
      Derives D .value (bare a) (op :: b) → op.isOperator → front (bare b) = .id →
      Derives D .expr b c → Passed D c d → Returned D a d

def begins (k : Kind) : Bool := k.isBaseType || k == .arrayKw

def opensType (k : Kind) : Bool := k.namesType || k == .arrayKw

inductive Typed (D : Dialect) : List Kind → List Kind → Prop
  | plain {a : List Kind} {k : Kind} : k.namesType → Typed D (k :: a) a
  | array {a : List Kind} {k : Kind} : k.namesType → Typed D (.arrayKw :: k :: a) a
  | nested {a b : List Kind} : D.items → Typed D a b → Typed D (.arrayKw :: a) b
  | item {a b : List Kind} : D.items → Trail D a b → a ≠ b → Typed D a b

inductive Initialized (D : Dialect) : List Kind → List Kind → Prop
  | none {a : List Kind} : Initialized D a a
  | some {a b : List Kind} : Initial D a b → Initialized D (.assign :: a) b

inductive Counter (D : Dialect) : List Kind → List Kind → Prop
  | typed {a b : List Kind} : begins (front a) → Typed D a (.id :: b) → Counter D a b
  | name {a : List Kind} : D.lax → Counter D (.id :: a) a
  | none {a : List Kind} : D.lax → Counter D a a
  | item {a b : List Kind} : D.items → Trail D a b → Counter D a b

inductive Stepped (D : Dialect) : List Kind → List Kind → Prop
  | name {a : List Kind} : Stepped D (.id :: a) a
  | none {a : List Kind} : D.items → Stepped D a a
  | other {a : List Kind} {k : Kind} : D.blind → Stepped D (k :: a) a

inductive Counts (D : Dialect) : List Kind → List Kind → Prop
  | intro {a b c d e f g : List Kind} : Counter D a b → Initialized D b (.semicolon :: c) →
      Counted D c (.semicolon :: d) → Stepped D d e → Trail D e (.assign :: f) →
      Derives D .expr f g → Counts D a g

inductive Clause where
  | stmt
  | stmts
  | alternatives

inductive Composes (D : Dialect) : Clause → List Kind → List Kind → Prop
  | decl {a b c : List Kind} : opensType (front a) → Typed D a (.id :: b) →
      Initialized D b (.semicolon :: c) → Composes D .stmt a c
  | redeclare {a b c : List Kind} : D.lax → begins (front a) → Typed D a (.id :: b) →
      Initialized D b (.semicolon :: c) → Composes D .stmt (.id :: a) c
  | idle {a : List Kind} : D.lax → Composes D .stmt (.id :: .semicolon :: a) a
  | item {a b c : List Kind} : D.items → front a = .lbracket → Trail D a b →
      Initialized D b (.semicolon :: c) → Composes D .stmt (.id :: a) c
  | assign {a b c : List Kind} : Trail D a (.assign :: b) → Derives D .expr b (.semicolon :: c) →
      Composes D .stmt (.id :: a) c
  | call {a b : List Kind} : Passed D a (.semicolon :: b) → Composes D .stmt (.id :: a) b
  | ret {a b : List Kind} : Returned D a (.semicolon :: b) → Composes D .stmt (.returnKw :: a) b
  | loop {a b c : List Kind} : front a ≠ .rparen → Derives D .expr a (.rparen :: .lbrace :: b) →
      Composes D .stmts b (.rbrace :: c) → Composes D .stmt (.whileKw :: .lparen :: a) c
  | count {a b c : List Kind} : Counts D a (.rparen :: .lbrace :: b) →
      Composes D .stmts b (.rbrace :: c) → Composes D .stmt (.forKw :: .lparen :: a) c
  | choice {a b c d : List Kind} : front a ≠ .rparen →
      Derives D .expr a (.rparen :: .lbrace :: b) → Composes D .stmts b (.rbrace :: c) →
      Composes D .alternatives c d → Composes D .stmt (.ifKw :: .lparen :: a) d
  | done {a : List Kind} : Composes D .stmts a a
  | next {a b c : List Kind} : Composes D .stmt a b → Composes D .stmts b c →
      Composes D .stmts a c
  | neither {a : List Kind} : Composes D .alternatives a a
  | elseif {a b c d : List Kind} : Derives D .expr a (.rparen :: .lbrace :: b) →
      Composes D .stmts b (.rbrace :: c) → Composes D .alternatives c d →
      Composes D .alternatives (.elseifKw :: .lparen :: a) d
  | otherwise {a b : List Kind} : Composes D .stmts a (.rbrace :: b) →
      Composes D .alternatives (.elseKw :: .lbrace :: a) b

inductive Fields (D : Dialect) : List Kind → List Kind → Prop
  | done {a : List Kind} : Fields D a a
  | next {a b c : List Kind} : Typed D a (.id :: .semicolon :: b) → Fields D b c → Fields D a c

inductive MoreParameters (D : Dialect) : List Kind → List Kind → Prop
  | done {a : List Kind} : MoreParameters D a a
  | next {a b c : List Kind} : Typed D a (.id :: b) → MoreParameters D b c →
      MoreParameters D (.comma :: a) c

inductive Parameters (D : Dialect) : List Kind → List Kind → Prop
  | none {a : List Kind} : Parameters D a a
  | some {a b c : List Kind} : Typed D a (.id :: b) → MoreParameters D b c → Parameters D a c

inductive Results (D : Dialect) : List Kind → List Kind → Prop
  | value {a b : List Kind} : opensType (front a) → Typed D a b → Results D a b
  | nothing {a : List Kind} : Results D (.voidType :: a) a

inductive Defines (D : Dialect) : List Kind → List Kind → Prop
  | struct {a b : List Kind} : Fields D a (.rbrace :: b) →
      Defines D (.structKw :: .id :: .lbrace :: a) b
  | function {a b c d : List Kind} : Results D a (.id :: .lparen :: b) →
      Parameters D b (.rparen :: .lbrace :: c) → Composes D .stmts c (.rbrace :: d) → Defines D a d

inductive Definitions (D : Dialect) : List Kind → List Kind → Prop
  | done {a : List Kind} : Definitions D a a
  | next {a b c : List Kind} : Defines D a b → Definitions D b c → Definitions D a c

/-- Tokens that make up a program. -/
def IsProgram (D : Dialect) (ks : List Kind) : Prop := Definitions D ks []

section

variable {D : Dialect} {part : Part} {clause : Clause} {a b : List Kind}

def Part.least : Part → Nat
  | .value => 1
  | _ => 0

theorem Naming.length (h : Naming D a b) : b.length ≤ a.length := by
  cases h <;> simp

theorem Derives.length (h : Derives D part a b) : b.length + part.least ≤ a.length := by
  induction h with
  | creation hn _ ih =>
    have hlen := hn.length
    simp only [List.length_cons, Part.least] at *
    omega
  | _ => simp only [List.length_cons, Part.least] at *; omega

theorem Trail.length (h : Trail D a b) : b.length ≤ a.length := by
  obtain ⟨c, hi, hs⟩ := h
  exact Nat.le_trans hs.length hi.length

theorem length_bare (a : List Kind) : (bare a).length ≤ a.length :=
  (List.dropWhile_sublist _).length_le

theorem Passed.length (h : Passed D a b) : b.length + 2 ≤ a.length := by
  induction h with
  | list h =>
    have hlen := h.length
    simp only [List.length_cons, Part.least] at *
    omega
  | call _ _ h _ ih =>
    have hlen := h.length
    simp only [List.length_cons, Part.least] at *
    omega

theorem Initial.length (h : Initial D a b) : b.length ≤ a.length := by
  cases h with
  | plain h => exact h.length
  | call _ _ h hp =>
    have hlen := h.length
    have hplen := hp.length
    simp only [Part.least] at hlen
    omega

theorem Counted.length (h : Counted D a b) : b.length ≤ a.length := by
  have hbare := length_bare a
  cases h with
  | plain h => exact h.length
  | call _ _ h hp =>
    have hlen := h.length
    have hplen := hp.length
    omega
  | last _ h _ _ hr hp =>
    have hlen := h.length
    have hrlen := hr.length
    have hplen := hp.length
    simp only [List.length_cons, Part.least] at hlen hrlen
    omega

theorem Trailing.length (h : Trailing D a b) : b.length ≤ a.length := by
  induction h with
  | done => exact Nat.le_refl _
  | next _ hp _ ih =>
    obtain rfl | hp := hp
    · simp only [List.length_cons]
      omega
    · have hlen := hp.length
      simp only [List.length_cons]
      omega

theorem Returned.length (h : Returned D a b) : b.length ≤ a.length := by
  have hbare := length_bare a
  cases h with
  | plain h => exact h.length
  | call _ _ h hp ht =>
    have hlen := h.length
    have hplen := hp.length
    have htlen := ht.length
    omega
  | last _ _ h _ _ hr hp =>
    have hlen := h.length
    have hrlen := hr.length
    have hplen := hp.length
    simp only [List.length_cons, Part.least] at hlen hrlen
    omega

theorem Typed.length (h : Typed D a b) : b.length ≤ a.length := by
  induction h with
  | item _ h => exact h.length
  | _ => simp only [List.length_cons] at *; omega

theorem Initialized.length (h : Initialized D a b) : b.length ≤ a.length := by
  cases h with
  | none => exact Nat.le_refl _
  | some h => exact Nat.le_succ_of_le h.length

theorem Counter.length (h : Counter D a b) : b.length ≤ a.length := by
  cases h with
  | typed _ h => exact Nat.le_of_succ_le h.length
  | name => exact Nat.le_succ _
  | none => exact Nat.le_refl _
  | item _ h => exact h.length

theorem Stepped.length (h : Stepped D a b) : b.length ≤ a.length := by
  cases h <;> simp

theorem Counts.length (h : Counts D a b) : b.length + 3 ≤ a.length := by
  cases h with
  | intro hv hi hc hs hp he =>
    have hvlen := hv.length
    have hilen := hi.length
    have hclen := hc.length
    have hslen := hs.length
    have hplen := hp.length
    have helen := he.length
    simp only [List.length_cons, Part.least] at *
    omega

def Clause.least : Clause → Nat
  | .stmt => 1
  | _ => 0

theorem Composes.length (h : Composes D clause a b) : b.length + clause.least ≤ a.length := by
  induction h with
  | decl _ ht hi | redeclare _ _ ht hi =>
    have htlen := ht.length
    have hilen := hi.length
    simp only [List.length_cons, Clause.least] at *
    omega
  | item _ _ hp hi =>
    have hplen := hp.length
    have hilen := hi.length
    simp only [List.length_cons, Clause.least] at *
    omega
  | assign hp he =>
    have hplen := hp.length
    have helen := he.length
    simp only [List.length_cons, Part.least, Clause.least] at *
    omega
  | call h | ret h =>
    have hlen := h.length
    simp only [List.length_cons, Clause.least] at *
    omega
  | loop _ h | choice _ h | elseif h | count h =>
    have hlen := h.length
    simp only [List.length_cons, Part.least, Clause.least] at *
    omega
  | _ => simp only [List.length_cons, Clause.least] at *; omega

theorem Fields.length (h : Fields D a b) : b.length ≤ a.length := by
  induction h with
  | done => exact Nat.le_refl _
  | next ht _ ih =>
    have hlen := ht.length
    simp only [List.length_cons] at hlen
    omega

theorem MoreParameters.length (h : MoreParameters D a b) : b.length ≤ a.length := by
  induction h with
  | done => exact Nat.le_refl _
  | next ht _ ih =>
    have hlen := ht.length
    simp only [List.length_cons] at hlen ⊢
    omega

theorem Parameters.length (h : Parameters D a b) : b.length ≤ a.length := by
  cases h with
  | none => exact Nat.le_refl _
  | some ht hm =>
    have hlen := ht.length
    have hmlen := hm.length
    simp only [List.length_cons] at hlen
    omega

theorem Results.length (h : Results D a b) : b.length ≤ a.length := by
  cases h with
  | value _ ht => exact ht.length
  | nothing => exact Nat.le_succ _

theorem Defines.length (h : Defines D a b) : b.length + 1 ≤ a.length := by
  cases h with
  | struct hf =>
    have hlen := hf.length
    simp only [List.length_cons] at hlen ⊢
    omega
  | function hr hp hb =>
    have hrlen := hr.length
    have hplen := hp.length
    have hblen := hb.length
    simp only [List.length_cons] at hrlen hplen hblen
    omega

end

section

variable {D E : Dialect} {part : Part} {clause : Clause} {a b : List Kind}

theorem Naming.mono (h : Naming D a b) (w : D.Within E) : Naming E a b := by
  cases h with
  | type hk => exact .type hk
  | none hl hf => exact .none (w.lax hl) hf

theorem Derives.mono (h : Derives D part a b) (w : D.Within E) : Derives E part a b := by
  induction h with
  | operand _ ih => exact .operand ih
  | operation _ hop _ ih ihr => exact .operation ih hop ihr
  | negation _ ih => exact .negation ih
  | omitted ho => exact .omitted (w.omits ho)
  | literal hk => exact .literal hk
  | group _ ih => exact .group ih
  | creation hn _ ih => exact .creation (hn.mono w) ih
  | path _ _ ihi ihs => exact .path ihi ihs
  | call hc _ ih => exact .call (w.calls hc) ih
  | record _ ih => exact .record ih
  | array _ ih => exact .array ih
  | noContent hl hp hb => exact .noContent (w.lax hl) hp hb
  | noArguments => exact .noArguments
  | arguments _ _ ihe iho => exact .arguments ihe iho
  | noOthers => exact .noOthers
  | others _ _ ihe iho => exact .others ihe iho
  | noIndex => exact .noIndex
  | index _ ih => exact .index ih
  | noSelectors => exact .noSelectors
  | selectors _ _ ihi ihs => exact .selectors ihi ihs

theorem Trail.mono (h : Trail D a b) (w : D.Within E) : Trail E a b := by
  obtain ⟨c, hi, hs⟩ := h
  exact ⟨c, hi.mono w, hs.mono w⟩

theorem Passed.mono (h : Passed D a b) (w : D.Within E) : Passed E a b := by
  induction h with
  | list h => exact .list (h.mono w)
  | call hl hf h _ ih => exact .call (w.late hl) hf (h.mono w) ih

theorem Initial.mono (h : Initial D a b) (w : D.Within E) : Initial E a b := by
  cases h with
  | plain h => exact .plain (h.mono w)
  | call hl hf h hp => exact .call (w.late hl) hf (h.mono w) (hp.mono w)

theorem Counted.mono (h : Counted D a b) (w : D.Within E) : Counted E a b := by
  cases h with
  | plain h => exact .plain (h.mono w)
  | call hl hf h hp => exact .call (w.late hl) hf (h.mono w) (hp.mono w)
  | last hl h hop hf hr hp => exact .last (w.late hl) (h.mono w) hop hf (hr.mono w) (hp.mono w)

theorem Trailing.mono (h : Trailing D a b) (w : D.Within E) : Trailing E a b := by
  induction h with
  | done => exact .done
  | next hop hp _ ih => exact .next hop (hp.imp_right fun h => h.mono w) ih

theorem Returned.mono (h : Returned D a b) (w : D.Within E) : Returned E a b := by
  cases h with
  | plain h => exact .plain (h.mono w)
  | call hl hf h hp ht => exact .call (w.late hl) hf (h.mono w) (hp.mono w) (ht.mono w)
  | last hl hf h hop hfr hr hp =>
    exact .last (w.late hl) hf (h.mono w) hop hfr (hr.mono w) (hp.mono w)

theorem Typed.mono (h : Typed D a b) (w : D.Within E) : Typed E a b := by
  induction h with
  | plain hk => exact .plain hk
  | array hk => exact .array hk
  | nested hi _ ih => exact .nested (w.items hi) ih
  | item hi h hne => exact .item (w.items hi) (h.mono w) hne

theorem Initialized.mono (h : Initialized D a b) (w : D.Within E) : Initialized E a b := by
  cases h with
  | none => exact .none
  | some h => exact .some (h.mono w)

theorem Counts.mono (h : Counts D a b) (w : D.Within E) : Counts E a b := by
  cases h with
  | intro hv hi hc hs hp he =>
    refine .intro ?_ (hi.mono w) (hc.mono w) ?_ (hp.mono w) (he.mono w)
    · cases hv with
      | typed hb ht => exact .typed hb (ht.mono w)
      | name hl => exact .name (w.lax hl)
      | none hl => exact .none (w.lax hl)
      | item hi h => exact .item (w.items hi) (h.mono w)
    · cases hs with
      | name => exact .name
      | none hi => exact .none (w.items hi)
      | other hb => exact .other (w.blind hb)

theorem Composes.mono (h : Composes D clause a b) (w : D.Within E) : Composes E clause a b := by
  induction h with
  | decl hf ht hi => exact .decl hf (ht.mono w) (hi.mono w)
  | redeclare hl hf ht hi => exact .redeclare (w.lax hl) hf (ht.mono w) (hi.mono w)
  | idle hl => exact .idle (w.lax hl)
  | item hi hf h hinit => exact .item (w.items hi) hf (h.mono w) (hinit.mono w)
  | assign hp he => exact .assign (hp.mono w) (he.mono w)
  | call h => exact .call (h.mono w)
  | ret h => exact .ret (h.mono w)
  | loop hf h _ ih => exact .loop hf (h.mono w) ih
  | count h _ ih => exact .count (h.mono w) ih
  | choice hf h _ _ ih iha => exact .choice hf (h.mono w) ih iha
  | done => exact .done
  | next _ _ ihs ihl => exact .next ihs ihl
  | neither => exact .neither
  | elseif h _ _ ih iha => exact .elseif (h.mono w) ih iha
  | otherwise _ ih => exact .otherwise ih

theorem Fields.mono (h : Fields D a b) (w : D.Within E) : Fields E a b := by
  induction h with
  | done => exact .done
  | next ht _ ih => exact .next (ht.mono w) ih

theorem MoreParameters.mono (h : MoreParameters D a b) (w : D.Within E) : MoreParameters E a b := by
  induction h with
  | done => exact .done
  | next ht _ ih => exact .next (ht.mono w) ih

theorem Parameters.mono (h : Parameters D a b) (w : D.Within E) : Parameters E a b := by
  cases h with
  | none => exact .none
  | some ht hm => exact .some (ht.mono w) (hm.mono w)

theorem Results.mono (h : Results D a b) (w : D.Within E) : Results E a b := by
  cases h with
  | value hf ht => exact .value hf (ht.mono w)
  | nothing => exact .nothing

theorem Defines.mono (h : Defines D a b) (w : D.Within E) : Defines E a b := by
  cases h with
  | struct hf => exact .struct (hf.mono w)
  | function hr hp hb => exact .function (hr.mono w) (hp.mono w) (hb.mono w)

theorem Definitions.mono (h : Definitions D a b) (w : D.Within E) : Definitions E a b := by
  induction h with
  | done => exact .done
  | next hd _ ih => exact .next (hd.mono w) ih

end

end StackLang.Grammar
