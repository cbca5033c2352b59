import StackLang.Proofs.Chains

namespace StackLang

open Generator

/-- Literals that have a value, unless they are numerals that cannot be read. -/
def Token.speaks (t : Token) : Bool :=
  t.value?.isSome || t.kind == .intVal || t.kind == .doubleVal

mutual

/-- Expressions with all their parts: a literal says something and a path has a first step. -/
def Expr.whole : Expr → Bool
  | .mk _ first _ rest => first.whole && wholeIfAny rest

def Term.whole : Term → Bool
  | .literal t => t.speaks
  | .create _ size args => wholeIfAny size && wholeList args
  | .path refs => !refs.isEmpty && wholeRefs refs
  | .call _ args => wholeList args
  | .group e => e.whole

def wholeIfAny : Option Expr → Bool
  | some e => e.whole
  | none => true

def wholeList : Option (List Expr) → Bool
  | some l => wholeExprs l
  | none => true

def wholeExprs : List Expr → Bool
  | [] => true
  | e :: l => e.whole && wholeExprs l

def wholeRefs : List Ref → Bool
  | [] => true
  | .mk _ index :: l => wholeIfAny index && wholeRefs l

end

mutual

/-- Expressions without effects: nothing is created, read or printed and no function of the program
is called. A field with an index is one only if no variable or struct has its name. -/
def Expr.isPure (known : String → Bool) : Expr → Bool
  | .mk _ first op rest =>
    first.isPure known && pureIfAny known rest && op.isSome == rest.isSome &&
      op.all fun t => (operator? t.lexeme).isSome

def Term.isPure (known : String → Bool) : Term → Bool
  | .literal _ => true
  | .create .. => false
  | .path refs => purePath known refs
  | .call name args =>
    ((conversion? name.lexeme).any (· != .write) || name.lexeme == "get") && pureList known args
  | .group e => e.isPure known

def pureIfAny (known : String → Bool) : Option Expr → Bool
  | some e => e.isPure known
  | none => true

def pureList (known : String → Bool) : Option (List Expr) → Bool
  | some l => pureExprs known l
  | none => true

def pureExprs (known : String → Bool) : List Expr → Bool
  | [] => true
  | e :: l => e.isPure known && pureExprs known l

def purePath (known : String → Bool) : List Ref → Bool
  | [] => true
  | .mk _ index :: l => pureIfAny known index && pureFields known l

def pureFields (known : String → Bool) : List Ref → Bool
  | [] => true
  | .mk name index :: l =>
    pureIfAny known index && (index.isNone || !known name.lexeme) && pureFields known l

end

namespace Generator

/-- Generation appends operations to the code of whatever function, where the variables and structs
are the given ones. -/
def Writes (o : Offsets) (structs : Table String StructDef) (x : Gen Unit) (ops : List Op) : Prop :=
  ∀ image t, x ⟨image, some t, o, structs⟩ = .ok () ⟨image, some (t.append ops), o, structs⟩

/-- Generation appends operations that satisfy a property, always the same, or it always fails. -/
def Fixed (o : Offsets) (structs : Table String StructDef) (C : List Op → Prop) (x : Gen Unit) :
    Prop :=
  (∃ ops, C ops ∧ Writes o structs x ops) ∨
    ∃ e, ∀ image t, ∃ g, x ⟨image, some t, o, structs⟩ = .error e g

section Rules

variable {o : Offsets} {structs : Table String StructDef} {C D E : List Op → Prop} {x y : Gen Unit}

theorem Writes.seq {a b : List Op} (hx : Writes o structs x a) (hy : Writes o structs y b) :
    Writes o structs (do x; y) (a ++ b) := by
  intro image t
  simp only [bind, EStateM.bind, hx image t]
  rw [hy, Template.append_append]

theorem Writes.emit (op : Op) : Writes o structs (emit op) [op] := by
  intro image t
  have h := Gets.emit (n := t.code.size) (o := o) (a := []) op image t structs rfl
  rwa [Template.append_nil] at h

theorem Writes.none : Writes o structs (pure ()) [] := by
  intro image t
  rw [Template.append_nil]
  rfl

theorem Writes.load (name : String) {x : Gen Unit} {ops : List Op} (h : Writes o structs x ops) :
    Writes o structs (do Generator.emit (.load (← offset name)); x)
      (.load (o.operand name) :: ops) := by
  intro image t
  simp only [bind, EStateM.bind, offset_eq]
  exact (Writes.emit (.load (o.operand name))).seq h image t

/-- What becomes of the code of a text whose length is taken: an empty literal is then empty. -/
def shortened (ops : List Op) : List Op :=
  if ops.getLast? = some (.push (.text " ")) then ops.dropLast ++ [.push (.text "")] else ops

/-- The code of a built-in function behind the code of its argument. -/
def converted (op : Op) (ops : List Op) : List Op :=
  (if op = .length then shortened ops else ops) ++ [op]

theorem code_append_concat (t : Template) (ops : List Op) (op : Op) :
    (t.append (ops ++ [op])).code = (t.append ops).code.push (.plain op) := by
  simp [Template.append]

theorem emitConversion_eq (op : Op) {a : List Op} (ha : a ≠ []) (image : Image) (t : Template) :
    emitConversion op ⟨image, some (t.append a), o, structs⟩ =
      .ok () ⟨image, some (t.append (converted op a)), o, structs⟩ := by
  have hemit (b : List Op) : emit op ⟨image, some (t.append b), o, structs⟩ =
      .ok () ⟨image, some (t.append (b ++ [op])), o, structs⟩ := by
    rw [← Template.append_append]
    exact Writes.emit op image (t.append b)
  by_cases hop : op = .length
  · obtain ⟨init, last, rfl⟩ := (List.eq_nil_or_concat' a).resolve_left ha
    have hcode (f : Array Instr → Array Instr) (u : Template) :
        onCode f ⟨image, some u, o, structs⟩ =
          .ok () ⟨image, some { u with code := f u.code }, o, structs⟩ := rfl
    have hback : (t.append (init ++ [last])).code.back? = some (.plain (.push (.text " "))) ↔
        last = .push (.text " ") := by
      rw [code_append_concat]
      simp [Instr.plain]
    simp only [emitConversion, if_pos hop, converted, bind, EStateM.bind, hcode, hback, shortened,
      List.getLast?_concat, Option.some.injEq, List.dropLast_concat]
    by_cases hlast : last = .push (.text " ")
    · have hpop : (t.append (init ++ [last])).code.pop = (t.append init).code := by
        rw [code_append_concat]
        simp
      rw [if_pos hlast, if_pos hlast, hpop, ← code_append_concat, ← hemit]
      rfl
    · rw [if_neg hlast, if_neg hlast]
      exact hemit _
  · simp only [emitConversion, if_neg hop, converted]
    exact hemit a

theorem Writes.conversion {a : List Op} (op : Op) (hx : Writes o structs x a) (ha : a ≠ []) :
    Writes o structs (do x; emitConversion op) (converted op a) := by
  intro image t
  simp only [bind, EStateM.bind, hx image t]
  exact emitConversion_eq op ha image t

namespace Fixed

theorem seq (hx : Fixed o structs C x) (hy : Fixed o structs D y)
    (h : ∀ a b, C a → D b → E (a ++ b)) : Fixed o structs E (do x; y) := by
  obtain ⟨a, ha, hx⟩ | ⟨e, hx⟩ := hx
  · obtain ⟨b, hb, hy⟩ | ⟨e, hy⟩ := hy
    · exact .inl ⟨a ++ b, h a b ha hb, hx.seq hy⟩
    · refine .inr ⟨e, fun image t => ?_⟩
      obtain ⟨g, hg⟩ := hy image (t.append a)
      exact ⟨g, by simp only [bind, EStateM.bind, hx image t, hg]⟩
  · refine .inr ⟨e, fun image t => ?_⟩
    obtain ⟨g, hg⟩ := hx image t
    exact ⟨g, by simp only [bind, EStateM.bind, hg]⟩

theorem mono (hx : Fixed o structs C x) (h : ∀ a, C a → D a) : Fixed o structs D x := by
  obtain ⟨a, ha, hx⟩ | hx := hx
  · exact .inl ⟨a, h a ha, hx⟩
  · exact .inr hx

theorem emit {op : Op} (h : C [op]) : Fixed o structs C (Generator.emit op) :=
  .inl ⟨[op], h, .emit op⟩

theorem cons (op : Op) (hx : Fixed o structs C x) :
    Fixed o structs (fun b => ∃ a, C a ∧ b = op :: a) (do Generator.emit op; x) :=
  seq (C := (· = [op])) (emit rfl) hx fun _ b ha hb => ⟨b, hb, by rw [ha]; rfl⟩

protected theorem pure (h : C []) : Fixed o structs C (pure ()) :=
  .inl ⟨[], h, fun _ t => by rw [Template.append_nil]; rfl⟩

protected theorem throw (e : Failure) : Fixed o structs C (throw e) :=
  .inr ⟨e, fun _ _ => ⟨_, rfl⟩⟩

theorem throw_bind {α : Type} (e : Failure) (f : α → Gen Unit) :
    Fixed o structs C (throw e >>= f) := .inr ⟨e, fun _ _ => ⟨_, rfl⟩⟩

theorem look {α : Type} {r : Gen α} {f : α → Gen Unit} {y : Gen Unit}
    (hr : ∀ image t, (r >>= f) ⟨image, some t, o, structs⟩ = y ⟨image, some t, o, structs⟩)
    (h : Fixed o structs C y) : Fixed o structs C (r >>= f) := by
  obtain ⟨a, ha, hw⟩ | ⟨e, he⟩ := h
  · exact .inl ⟨a, ha, fun image t => (hr image t).trans (hw image t)⟩
  · refine .inr ⟨e, fun image t => ?_⟩
    obtain ⟨g, hg⟩ := he image t
    exact ⟨g, (hr image t).trans hg⟩

theorem offset {name : String} {f : Value → Gen Unit} (h : Fixed o structs C (f (o.operand name))) :
    Fixed o structs C (Generator.offset name >>= f) :=
  look (fun _ _ => by simp only [bind, EStateM.bind, offset_eq]) h

theorem field {struct : String} {i : Nat} {f : String → Gen Unit}
    (h : ∀ name, Fixed o structs C (f name)) :
    Fixed o structs C (Generator.field struct i >>= f) := by
  have hget (g : Generator) : (get : Gen Generator) g = .ok g g := rfl
  cases hd : structs.get? struct with
  | none =>
    refine look (y := throw (.crash .unknownKey)) (fun _ _ => ?_) (.throw _)
    simp only [Generator.field, bind, EStateM.bind, hget, hd]
    rfl
  | some d =>
    cases hv : d.fields[i]? with
    | none =>
      refine look (y := throw (.crash .outOfRange)) (fun _ _ => ?_) (.throw _)
      simp only [Generator.field, bind, EStateM.bind, hget, hd, hv]
      rfl
    | some v =>
      cases hname : v.name with
      | none =>
        refine look (y := throw (.crash .missingPart)) (fun _ _ => ?_) (.throw _)
        simp only [Generator.field, bind, EStateM.bind, hget, hd, hv, hname]
        rfl
      | some name =>
        refine look (fun _ _ => ?_) (h name.lexeme)
        simp only [Generator.field, bind, EStateM.bind, hget, hd, hv, hname]
        rfl

theorem conversion {op : Op} (hx : Fixed o structs C x) (hne : ∀ a, C a → a ≠ [])
    (h : ∀ a, C a → D (converted op a)) : Fixed o structs D (do x; emitConversion op) := by
  obtain ⟨a, ha, hx⟩ | ⟨e, hx⟩ := hx
  · exact .inl ⟨_, h a ha, hx.conversion op (hne a ha)⟩
  · refine .inr ⟨e, fun image t => ?_⟩
    obtain ⟨g, hg⟩ := hx image t
    exact ⟨g, by simp only [bind, EStateM.bind, hg]⟩

end Fixed
end Rules
end Generator

open Machine

theorem Op.isBinary_of_operator? {sign : String} {op : Op} (h : operator? sign = some op) :
    op.isBinary := by
  unfold operator? at h
  split at h <;> cases h <;> rfl

theorem Op.isUnary_of_conversion? {name : String} {op : Op} (h : conversion? name = some op) :
    op = .write ∨ op.isUnary := by
  unfold conversion? at h
  split at h <;> cases h <;> simp [Op.isUnary]

theorem Op.straight_of_isUnary {op : Op} (h : op.isUnary) : op.straight := by
  cases op with
  | not | length | toInt | toDouble | toText | getField => rfl
  | _ => cases h

theorem Op.straight_of_merges {op : Op} (h : op.merges) : op.straight := by
  cases op with
  | add | sub | mul | div | and | or | less | lessEq | equal | notEqual | charAt | getItem => rfl
  | _ => cases h

theorem Op.inline_of_straight {op : Op} (h : op.straight) : op.inline := by
  cases op with
  | jump | jumpFalse | ret => cases h
  | _ => rfl

/-- The code of an expression; `calm` for one without effects. -/
structure Piece (calm : Bool) (ops : List Op) : Prop where
  nonempty : ops ≠ []
  inline : ∀ op ∈ ops, op.inline
  straight : calm → ∀ op ∈ ops, op.straight
  computes : calm → ∀ image, Computes image ops

/-- Code that goes on from the value that an expression has left. -/
structure Sequel (calm : Bool) (ops : List Op) : Prop where
  inline : ∀ op ∈ ops, op.inline
  straight : calm → ∀ op ∈ ops, op.straight
  computes : calm → ∀ image a, Computes image a → Computes image (a ++ ops)

section Piece

variable {c d : Bool} {a b : List Op} {op : Op}

theorem Piece.push (v : Value) : Piece c [.push v] where
  nonempty := by simp
  inline := by simp [Op.inline, Op.jumps]
  straight _ := by simp [Op.straight]
  computes _ _ := .push v

theorem Piece.load (offset : Value) : Piece c [.load offset] where
  nonempty := by simp
  inline := by simp [Op.inline, Op.jumps]
  straight _ := by simp [Op.straight]
  computes _ _ := .load offset

theorem Piece.weaken (h : Piece c a) (hd : d → c) : Piece d a :=
  ⟨h.nonempty, h.inline, fun hd' => h.straight (hd hd'), fun hd' => h.computes (hd hd')⟩

theorem Piece.of_inline (hne : a ≠ []) (h : ∀ op ∈ a, op.inline) : Piece false a where
  nonempty := hne
  inline := h
  straight hc := by cases hc
  computes hc := by cases hc

theorem Piece.extend (ha : Piece c a) (hb : Sequel c b) : Piece c (a ++ b) where
  nonempty := List.append_ne_nil_of_left_ne_nil ha.nonempty b
  inline := List.forall_mem_append.2 ⟨ha.inline, hb.inline⟩
  straight hc := List.forall_mem_append.2 ⟨ha.straight hc, hb.straight hc⟩
  computes hc image := hb.computes hc image a (ha.computes hc image)

theorem Sequel.nil : Sequel c [] where
  inline := by simp
  straight _ := by simp
  computes _ image a ha := by rwa [List.append_nil]

theorem Sequel.append (ha : Sequel c a) (hb : Sequel c b) : Sequel c (a ++ b) where
  inline := List.forall_mem_append.2 ⟨ha.inline, hb.inline⟩
  straight hc := List.forall_mem_append.2 ⟨ha.straight hc, hb.straight hc⟩
  computes hc image p hp := by
    rw [← List.append_assoc]
    exact hb.computes hc image _ (ha.computes hc image p hp)

theorem Sequel.one (hop : op.isUnary) : Sequel c [op] where
  inline := by simpa using op.inline_of_straight (op.straight_of_isUnary hop)
  straight _ := by simpa using op.straight_of_isUnary hop
  computes _ image a ha := ha.one hop

theorem Sequel.two (hb : Piece c b) (hop : op.merges) : Sequel c (b ++ [op]) where
  inline := List.forall_mem_append.2
    ⟨hb.inline, by simpa using op.inline_of_straight (op.straight_of_merges hop)⟩
  straight hc := List.forall_mem_append.2
    ⟨hb.straight hc, by simpa using op.straight_of_merges hop⟩
  computes hc image a ha := ha.two (hb.computes hc image) hop

theorem Sequel.of_inline (h : ∀ op ∈ a, op.inline) : Sequel false a where
  inline := h
  straight hc := by cases hc
  computes hc := by cases hc

theorem Sequel.weaken (h : Sequel c a) (hd : d → c) : Sequel d a :=
  ⟨h.inline, fun hd' => h.straight (hd hd'), fun hd' => h.computes (hd hd')⟩

theorem Piece.convert (h : Piece c a) (hop : op.isUnary) : Piece c (converted op a) := by
  have hshort : Piece c (shortened a) := by
    unfold shortened
    split
    · rename_i hlast
      obtain ⟨init, rfl⟩ := List.getLast?_eq_some_iff.1 hlast
      rw [List.dropLast_concat]
      have hinit := List.forall_mem_append.1 h.inline
      refine ⟨by simp, List.forall_mem_append.2 ⟨hinit.1, by simp [Op.inline, Op.jumps]⟩,
        fun hc => ?_, fun hc image => (h.computes hc image).exchange _⟩
      exact List.forall_mem_append.2
        ⟨(List.forall_mem_append.1 (h.straight hc)).1, by simp [Op.straight]⟩
    · exact h
  unfold converted
  split
  · exact hshort.extend (.one hop)
  · exact h.extend (.one hop)

end Piece

namespace Generator

/-- Names that a field with an index is taken for a variable by. -/
def known (o : Offsets) (structs : Table String StructDef) (name : String) : Bool :=
  o.operand name != .absent || structs.contains name

section Walk

variable {o : Offsets} {structs : Table String StructDef}

theorem literal_fixed {t : Token} (h : t.speaks) {C : List Op → Prop} (hC : ∀ v, C [.push v]) :
    Fixed o structs C (literal t) := by
  cases hv : t.value? with
  | some v =>
    refine .inl ⟨[.push v], hC v, fun image u => ?_⟩
    have hemits := literal_emits (o := o) (t := t) (by rw [hv]; rfl) u.code.size image u structs rfl
    rw [Template.append_nil, hv] at hemits
    exact hemits
  | none =>
    refine .inr ⟨.crash .badNumeral, fun image u => ⟨⟨image, some u, o, structs⟩, ?_⟩⟩
    obtain ⟨kind, lexeme, line, column⟩ := t
    cases kind with
    | intVal | doubleVal =>
      have hnumeral := Option.map_eq_none_iff.1 hv
      simp only [literal, literalValue, hnumeral]
      rfl
    | _ => simp [Token.speaks, hv] at h

theorem operation_fixed (op : Option Token) : Fixed o structs (· = operation op)
    (match op.bind fun t => operator? t.lexeme with
      | some f => emit f
      | none => pure ()) := by
  cases hop : op.bind fun t => operator? t.lexeme with
  | none => exact .pure (by simp [operation, hop])
  | some f => exact .emit (by simp [operation, hop])

/-- What stands between a first operand and the rest. -/
def negation (negated : Option Bool) : List Op := if negated = some true then [.not] else []

theorem sequel_negation (negated : Option Bool) {c : Bool} : Sequel c (negation negated) := by
  unfold negation
  split
  · exact .one rfl
  · exact .nil

theorem negated_fixed (negated : Option Bool) {C : List Op → Prop} {y : Gen Unit}
    (hy : Fixed o structs C y) : Fixed o structs (fun b => ∃ a, C a ∧ b = negation negated ++ a)
      (if negated = some true then do emit .not; y else y) := by
  unfold negation
  split
  · exact hy.cons .not
  · exact hy.mono fun a ha => ⟨a, ha, rfl⟩

theorem inline_operation (op : Option Token) : ∀ f ∈ operation op, f.inline :=
  fun f hf => f.inline_of_straight (straight_operation op f hf)

theorem sequel_operation {op : Option Token} {b : List Op} {c d : Bool} (hb : Piece c b)
    (hd : d → c ∧ op.isSome ∧ op.all fun t => (operator? t.lexeme).isSome) :
    Sequel d (b ++ operation op) := by
  cases hop : op.bind fun t => operator? t.lexeme with
  | some f =>
    obtain ⟨t, -, ht⟩ := Option.bind_eq_some_iff.1 hop
    have hmerges : f.merges := by simp [Op.merges, Op.isBinary_of_operator? ht]
    simp only [operation, hop, Option.toList_some]
    exact (Sequel.two hb hmerges).weaken fun h => (hd h).1
  | none =>
    have hcalm : d = false := by
      rw [Bool.eq_false_iff]
      intro h
      obtain ⟨-, hsome, hall⟩ := hd h
      obtain ⟨t, rfl⟩ := Option.isSome_iff_exists.1 hsome
      simp_all
    simp only [operation, hop, Option.toList_none, List.append_nil, hcalm]
    exact .of_inline hb.inline

theorem operand_fixed {x : Gen Unit} {op : Option Token} {c d : Bool}
    (hx : Fixed o structs (Piece c) x)
    (hd : d → c ∧ op.isSome ∧ op.all fun t => (operator? t.lexeme).isSome) :
    Fixed o structs (Sequel d) (do
      x
      match op.bind fun t => operator? t.lexeme with
      | some f => emit f
      | none => pure ()) :=
  hx.seq (operation_fixed op) fun _ _ ha hb => hb ▸ sequel_operation ha hd

theorem merged_fixed {x rest : Gen Unit} {c d : Bool} (op : Op) (hop : op.merges)
    (hx : Fixed o structs (Piece c) x) (hrest : Fixed o structs (Sequel d) rest) (hd : d → c) :
    Fixed o structs (Sequel d) (do x; emit op; rest) := by
  refine hx.seq (hrest.cons op) ?_
  rintro a _ ha ⟨s, hs, rfl⟩
  have hmerged := (Sequel.two (ha.weaken hd) hop).append hs
  rwa [List.append_assoc] at hmerged

theorem piece_converted {op : Op} {a : List Op} {c d : Bool} (hop : op = .write ∨ op.isUnary)
    (ha : Piece d a) (hc : c → d ∧ op ≠ .write) : Piece c (converted op a) := by
  obtain rfl | hop := hop
  · have hcalm : c = false := by
      rw [Bool.eq_false_iff]
      exact fun h => (hc h).2 rfl
    rw [hcalm]
    refine .of_inline (by simp [converted]) ?_
    simpa [converted, or_imp, forall_and, Op.inline, Op.jumps] using ha.inline
  · exact (ha.weaken fun h => (hc h).1).convert hop

theorem inline_cons {x : Gen Unit} (op : Op) (hop : op.inline)
    (hx : Fixed o structs (fun a => ∀ op ∈ a, op.inline) x) :
    Fixed o structs (fun a => ∀ op ∈ a, op.inline) (do emit op; x) := by
  refine (hx.cons op).mono ?_
  rintro _ ⟨a, ha, rfl⟩
  exact List.forall_mem_cons.2 ⟨hop, ha⟩

theorem call_fixed {name : String} {c : Bool} {convert : Op → Gen Unit} {select user : Gen Unit}
    (hc : c → (conversion? name).any (· != .write) || name == "get")
    (hconvert : ∀ op, op = .write ∨ op.isUnary → (c → op ≠ .write) →
      Fixed o structs (Piece c) (convert op))
    (hselect : Fixed o structs (Piece c) select)
    (huser : Fixed o structs (fun a => ∀ op ∈ a, op.inline) user) :
    Fixed o structs (Piece c) (match conversion? name with
      | some op => convert op
      | none =>
        if name = "get" then select
        else if name = "input" then emit .read
        else do
          user
          emit (.call (.text name))) := by
  cases hop : conversion? name with
  | some op =>
    refine hconvert op (Op.isUnary_of_conversion? hop) fun h => ?_
    have hname := hc h
    rw [hop] at hname
    obtain hne | hget := Bool.or_eq_true_iff.1 hname
    · simpa using hne
    · rw [beq_iff_eq.1 hget] at hop
      cases hop
  | none =>
    by_cases hget : name = "get"
    · simpa only [if_pos hget] using hselect
    · have hcalm : c = false := by
        rw [Bool.eq_false_iff]
        intro h
        simpa [hop, hget] using hc h
      simp only [if_neg hget, hcalm]
      split
      · exact .emit (.of_inline (by simp) (by simp [Op.inline, Op.jumps]))
      · refine huser.seq (.emit rfl) (D := (· = [.call (.text name)])) ?_
        rintro a b ha rfl
        refine .of_inline (by simp) (List.forall_mem_append.2 ⟨ha, ?_⟩)
        simp [Op.inline, Op.jumps]

mutual

theorem expr_fixed : (e : Expr) → e.whole →
    Fixed o structs (Piece (e.isPure (known o structs))) (expr e)
  | .mk negated first op none, h => by
    simp only [Expr.whole, wholeIfAny, Bool.and_true] at h
    have hfirst := term_fixed first h
    by_cases hswaps : swaps op
    · simp only [expr, hswaps, if_true]
      exact .throw_bind _ _
    · simp only [expr, hswaps, if_false, Bool.false_eq_true]
      refine hfirst.seq (negated_fixed negated (operation_fixed op)) ?_
      rintro a _ ha ⟨_, rfl, rfl⟩
      refine Piece.extend (ha.weaken fun hc => ?_) (.append (sequel_negation negated) ?_)
      · simp only [Expr.isPure, Bool.and_eq_true] at hc
        exact hc.1.1.1
      · cases op with
        | none => exact .nil
        | some t =>
          have hcalm : (Expr.mk negated first (some t) none).isPure (known o structs) = false := by
            simp [Expr.isPure]
          rw [hcalm]
          exact .of_inline (inline_operation _)
  | .mk negated first op (some e), h => by
    simp only [Expr.whole, wholeIfAny, Bool.and_eq_true] at h
    have hfirst := term_fixed first h.1
    have he := expr_fixed e h.2
    have hparts (hc : (Expr.mk negated first op (some e)).isPure (known o structs)) :
        first.isPure (known o structs) ∧ e.isPure (known o structs) ∧ op.isSome ∧
          op.all fun t => (operator? t.lexeme).isSome := by
      simp only [Expr.isPure, pureIfAny, Bool.and_eq_true, beq_iff_eq, Option.isSome_some] at hc
      exact ⟨hc.1.1.1, hc.1.1.2, hc.1.2, hc.2⟩
    by_cases hswaps : swaps op
    · simp only [expr, hswaps, if_true]
      refine he.seq (operand_fixed hfirst fun hc => ⟨(hparts hc).1, (hparts hc).2.2⟩) ?_
      exact fun b s hb hs => (hb.weaken fun hc => (hparts hc).2.1).extend hs
    · simp only [expr, hswaps, if_false, Bool.false_eq_true]
      refine hfirst.seq (negated_fixed negated (operand_fixed he fun hc => (hparts hc).2)) ?_
      rintro a _ ha ⟨s, hs, rfl⟩
      exact (ha.weaken fun hc => (hparts hc).1).extend ((sequel_negation negated).append hs)

theorem term_fixed : (t : Term) → t.whole →
    Fixed o structs (Piece (t.isPure (known o structs))) (term t)
  | .literal t, h => literal_fixed h .push
  | .create type (some e) args, h => by
    simp only [Term.whole, wholeIfAny, Bool.and_eq_true] at h
    simp only [term]
    refine (expr_fixed e h.1).seq (.emit rfl) (D := (· = [.allocArray])) ?_
    rintro a b ha rfl
    refine .of_inline (by simp) (List.forall_mem_append.2 ⟨ha.inline, ?_⟩)
    simp [Op.inline, Op.jumps]
  | .create type none (some l), h => by
    simp only [Term.whole, wholeIfAny, wholeList, Bool.true_and] at h
    simp only [term]
    refine Fixed.seq (C := (· = [.allocStruct])) (.emit rfl) (initializers_fixed type.lexeme 0 l h)
      ?_
    rintro a b rfl hb
    refine .of_inline (by simp) (List.forall_mem_append.2 ⟨?_, hb⟩)
    simp [Op.inline, Op.jumps]
  | .create type none none, h => by
    simp only [term]
    exact Fixed.seq (C := (· = [.allocStruct])) (D := fun _ => False) (.emit rfl) (.throw _)
      fun _ _ _ h => h.elim
  | .path refs, h => by
    simp only [Term.whole, Bool.and_eq_true, Bool.not_eq_true'] at h
    exact path_fixed refs h.1 h.2
  | .call name none, h => by
    simp only [term]
    exact call_fixed (fun hc => (Bool.and_eq_true_iff.1 hc).1) (fun _ _ _ => .throw _) (.throw _)
      (.throw _)
  | .call name (some []), h => by
    simp only [term]
    exact call_fixed (fun hc => (Bool.and_eq_true_iff.1 hc).1) (fun _ _ _ => .throw _) (.throw _)
      (arguments_fixed [] h)
  | .call name (some [e]), h => by
    simp only [Term.whole, wholeList] at h
    have he := expr_fixed e (Bool.and_eq_true_iff.1 h).1
    have hcalm (hc : (Term.call name (some [e])).isPure (known o structs)) :
        e.isPure (known o structs) := by
      simp only [Term.isPure, pureList, pureExprs, Bool.and_eq_true] at hc
      exact hc.2.1
    simp only [term]
    refine call_fixed (fun hc => (Bool.and_eq_true_iff.1 hc).1) (fun op hop hc => ?_)
      (he.seq (D := fun _ => False) (.throw _) fun _ _ _ h => h.elim) (arguments_fixed [e] h)
    exact he.conversion (fun _ ha => ha.nonempty) fun _ ha =>
      piece_converted hop ha fun hc' => ⟨hcalm hc', hc hc'⟩
  | .call name (some (e :: e' :: l)), h => by
    simp only [Term.whole, wholeList] at h
    have he := expr_fixed e (Bool.and_eq_true_iff.1 h).1
    have he' := expr_fixed e' (Bool.and_eq_true_iff.1 (Bool.and_eq_true_iff.1 h).2).1
    have hcalm (hc : (Term.call name (some (e :: e' :: l))).isPure (known o structs)) :
        e.isPure (known o structs) ∧ e'.isPure (known o structs) := by
      simp only [Term.isPure, pureList, pureExprs, Bool.and_eq_true] at hc
      exact ⟨hc.2.1, hc.2.2.1⟩
    simp only [term]
    refine call_fixed (fun hc => (Bool.and_eq_true_iff.1 hc).1) (fun op hop hc => ?_)
      (he.seq (he'.seq (D := (· = [.charAt])) (.emit rfl) fun b _ hb hop => ?_)
        fun a s ha hs => (ha.weaken fun hc => (hcalm hc).1).extend hs)
      (arguments_fixed (e :: e' :: l) h)
    · exact he.conversion (fun _ ha => ha.nonempty) fun _ ha =>
        piece_converted hop ha fun hc' => ⟨(hcalm hc').1, hc hc'⟩
    · rw [hop]
      exact .two (hb.weaken fun hc => (hcalm hc).2) rfl
  | .group e, h => expr_fixed e h

theorem arguments_fixed : (l : List Expr) → wholeExprs l →
    Fixed o structs (fun a => ∀ op ∈ a, op.inline) (arguments l)
  | [], _ => .pure (by simp)
  | e :: l, h => by
    simp only [wholeExprs, Bool.and_eq_true] at h
    exact (expr_fixed e h.1).seq (arguments_fixed l h.2) fun a b ha hb =>
      List.forall_mem_append.2 ⟨ha.inline, hb⟩

theorem initializers_fixed (struct : String) (i : Nat) : (l : List Expr) → wholeExprs l →
    Fixed o structs (fun a => ∀ op ∈ a, op.inline) (initializers struct i l)
  | [], _ => .pure (by simp)
  | e :: l, h => by
    simp only [wholeExprs, Bool.and_eq_true] at h
    refine .field fun name => ?_
    have hlater := inline_cons (.setField (.text name)) rfl
      (initializers_fixed struct (i + 1) l h.2)
    exact inline_cons .dup rfl ((expr_fixed e h.1).seq hlater fun _ _ ha hb =>
      List.forall_mem_append.2 ⟨ha.inline, hb⟩)

theorem path_fixed : (refs : List Ref) → refs.isEmpty = false → wholeRefs refs →
    Fixed o structs (Piece (purePath (known o structs) refs)) (path refs)
  | [], hne, _ => by cases hne
  | .mk name none :: refs, _, h => by
    simp only [wholeRefs, wholeIfAny, Bool.true_and] at h
    simp only [path, purePath, pureIfAny, Bool.true_and]
    exact .offset (Fixed.seq (.emit (.load _)) (selectors_fixed refs h) fun _ _ ha hb =>
      Piece.extend ha hb)
  | .mk name (some e) :: refs, _, h => by
    simp only [wholeRefs, wholeIfAny, Bool.and_eq_true] at h
    have hrefs := (selectors_fixed refs h.2).mono fun _ hs =>
      hs.weaken (d := purePath (known o structs) (.mk name (some e) :: refs)) fun hc =>
        (Bool.and_eq_true_iff.1 hc).2
    simp only [path]
    exact .offset (Fixed.seq (.emit (.load _))
      (merged_fixed .getItem rfl (expr_fixed e h.1) hrefs fun hc => (Bool.and_eq_true_iff.1 hc).1)
      fun _ _ ha hb => Piece.extend ha hb)

theorem selectors_fixed : (refs : List Ref) → wholeRefs refs →
    Fixed o structs (Sequel (pureFields (known o structs) refs)) (selectors refs)
  | [], _ => .pure .nil
  | .mk name none :: refs, h => by
    simp only [wholeRefs, wholeIfAny, Bool.true_and] at h
    simp only [selectors, pureFields, pureIfAny, Option.isNone_none, Bool.true_or, Bool.true_and]
    exact Fixed.seq (.emit (.one rfl)) (selectors_fixed refs h) fun _ _ ha hb => Sequel.append ha hb
  | .mk name (some e) :: refs, h => by
    simp only [wholeRefs, wholeIfAny, Bool.and_eq_true] at h
    have hrefs := (selectors_fixed refs h.2).mono fun _ hs =>
      hs.weaken (d := pureFields (known o structs) (.mk name (some e) :: refs)) fun hc =>
        (Bool.and_eq_true_iff.1 hc).2
    have hitem := merged_fixed .getItem rfl (expr_fixed e h.1) hrefs fun hc => by
      simp only [pureFields, pureIfAny, Bool.and_eq_true] at hc
      exact hc.1.1
    simp only [selectors]
    refine .offset (.look (y := if o.operand name.lexeme = .absent ∧
        !structs.contains name.lexeme then do
          emit (.getField (.text name.lexeme))
          expr e
          emit .getItem
          selectors refs
        else do
          emit (.load (o.operand name.lexeme))
          expr e
          emit .getItem
          selectors refs) (fun _ _ => rfl) ?_)
    split
    · refine (hitem.cons _).mono ?_
      rintro _ ⟨s, hs, rfl⟩
      have hfield : Sequel (pureFields (known o structs) (.mk name (some e) :: refs))
          [.getField (.text name.lexeme)] := .one rfl
      exact hfield.append hs
    · rename_i hknown
      have hcalm : pureFields (known o structs) (.mk name (some e) :: refs) = false := by
        have : known o structs name.lexeme := by
          simp [known] at hknown ⊢
          grind
        simp [pureFields, this]
      rw [hcalm] at hitem ⊢
      refine (hitem.cons _).mono ?_
      rintro _ ⟨s, hs, rfl⟩
      exact .of_inline (List.forall_mem_cons.2 ⟨rfl, hs.inline⟩)

end

end Walk
end Generator
end StackLang
