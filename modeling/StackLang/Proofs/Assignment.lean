import StackLang.Proofs.Creation
import StackLang.Proofs.Endings
import StackLang.Proofs.Fragments
import StackLang.Proofs.Locations
import StackLang.Proofs.Producing

namespace StackLang

open Generator

namespace Machine

/-- Wherever operations stand in a template, executing them leads from one machine to another. -/
def Proceeds (image : Image) (t : Template) (ops : List Op) (m m' : Machine) : Prop :=
  ∀ k, Holds t k ops → Steps image false (m.seek k) (m'.seek (k + ops.length))

/-- In a call with the given variables, executing operations adds a value to the operands. -/
def Evaluates (image : Image) (f : Frame) (below : List Frame) (vars : List Value) (ops : List Op)
    (m : Machine) (x : Value) (m' : Machine) : Prop :=
  ∀ stack, Proceeds image f.template ops (working m f below vars stack m.output)
    (working m' f below vars (x :: stack) m'.output)

section Proceeds

variable {image : Image} {t : Template} {ts : List Template} {a b ops : List Op}
  {m m₁ m' : Machine}

theorem steps_of_moves {d lo hi n : Nat} (h : Moves image d lo hi n m m') :
    Steps image false m m' := by
  induction h with
  | none m => exact .refl
  | step _ hstep _ ih => exact .head hstep ih

theorem Proceeds.append (h : Proceeds image t a m m₁) (h' : Proceeds image t b m₁ m') :
    Proceeds image t (a ++ b) m m' := by
  intro k hk
  rw [List.length_append, ← Nat.add_assoc]
  exact (h k hk.left).trans (h' _ hk.right)

theorem proceeds_of_perform (hm : m.calls = t :: ts)
    (hs : ∀ op ∈ ops, Local (exec image (.plain op))) (h : perform image ops m = .ok () m') :
    Proceeds image t ops m m' := fun k hk =>
  steps_of_moves (moves_local hm hk hs (Nat.le_refl k) (Nat.le_refl _) h)

theorem proceeds_op {op : Op} (hm : m.calls = t :: ts) (hop : Local (exec image (.plain op)))
    (h : exec image (.plain op) m = .ok () m') : Proceeds image t [op] m m' :=
  proceeds_of_perform hm (by simpa using hop) (by rwa [perform_singleton])

end Proceeds

end Machine

namespace Generator

def fieldCode (fields : List String) : List Op := fields.map fun name => .getField (.text name)

def pathCode (o : Offsets) (name : String) (index : Option (List Op)) (fields : List String) :
    List Op :=
  .load (o.operand name) :: (match index with
    | none => []
    | some a => a ++ [.getItem]) ++ fieldCode fields

def assignCode (o : Offsets) (name : String) (index : Option (List Op)) (fields : List String)
    (value : List Op) : List Op :=
  match index, fields.getLast? with
  | none, none => value ++ [.store (o.operand name)]
  | some a, none => .load (o.operand name) :: (a ++ (value ++ [.setItem]))
  | none, some last => pathCode o name none fields.dropLast ++ (value ++ [.setField (.text last)])
  | some a, some last => pathCode o name (some a) [] ++
      ((fields.dropLast.flatMap fun s => [.load (o.operand s), .getField (.text s)]) ++
        (value ++ [.setField (.text last)]))

section Code

variable {o : Offsets} {structs : Table String StructDef}

theorem Writes.forM {α : Type} {step : α → Gen Unit} {code : α → List Op}
    (h : ∀ a, Writes o structs (step a) (code a)) (l : List α) :
    Writes o structs (l.forM step) (l.flatMap code) := by
  induction l with
  | nil => exact .none
  | cons a l ih => exact (h a).seq ih

theorem inner_writes {step : String → Gen Unit} {code : String → List Op} (r : Ref)
    (refs : List Ref) (h : ∀ s, Writes o structs (step s) (code s)) :
    Writes o structs (inner step (r :: refs))
      ((refs.map (·.name.lexeme)).dropLast.flatMap code) := by
  rw [← List.map_dropLast, List.flatMap_map]
  exact .forM (fun r => h r.name.lexeme) refs.dropLast

theorem selectors_writes (refs : List Ref) :
    Writes o structs (selectors (refs.map fun r => .mk r.name none))
      (fieldCode (refs.map (·.name.lexeme))) := by
  induction refs with
  | nil =>
    rw [List.map_nil, selectors]
    exact .none
  | cons r refs ih =>
    rw [List.map_cons, selectors]
    exact (Writes.emit _).seq ih

theorem path_writes_code {name : Token} {index : Option Expr} {a : List Op}
    (ha : ∀ i, index = some i → Writes o structs (expr i) a) (refs : List Ref) :
    Writes o structs (path (.mk name index :: refs.map fun r => .mk r.name none))
      (pathCode o name.lexeme (index.map fun _ => a) (refs.map (·.name.lexeme))) := by
  cases index with
  | none =>
    rw [path]
    exact .load _ (selectors_writes refs)
  | some i =>
    rw [path]
    have hitem := ((ha i rfl).seq (.emit .getItem)).seq (selectors_writes refs)
    simp only [bind_assoc] at hitem
    exact .load _ hitem

theorem assign_writes_code {name : Token} {index : Option Expr} {e : Expr} {a value : List Op}
    (ha : ∀ i, index = some i → Writes o structs (expr i) a) (he : Writes o structs (expr e) value)
    (refs : List Ref) :
    Writes o structs (assign ⟨.mk name index :: refs, e⟩)
      (assignCode o name.lexeme (index.map fun _ => a) (refs.map (·.name.lexeme)) value) := by
  cases refs with
  | nil =>
    cases index with
    | none =>
      intro image t
      simp only [assign, bind, EStateM.bind, offset_eq]
      exact he.seq (.emit (.store (o.operand name.lexeme))) image t
    | some i => exact .load _ ((ha i rfl).seq (he.seq (.emit .setItem)))
  | cons r refs =>
    obtain ⟨last, hlast⟩ : ∃ last, (r :: refs).getLast? = some last :=
      ⟨_, List.getLast?_eq_some_getLast (List.cons_ne_nil r refs)⟩
    have hname : ((r :: refs).map (·.name.lexeme)).getLast? = some last.name.lexeme := by
      rw [List.getLast?_map, hlast, Option.map_some]
    have hset := he.seq (.emit (.setField (.text last.name.lexeme)))
    cases index with
    | none =>
      simp only [assign, hlast, Option.map_none, assignCode, hname]
      refine .load _ ?_
      rw [fieldCode, List.map_eq_flatMap]
      exact (inner_writes _ _ fun s => .emit (.getField (.text s))).seq hset
    | some i =>
      simp only [assign, hlast, Option.map_some, assignCode, hname]
      have hinner := (inner_writes (.mk name (some i)) (r :: refs) fun s =>
        .load s (.emit (.getField (.text s)))).seq hset
      have hitem := ((ha i rfl).seq (.emit .getItem)).seq hinner
      simp only [bind_assoc] at hitem
      rw [pathCode, fieldCode, List.map_nil, List.append_nil]
      exact .load _ hitem

theorem assignCode_concat {index : Option (List Op)} {fields : List String} (name last : String)
    (value : List Op) (h : index = none ∨ fields = []) :
    assignCode o name index (fields ++ [last]) value =
      pathCode o name index fields ++ (value ++ [.setField (.text last)]) := by
  rcases index with _ | a
  · simp [assignCode]
  · obtain rfl := h.resolve_left (by simp)
    simp [assignCode]

theorem assignCode_indexed {fields : List String} {field : String} (name : String)
    (a value : List Op) (hfields : fields ≠ []) (hfield : o.operand field = .absent) :
    ∃ rest, assignCode o name (some a) (field :: fields) value =
      pathCode o name (some a) [] ++ .load .absent :: rest := by
  obtain ⟨init, last, rfl⟩ := (List.eq_nil_or_concat' fields).resolve_left hfields
  have hlast : (field :: (init ++ [last])).getLast? = some last := by
    rw [← List.cons_append, List.getLast?_concat]
  have hdrop : (field :: (init ++ [last])).dropLast = field :: init := by
    rw [← List.cons_append, List.dropLast_concat]
  simp only [assignCode, hlast, hdrop, List.flatMap_cons, hfield]
  exact ⟨_, rfl⟩

end Code

end Generator

namespace Machine

section Run

variable {image : Image} {f : Frame} {below : List Frame} {vars : List Value} {m m' : Machine}
  {o : Offsets} {name : String} {offset : Nat} {index : Option (List Op)} {i x : Value}
  {fields : List String}

theorem perform_fieldCode {start loc : Location} {v w : Value}
    {stack : List Value} {output : String}
    (hfields : (Memory.mk vars m.heap).along? start fields = some loc)
    (hv : (Memory.mk vars m.heap).get? start = some v)
    (hw : (Memory.mk vars m.heap).get? loc = some w) :
    perform image (fieldCode fields) (working m f below vars (v :: stack) output) =
      .ok () (working m f below vars (w :: stack) output) := by
  induction fields generalizing start v with
  | nil =>
    cases hfields
    cases hv.symm.trans hw
    rfl
  | cons s l ih =>
    obtain ⟨v', next, hv', hnext, hl⟩ := Memory.along?_cons.1 hfields
    cases hv.symm.trans hv'
    obtain ⟨record, hrecord, hget, -⟩ := Memory.record_of_field? hnext
    obtain ⟨u, hu⟩ := Memory.exists_of_along? hl hw
    exact bind_eq_ok.2 ⟨(), _, exec_getField_working hrecord (hget.symm.trans hu), ih hl hu⟩

theorem fieldCode_straight (fields : List String) :
    ∀ op ∈ fieldCode fields, Local (exec image (.plain op)) := by
  intro op hop
  obtain ⟨s, -, rfl⟩ := List.mem_map.1 hop
  exact .exec image rfl

theorem push_evaluates (v : Value) : Evaluates image f below vars [.push v] m v m := fun _ =>
  proceeds_op rfl (.exec image rfl) rfl

theorem load_evaluates {v : Value} (hname : o.operand name = .int offset)
    (hv : vars[offset]? = some v) :
    Evaluates image f below vars [.load (o.operand name)] m v m := by
  intro stack
  rw [hname]
  exact proceeds_op rfl (.exec image rfl) (exec_load_working hv)

theorem start_evaluates {start : Location} {v : Value} (hname : o.operand name = .int offset)
    (hindex : ∀ a, index = some a → Evaluates image f below vars a m i m)
    (hstart : (Route.mk offset (index.map fun _ => i) fields).start? ⟨vars, m.heap⟩ = some start)
    (hv : (Memory.mk vars m.heap).get? start = some v) :
    Evaluates image f below vars (pathCode o name index []) m v m := by
  intro stack
  cases index with
  | none =>
    simp only [Route.start?, Option.map_none] at hstart
    split at hstart
    · cases hstart
      exact load_evaluates hname hv stack
    · cases hstart
  | some a =>
    obtain ⟨owner, howner, hitem⟩ := Option.bind_eq_some_iff.1 hstart
    obtain ⟨items, j, hitems, hj, -, hget, -⟩ := Memory.array_of_item? hitem
    have hvalue : items[j]? = some v := hget.symm.trans hv
    rw [pathCode, fieldCode, List.map_nil, List.append_nil]
    exact (load_evaluates hname howner stack).append ((hindex a rfl _).append
      (proceeds_op rfl (.exec image rfl) (exec_getItem_working hitems hj hvalue)))

theorem pathCode_evaluates {loc : Location} {w : Value} (hname : o.operand name = .int offset)
    (hindex : ∀ a, index = some a → Evaluates image f below vars a m i m)
    (hloc : (Route.mk offset (index.map fun _ => i) fields).location? ⟨vars, m.heap⟩ = some loc)
    (hw : (Memory.mk vars m.heap).get? loc = some w) :
    Evaluates image f below vars (pathCode o name index fields) m w m := by
  intro stack
  obtain ⟨start, hstart, halong⟩ := Option.bind_eq_some_iff.1 hloc
  obtain ⟨v, hv⟩ := Memory.exists_of_along? halong hw
  have hcode : pathCode o name index fields = pathCode o name index [] ++ fieldCode fields := by
    simp [pathCode, fieldCode]
  rw [hcode]
  exact (start_evaluates hname hindex hstart hv stack).append
    (proceeds_of_perform rfl (fieldCode_straight fields) (perform_fieldCode halong hv hw))

theorem assignCode_sets {loc : Location} {value : List Op} (hname : o.operand name = .int offset)
    (hindex : ∀ a, index = some a → Evaluates image f below vars a m i m)
    (hvalue : Evaluates image f below vars value m x m') (hheap : m'.heap = m.heap)
    (hlimit : (vars.length : Int) ≤ Value.sizeLimit) (hshape : index = none ∨ fields.length ≤ 1)
    (hloc : (Route.mk offset (index.map fun _ => i) fields).location? ⟨vars, m.heap⟩ = some loc)
    (hx : fields = [] ∨ x ≠ .absent) (stack : List Value) :
    Proceeds image f.template (assignCode o name index fields value)
      (working m f below vars stack m.output)
      (working { m' with heap := ((Memory.mk vars m.heap).set x loc).heap } f below
        ((Memory.mk vars m.heap).set x loc).vars stack m'.output) := by
  rw [← hheap] at hloc ⊢
  -- Without fields, the variable or its item is set; else the last field of where the others lead.
  rcases List.eq_nil_or_concat' fields with rfl | ⟨init, last, rfl⟩
  · obtain ⟨start, hstart, halong⟩ := Option.bind_eq_some_iff.1 hloc
    cases halong
    cases index with
    | none =>
      simp only [Route.start?, Option.map_none] at hstart
      split at hstart
      · rename_i hlt
        cases hstart
        refine (hvalue stack).append (proceeds_op rfl (.exec image rfl) ?_)
        have hoffset : (offset : Int) < Value.sizeLimit := by omega
        rw [hname]
        exact exec_store (f := { f with locals := vars, stack := x :: stack }) rfl rfl hoffset
      · cases hstart
    | some a =>
      obtain ⟨owner, howner, hitem⟩ := Option.bind_eq_some_iff.1 hstart
      obtain ⟨items, j, hitems, hj, hlt, -, hset⟩ := Memory.array_of_item? hitem
      rw [hset x]
      exact (load_evaluates hname howner stack).append ((hindex a rfl _).append ((hvalue _).append
        (proceeds_op rfl (.of_blind rfl fun _ => .setItem fun _ => rfl)
          (exec_setItem_working hitems hj hlt))))
  · obtain ⟨start, hstart, halong⟩ := Option.bind_eq_some_iff.1 hloc
    obtain ⟨mid, owner, hmid, howner, hfield⟩ := Memory.along?_concat.1 halong
    obtain ⟨record, hrecord, -, hset⟩ := Memory.record_of_field? hfield
    have hinit : index = none ∨ init = [] := by
      refine hshape.imp_right fun hlength => List.eq_nil_of_length_eq_zero ?_
      rw [List.length_append, List.length_singleton] at hlength
      omega
    have hpresent : x ≠ .absent := hx.resolve_left (by simp)
    have hroute : (Route.mk offset (index.map fun _ => i) init).location? ⟨vars, m.heap⟩ =
        some mid := by
      rw [← hheap]
      exact Option.bind_eq_some_iff.2 ⟨start, hstart, hmid⟩
    have howner' : (Memory.mk vars m.heap).get? mid = some owner := by rw [← hheap, howner]
    rw [assignCode_concat name last value hinit, hset x]
    exact (pathCode_evaluates hname hindex hroute howner' stack).append ((hvalue _).append
      (proceeds_op rfl (.exec_steady image rfl) (exec_setField_working hpresent hrecord)))

theorem assignCode_crashes {start : Location} {v : Value} {a value : List Op}
    {field : String} (hname : o.operand name = .int offset)
    (hindex : Evaluates image f below vars a m i m)
    (hstart : (Route.mk offset (some i) []).start? ⟨vars, m.heap⟩ = some start)
    (hv : (Memory.mk vars m.heap).get? start = some v) (hfield : o.operand field = .absent)
    (hfields : fields ≠ []) (stack : List Value) {k : Nat}
    (hk : Holds f.template k (assignCode o name (some a) (field :: fields) value)) :
    ∃ m₁ m₂, Steps image false ((working m f below vars stack m.output).seek k) m₁ ∧
      step image false m₁ = .error (.crash .wrongKind) m₂ ∧ m₂.heap = m.heap := by
  obtain ⟨rest, hrest⟩ := assignCode_indexed (o := o) name a value hfields hfield
  rw [hrest] at hk
  have hpath : Evaluates image f below vars (pathCode o name (some a) []) m v m := by
    refine start_evaluates hname (fun b hb => ?_) hstart hv
    cases hb
    exact hindex
  exact ⟨_, _, hpath stack k hk.left, (step_seek rfl hk.right.head).trans rfl, rfl⟩

end Run

end Machine

open Machine

/-- Where no field has the name of a variable, an assignment sets the location that the variable,
its index and the names of the fields lead to, and nothing else in the heap. Then the path without
the indexes of its fields is read as what it leads to, which is the assigned value unless that
changed the index or the way. But with an index and two or more fields nothing is assigned. -/
theorem assign_sets {o : Offsets} {structs : Table String StructDef} {name : Token}
    {index : Option Expr} {refs : List Ref} {e : Expr} {a value : List Op} {offset : Nat}
    (hname : o.offset? name.lexeme = some offset)
    (ha : ∀ i, index = some i → Writes o structs (expr i) a)
    (he : Writes o structs (expr e) value)
    (hrefs : ∀ r ∈ refs, o.offset? r.name.lexeme = none) :
    ∃ ops reading, Writes o structs (assign ⟨.mk name index :: refs, e⟩) ops ∧
      Writes o structs (path (.mk name index :: refs.map fun r => .mk r.name none)) reading ∧
      ∀ (image : Image) (f : Frame) (below : List Frame) (m m' : Machine) (i x : Value)
        (loc : Location),
        let μ : Memory := ⟨f.locals, m.heap⟩
        let route (i : Value) : Route :=
          ⟨offset, index.map fun _ => i, refs.map (·.name.lexeme)⟩
        (index.isSome → Evaluates image f below f.locals a m i m) →
        (route i).location? μ = some loc →
        (index = none ∨ refs.length ≤ 1 →
          Evaluates image f below f.locals value m x m' → m'.heap = m.heap →
          (f.locals.length : Int) ≤ Value.sizeLimit → refs = [] ∨ x ≠ .absent →
          let μ' := μ.set x loc
          let m₁ : Machine := { m' with heap := μ'.heap }
          (∀ stack, Proceeds image f.template ops (working m f below f.locals stack m.output)
            (working m₁ f below μ'.vars stack m₁.output)) ∧
          μ'.get? loc = some x ∧
          (∀ loc', loc'.inHeap → loc' ≠ loc → μ'.get? loc' = μ.get? loc') ∧
          (∀ i', (index.isSome → Evaluates image f below μ'.vars a m₁ i' m₁) →
            (∀ loc' w, (route i').location? μ' = some loc' → μ'.get? loc' = some w →
              Evaluates image f below μ'.vars reading m₁ w m₁) ∧
            (i' = i → loc ∉ (route i).passed μ →
              Evaluates image f below μ'.vars reading m₁ x m₁))) ∧
        (index.isSome → 2 ≤ refs.length → ∀ stack k, Holds f.template k ops →
          ∃ m₁ m₂, Steps image false ((working m f below f.locals stack m.output).seek k) m₁ ∧
            step image false m₁ = .error (.crash .wrongKind) m₂ ∧ m₂.heap = m.heap) := by
  have hoperand : o.operand name.lexeme = .int offset := by rw [Offsets.operand, hname]
  have hcode {image : Image} {f : Frame} {below : List Frame} {vars : List Value} {m : Machine}
      {i : Value} (h : index.isSome → Evaluates image f below vars a m i m) :
      ∀ b, (index.map fun _ => a) = some b → Evaluates image f below vars b m i m := by
    intro b hb
    obtain ⟨j, hj, rfl⟩ := Option.map_eq_some_iff.1 hb
    exact h (by rw [hj]; rfl)
  have hmap (i : Value) : ((index.map fun _ => a).map fun _ => i) = index.map fun _ => i :=
    Option.map_map _ _ _
  refine ⟨_, _, assign_writes_code ha he refs, path_writes_code ha refs, ?_⟩
  intro image f below m m' i x loc μ route hi hloc
  constructor
  · intro hshape hx hheap hlimit hpresent μ' m₁
    have hhas : μ.Has loc := (Route.has_of_location? hloc).1
    refine ⟨fun stack => ?_, Memory.get?_set hhas, fun loc' hloc' hne => ?_, fun i' hi' => ?_⟩
    · refine assignCode_sets hoperand (hcode hi) hx hheap hlimit ?_ (by rwa [hmap]) ?_ stack
      · rwa [Option.map_eq_none_iff, List.length_map]
      · rwa [List.map_eq_nil_iff]
    · exact Memory.get?_set_of_ne hhas hne (.inl hloc')
    · have hread (loc' : Location) (w : Value) (hloc' : (route i').location? μ' = some loc')
          (hw : μ'.get? loc' = some w) : Evaluates image f below μ'.vars
            (pathCode o name.lexeme (index.map fun _ => a) (refs.map (·.name.lexeme))) m₁ w m₁ :=
        pathCode_evaluates hoperand (hcode hi') (by rwa [hmap]) hw
      refine ⟨hread, ?_⟩
      rintro rfl hpassed
      exact hread loc x (Route.location?_set hloc hpassed) (Memory.get?_set hhas)
  · intro hsome hlength stack k hk
    obtain ⟨j, rfl⟩ := Option.isSome_iff_exists.1 hsome
    obtain _ | ⟨r, _ | ⟨r', refs⟩⟩ := refs
    · cases hlength
    · exact absurd hlength (Nat.not_succ_le_self 1)
    obtain ⟨start, hstart, halong⟩ := Option.bind_eq_some_iff.1 hloc
    obtain ⟨v, -, hv, -⟩ := Memory.along?_cons.1 halong
    have habsent : o.operand r.name.lexeme = .absent := by
      rw [Offsets.operand, hrefs r List.mem_cons_self]
    exact assignCode_crashes hoperand (hi rfl) hstart hv habsent (List.cons_ne_nil _ _) stack hk

namespace Reaching

def scope : Offsets := ⟨[["a", "p"]]⟩

def fields : List Ref := [.mk (word .id "f") none, .mk (word .id "g") none]

def call (t : Template) : Frame := ⟨t, .int 0, [.int 2024, .int 2025], []⟩

def machine (x : Value) : Machine :=
  ⟨⟨#[.array #[.int 2025], .record (.ofNames ["f"] [.int 2026]), .record (.ofNames ["g"] [x])]⟩,
    [], [], ""⟩

end Reaching

open Reaching in
/-- The field is assigned as `p.f.g`, and cannot be assigned as `a[0].f.g`. -/
theorem assign_sets_nested :
    (∃ ops reading,
      Writes scope ⟨[]⟩ (assign ⟨.mk (word .id "p") none :: fields, number "7"⟩) ops ∧
      Writes scope ⟨[]⟩ (path (.mk (word .id "p") none :: fields)) reading ∧
      ∀ image t, (∀ stack, Proceeds image t ops
          (working (machine (.int 3)) (call t) [] (call t).locals stack "")
          (working (machine (.int 7)) (call t) [] (call t).locals stack "")) ∧
        Evaluates image (call t) [] (call t).locals reading (machine (.int 7)) (.int 7)
          (machine (.int 7))) ∧
    ∃ ops, Writes scope ⟨[]⟩
        (assign ⟨.mk (word .id "a") (some (number "0")) :: fields, number "7"⟩) ops ∧
      ∀ image t stack k, Holds t k ops → ∃ m₁ m₂, Steps image false
          ((working (machine (.int 3)) (call t) [] (call t).locals stack "").seek k) m₁ ∧
        step image false m₁ = .error (.crash .wrongKind) m₂ ∧
          m₂.heap = (machine (.int 3)).heap := by
  have hnumber {s : String} {v : Value} (hv : (Token.mk .intVal s 0 0).constant? = some v) :
      Writes scope ⟨[]⟩ (expr (number s)) [.push v] :=
    operand_writes (by decide) (literal_writes rfl hv)
  have hfields : ∀ r ∈ fields, scope.offset? r.name.lexeme = none := by
    simp only [fields, List.mem_cons, List.not_mem_nil, or_false]
    rintro r (rfl | rfl) <;> rfl
  have hseven : Writes scope ⟨[]⟩ (expr (number "7")) [.push (.int 7)] := hnumber rfl
  have hzero : Writes scope ⟨[]⟩ (expr (number "0")) [.push (.int 0)] := hnumber rfl
  have hp : scope.offset? (word .id "p").lexeme = some 1 := rfl
  have ha : scope.offset? (word .id "a").lexeme = some 0 := rfl
  have hnone : ∀ i, none = some i → Writes scope ⟨[]⟩ (expr i) [] := by
    intro i hi
    cases hi
  have hsome : ∀ i, some (number "0") = some i → Writes scope ⟨[]⟩ (expr i) [.push (.int 0)] := by
    intro i hi
    cases hi
    exact hzero
  constructor
  · obtain ⟨ops, reading, hops, hreading, hruns⟩ := assign_sets hp hnone hseven hfields
    refine ⟨ops, reading, hops, hreading, fun image t => ?_⟩
    obtain ⟨hsets, -⟩ := hruns image (call t) [] (machine (.int 3)) (machine (.int 3)) .absent
      (.int 7) (.field 2 (.ofText "g")) (fun h => by cases h) rfl
    have hlimit : ((2 : Nat) : Int) ≤ Value.sizeLimit := by decide
    have hpassed : Location.field 2 (.ofText "g") ∉ (Route.mk 1 none ["f", "g"]).passed
        ⟨[.int 2024, .int 2025], (machine (.int 3)).heap⟩ := by decide
    obtain ⟨hrun, -, -, hread⟩ := hsets (.inl rfl) (push_evaluates _) rfl hlimit
      (.inr (by decide))
    exact ⟨hrun, (hread .absent fun h => by cases h).2 rfl hpassed⟩
  · obtain ⟨ops, reading, hops, -, hruns⟩ := assign_sets ha hsome hseven hfields
    refine ⟨ops, hops, fun image t stack k hk => ?_⟩
    obtain ⟨-, hcrash⟩ := hruns image (call t) [] (machine (.int 3)) (machine (.int 3)) (.int 0)
      (.int 7) (.field 2 (.ofText "g")) (fun _ => push_evaluates _) rfl
    exact hcrash rfl (Nat.le_refl 2) stack k hk

/-- The index behind the field is ignored: the field itself becomes `5`, so that it is no array any
more when its item is read. -/
theorem execute_indexed_field :
    let source := "struct T \x7barray int a;\x7d " ++
      "void main() \x7bT p = new T(new int[2]); p.a[0] = 5; print(p.a[0]);\x7d"
    (Compiler.execute true false (.ofText source) []).1.output = "" ∧
      (Compiler.execute true false (.ofText source) []).2 = some (.crash .unknownKey) ∧
      ((Compiler.execute true false (.ofText source) []).1.heap.record? (.int 2024)).bind
        (·.get? (.ofText "a")) = some (.int 5) := by
  decide +kernel

end StackLang
