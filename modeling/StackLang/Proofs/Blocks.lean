import StackLang.Proofs.Retention

namespace StackLang

open Concrete
open Grammar (Clause)

mutual

/-- The blocks in a tree, from the front. The last block of a choice may be empty because there is
none in the source. -/
def Stmt.blocks : Stmt → List (Position × List Stmt)
  | .loop _ body => (.loop, body) :: stmtBlocks body
  | .count _ _ _ body => (.count, body) :: stmtBlocks body
  | .choice (.mk _ body) others otherwise => (.first, body) ::
    (stmtBlocks body ++ (branchBlocks others ++ (.otherwise, otherwise) :: stmtBlocks otherwise))
  | .ret _ | .decl _ | .assign _ | .call _ _ | .expr _ => []

def stmtBlocks : List Stmt → List (Position × List Stmt)
  | [] => []
  | s :: l => s.blocks ++ stmtBlocks l

def branchBlocks : List Branch → List (Position × List Stmt)
  | [] => []
  | .mk _ body :: l => (.elseif, body) :: (stmtBlocks body ++ branchBlocks l)

end

def FunDef.blocks (d : FunDef) : List (Position × List Stmt) :=
  (.function, d.body) :: stmtBlocks d.body

def Program.blocks (p : Program) : List (Position × List Stmt) := p.functions.flatMap FunDef.blocks

theorem stmtBlocks_append (l m : List Stmt) :
    stmtBlocks (l ++ m) = stmtBlocks l ++ stmtBlocks m := by
  induction l with
  | nil => rfl
  | cons s l ih => rw [List.cons_append, stmtBlocks, stmtBlocks, ih, List.append_assoc]

theorem blocks_echo (s : Stmt) : stmtBlocks (Parser.echo s) = s.blocks := by
  cases s with
  | call => rfl
  | _ => exact List.append_nil _

theorem stmtBlocks_echo (l : List Stmt) : stmtBlocks (l.flatMap Parser.echo) = stmtBlocks l := by
  induction l with
  | nil => rfl
  | cons s l ih => rw [List.flatMap_cons, stmtBlocks_append, blocks_echo, ih, stmtBlocks]

namespace Concrete

def Position.echoes : Position → Bool
  | elseif | otherwise => true
  | function | first | loop | count => false

namespace Block

def tokens (d : Block) : List Token := d.stmts.flatMap Sentence.tokens

/-- What the tree has for the statements of a block. -/
def nodes (d : Block) : List Stmt :=
  if d.position.echoes then d.stmts.flatMap fun s => Parser.echo s.tree
  else d.stmts.map Sentence.tree

theorem nodes_of_echoes {d : Block} (h : d.position.echoes) :
    d.nodes = (d.stmts.map Sentence.tree).flatMap Parser.echo := by
  rw [nodes, if_pos h, List.flatMap_map]

end Block

theorem length_echo (s : Stmt) : (Parser.echo s).length = if s.isCall then 2 else 1 := by
  cases s <;> rfl

theorem length_flatMap_echo (l : List Stmt) :
    (l.flatMap Parser.echo).length = l.length + l.countP Stmt.isCall := by
  induction l with
  | nil => rfl
  | cons s l ih =>
    rw [List.flatMap_cons, List.length_append, ih, length_echo, List.countP_cons, List.length_cons]
    split <;> omega

theorem echo_of_not_call {s : Stmt} (h : s.isCall = false) : Parser.echo s = [s] := by
  cases s <;> first | rfl | cases h

theorem Block.nodes_eq_iff (d : Block) : d.nodes = d.stmts.map Sentence.tree ↔
    (d.position.echoes → ∀ s ∈ d.stmts, Stmt.isCall s.tree = false) := by
  cases hechoes : d.position.echoes with
  | false => simp [nodes, hechoes]
  | true =>
    rw [nodes_of_echoes hechoes]
    constructor
    · intro h _ s hs
      have hlength := congrArg List.length h
      rw [length_flatMap_echo] at hlength
      have hcount : (d.stmts.map Sentence.tree).countP Stmt.isCall = 0 := by omega
      rw [List.countP_eq_zero] at hcount
      simpa using hcount s.tree (List.mem_map_of_mem hs)
    · intro h
      rw [List.flatMap_map, ← List.flatMap_singleton' (d.stmts.map Sentence.tree), List.flatMap_map]
      apply List.flatMap_congr
      exact fun s hs => echo_of_not_call (h rfl s hs)

theorem Sentence.tree_items : (c : Sentence .stmts) → c.tree = c.items.map Sentence.tree
  | .done => rfl
  | .next s l => congrArg (s.tree :: ·) (tree_items l)

theorem Sentence.tokens_items : (c : Sentence .stmts) → c.tokens = c.items.flatMap Sentence.tokens
  | .done => rfl
  | .next s l => congrArg (s.tokens ++ ·) (tokens_items l)

@[simp] def StmtTree.blocks : (clause : Clause) → StmtTree clause → List (Position × List Stmt)
  | .stmt, s => Stmt.blocks s
  | .stmts, l => stmtBlocks l
  | .alternatives, x => branchBlocks x.1 ++ (.otherwise, x.2) :: stmtBlocks x.2

def Block.summary (d : Block) : Position × List Stmt := (d.position, d.nodes)

theorem summary_echoing {position : Position} (h : position.echoes) (c : Sentence .stmts) :
    Block.summary ⟨position, c.items⟩ = (position, List.flatMap Parser.echo c.tree) := by
  rw [Block.summary, Block.nodes_of_echoes h, c.tree_items]

theorem summary_plain {position : Position} (h : position.echoes = false) (c : Sentence .stmts) :
    Block.summary ⟨position, c.items⟩ = (position, c.tree) := by
  rw [Block.summary, Block.nodes, if_neg (by rw [h]; exact Bool.false_ne_true), c.tree_items]

theorem Sentence.blocks_tree {clause : Clause} (c : Sentence clause) :
    StmtTree.blocks clause c.tree = c.blocks.map Block.summary := by
  induction c with
  | decl | named | assign | call | ret | done | neither => rfl
  | loop sign p e b body ih =>
    rw [blocks, List.map_cons, summary_plain rfl, ← ih]
    rfl
  | count sign p init stop e stop' name step b body ih =>
    rw [blocks, List.map_cons, summary_plain rfl, ← ih]
    rfl
  | choice sign p e b body others ih ih' =>
    rw [blocks, List.map_cons, summary_plain rfl, List.map_append, ← ih, ← ih']
    rfl
  | next s l ih ih' =>
    rw [blocks, List.map_append, ← ih, ← ih']
    rfl
  | elseif sign p e b body others ih ih' =>
    rw [blocks, List.map_cons, summary_echoing rfl, List.map_append, ← ih, ← ih']
    simp [tree, branchBlocks, stmtBlocks_echo]
  | otherwise sign b body ih =>
    rw [blocks, List.map_cons, summary_echoing rfl, ← ih]
    simp [tree, branchBlocks, stmtBlocks_echo]

theorem Pair.infix_around {j k : Token.Kind} (p : Pair j k) (l : List Token) : l <:+: p.around l :=
  ⟨[p.left.val], [p.right.val], rfl⟩

section Infix

variable {body : Sentence .stmts} {a : List Token}

theorem infix_of_body (position : Position) (ih : ∀ d ∈ body.blocks, d.tokens <:+: body.tokens)
    (h : body.tokens <:+: a) : ∀ d ∈ ⟨position, body.items⟩ :: body.blocks, d.tokens <:+: a := by
  rw [List.forall_mem_cons]
  constructor
  · rwa [Block.tokens, ← body.tokens_items]
  · exact fun d hd => (ih d hd).trans h

theorem infix_of_branch (position : Position) {others : Sentence .alternatives} {b : Braces}
    (ih : ∀ d ∈ body.blocks, d.tokens <:+: body.tokens)
    (ih' : ∀ d ∈ others.blocks, d.tokens <:+: others.tokens)
    (h : b.around body.tokens ++ others.tokens <:+ a) :
    ∀ d ∈ ⟨position, body.items⟩ :: (body.blocks ++ others.blocks), d.tokens <:+: a := by
  rw [← List.cons_append, List.forall_mem_append]
  constructor
  · apply infix_of_body position ih
    apply (b.infix_around body.tokens).trans
    exact (List.prefix_append _ _).isInfix.trans h.isInfix
  · intro d hd
    exact (ih' d hd).trans ((List.suffix_append _ _).trans h).isInfix

end Infix

theorem Sentence.blocks_infix {clause : Clause} (c : Sentence clause) :
    ∀ d ∈ c.blocks, d.tokens <:+: c.tokens := by
  induction c with
  | decl | named | assign | call | ret | done => exact List.forall_mem_nil _
  | neither => exact List.forall_mem_singleton.2 List.nil_infix
  | loop sign p e b body ih | count sign p _ _ _ _ _ _ b body ih =>
    apply infix_of_body _ ih
    apply (b.infix_around body.tokens).trans
    exact ((List.suffix_append _ _).trans (List.suffix_cons _ _)).isInfix
  | choice sign p e b body others ih ih' | elseif sign p e b body others ih ih' =>
    apply infix_of_branch _ ih ih'
    exact (List.suffix_append _ _).trans (List.suffix_cons _ _)
  | next s l ih ih' =>
    rw [blocks, List.forall_mem_append]
    constructor
    · exact fun d hd => (ih d hd).trans (List.prefix_append _ _).isInfix
    · exact fun d hd => (ih' d hd).trans (List.suffix_append _ _).isInfix
  | otherwise sign b body ih =>
    apply infix_of_body _ ih
    exact (b.infix_around body.tokens).trans (List.suffix_cons _ _).isInfix

namespace Text

theorem blocks_tree (c : Text) : c.tree.blocks = c.blocks.map Block.summary := by
  unfold blocks
  have hfunction (d : Function) : d.tree.blocks = d.blocks.map Block.summary := by
    rw [Function.blocks, List.map_cons, summary_plain rfl, ← d.body.blocks_tree]
    rfl
  induction c with
  | nil => rfl
  | cons d c ih =>
    cases d with
    | inl d => exact ih
    | inr d =>
      change d.tree.blocks ++ _ = (d.blocks ++ _).map Block.summary
      rw [List.map_append, hfunction]
      exact congrArg (d.blocks.map Block.summary ++ ·) ih

theorem blocks_infix (c : Text) : ∀ d ∈ c.blocks, d.tokens <:+: c.tokens := by
  induction c with
  | nil => exact List.forall_mem_nil _
  | cons d c ih =>
    have hlater : ∀ e ∈ blocks c, e.tokens <:+: tokens (d :: c) :=
      fun e he => (ih e he).trans (List.suffix_append _ _).isInfix
    cases d with
    | inl d => exact hlater
    | inr d =>
      have hbody : d.body.tokens <:+: d.tokens := by
        apply (d.b.infix_around d.body.tokens).trans
        apply List.IsSuffix.isInfix
        exact (List.suffix_append _ _).trans ((List.suffix_cons _ _).trans (List.suffix_append _ _))
      change ∀ e ∈ d.blocks ++ blocks c, e.tokens <:+: tokens (.inr d :: c)
      rw [List.forall_mem_append]
      constructor
      · apply infix_of_body .function d.body.blocks_infix
        exact hbody.trans (List.prefix_append _ _).isInfix
      · exact hlater

end Text

end Concrete

namespace Parser

/-- Each block of a program that is parsed has its nodes in the tree, in order. They are those that
the parser makes of the statements of the block, each one once, except that a call in a block behind
an alternative is there twice. The names and literals of a node are among the tokens of its
statement. -/
theorem parse_blocks {source : Source} {p : Program} (h : parse source = .ok p) :
    ∃ c : Text, c.Transcribes source ∧ c.tree = p ∧ p.blocks = c.blocks.map Block.summary ∧
      ∀ d ∈ c.blocks, d.tokens <:+: c.tokens ∧
        (d.nodes = d.stmts.map Sentence.tree ↔
          (d.position.echoes → ∀ s ∈ d.stmts, Stmt.isCall s.tree = false)) ∧
        ∀ s ∈ d.stmts, s.Built ∧ ∀ t ∈ carried (Stmt.tokens s.tree), t ∈ s.tokens := by
  obtain ⟨c, hwrites, rfl, hbuilt⟩ := exists_text h
  refine ⟨c, hwrites, rfl, c.blocks_tree, fun d hd => ?_⟩
  refine ⟨c.blocks_infix d hd, d.nodes_eq_iff, fun s hs => ⟨hbuilt d hd s hs, fun t ht => ?_⟩⟩
  exact s.accounts.mem ht

/-- Calls in all blocks of a choice, and a call in a loop in one of them. -/
def calling : Source := .ofText ("void f() \x7bif (a) \x7bg(1);\x7d elseif (b) \x7bg(2);\x7d " ++
  "else \x7bwhile (c) \x7bg(3);\x7d\x7d\x7d")

theorem parse_blocks_calling :
    ∃ p, parse calling = .ok p ∧
      p.blocks.map (fun d => (d.1, d.2.length)) =
        [(.function, 1), (.first, 1), (.elseif, 2), (.otherwise, 1), (.loop, 1)] ∧
      ∃ c : Text, c.Transcribes calling ∧ c.tree = p ∧ p.blocks = c.blocks.map Block.summary := by
  obtain ⟨p, hp, hlengths⟩ := exists_parsed (r := parse calling)
    (q := fun p => p.blocks.map (fun d => (d.1, d.2.length)) =
      [(.function, 1), (.first, 1), (.elseif, 2), (.otherwise, 1), (.loop, 1)])
    (by decide +kernel)
  obtain ⟨c, hwrites, htree, hblocks, -⟩ := parse_blocks hp
  exact ⟨p, hp, hlengths, c, hwrites, htree, hblocks⟩

/-- A call that stands alone behind an alternative is found in two nodes. -/
theorem parse_doubles :
    ∃ p, parse (.ofText "void main() \x7bif (true) \x7b\x7d else \x7bf();\x7d\x7d") = .ok p ∧
      p.blocks.map (fun d => (d.1, d.2.map Stmt.tokens)) =
        [(.function, [[⟨.boolVal, "true", 1, 18⟩, ⟨.id, "f", 1, 33⟩, ⟨.id, "f", 1, 33⟩]]),
          (.first, []), (.otherwise, [[⟨.id, "f", 1, 33⟩], [⟨.id, "f", 1, 33⟩]])] := by
  exact exists_parsed (by decide +kernel)

end Parser
end StackLang
