import StackLang.Proofs.Grammar
import StackLang.Parser

namespace StackLang.Concrete

open Token
open Grammar (Clause)

abbrev Sign (k : Kind) := { t : Token // t.kind = k }

abbrev Operator := { t : Token // t.kind.isOperator }

abbrev Literal := { t : Token // t.kind.isLiteral }

abbrev TypeName := { t : Token // t.kind.namesType }

/-- A sign that opens something and the one that closes it. -/
structure Pair (j k : Kind) where
  left : Sign j
  right : Sign k

abbrev Parens := Pair .lparen .rparen

abbrev Brackets := Pair .lbracket .rbracket

abbrev Braces := Pair .lbrace .rbrace

def Pair.around {j k : Kind} (p : Pair j k) (l : List Token) : List Token :=
  p.left :: (l ++ [p.right.val])

inductive Phrase : Grammar.Part → Type
  | operand (v : Phrase .value) : Phrase .expr
  | operation (v : Phrase .value) (op : Operator) (r : Phrase .expr) : Phrase .expr
  | negation (sign : Sign .notOp) (e : Phrase .expr) : Phrase .expr
  | literal (t : Literal) : Phrase .value
  | group (p : Parens) (e : Phrase .expr) : Phrase .value
  | creation (sign : Sign .newKw) (type : TypeName) (c : Phrase .content) : Phrase .value
  | untyped (sign : Sign .newKw) (seen : Token) (h : seen.kind.namesType = false)
      (c : Phrase .content) : Phrase .value
  | path (name : Sign .id) (i : Phrase .index) (l : Phrase .selectors) : Phrase .value
  | record (p : Parens) (l : Phrase .arguments) : Phrase .content
  | array (b : Brackets) (e : Phrase .expr) : Phrase .content
  | noContent : Phrase .content
  | noArguments : Phrase .arguments
  | arguments (e : Phrase .expr) (l : Phrase .others) : Phrase .arguments
  | noOthers : Phrase .others
  | others (sign : Sign .comma) (e : Phrase .expr) (l : Phrase .others) : Phrase .others
  | noIndex : Phrase .index
  | index (b : Brackets) (e : Phrase .expr) : Phrase .index
  | noSelectors : Phrase .selectors
  | selectors (sign : Sign .dot) (name : Sign .id) (i : Phrase .index) (l : Phrase .selectors) :
      Phrase .selectors

abbrev Tree : Grammar.Part → Type
  | .expr => Expr
  | .value => Term
  | .content => Option Expr × Option (List Expr)
  | .arguments | .others => List Expr
  | .index => Option Expr
  | .selectors => List Ref

namespace Phrase

def tokens : {part : Grammar.Part} → Phrase part → List Token
  | _, operand v => v.tokens
  | _, operation v op r => v.tokens ++ op.val :: r.tokens
  | _, negation sign e => sign :: e.tokens
  | _, literal t => [t]
  | _, group p e => p.around e.tokens
  | _, creation sign type c => sign :: type :: c.tokens
  | _, untyped sign _ _ c => sign :: c.tokens
  | _, path name i l => name :: (i.tokens ++ l.tokens)
  | _, record p l => p.around l.tokens
  | _, array b e => b.around e.tokens
  | _, noContent | _, noArguments | _, noOthers | _, noIndex | _, noSelectors => []
  | _, arguments e l => e.tokens ++ l.tokens
  | _, others sign e l => sign :: (e.tokens ++ l.tokens)
  | _, index b e => b.around e.tokens
  | _, selectors sign name i l => sign :: name :: (i.tokens ++ l.tokens)

def tree : {part : Grammar.Part} → Phrase part → Tree part
  | _, operand v => Expr.operand v.tree
  | _, operation v op r => Expr.mk (some false) v.tree (some op) (some r.tree)
  | _, negation _ e => Expr.negate e.tree
  | _, literal t => Term.literal t
  | _, group _ e => Term.group e.tree
  | _, creation _ type c => Term.create type c.tree.1 c.tree.2
  | _, untyped _ seen _ c => Term.create seen c.tree.1 c.tree.2
  | _, path name i l => Term.path (.mk name i.tree :: l.tree)
  | _, record _ l => (none, some l.tree)
  | _, array _ e => (some e.tree, none)
  | _, noContent => (none, some [])
  | _, noArguments => []
  | _, arguments e l => e.tree :: l.tree
  | _, noOthers => []
  | _, others _ e l => e.tree :: l.tree
  | _, noIndex => none
  | _, index _ e => some e.tree
  | _, noSelectors => []
  | _, selectors _ name i l => .mk name i.tree :: l.tree

def head? : {part : Grammar.Part} → Phrase part →
    Option (Sign .id × Phrase .index × Phrase .selectors)
  | _, operand v => v.head?
  | _, operation v _ _ => v.head?
  | _, negation _ e => e.head?
  | _, path name i l => some (name, i, l)
  | _, _ => none

def rest? : {part : Grammar.Part} → Phrase part → Option (Phrase .expr)
  | _, operation _ _ r => some r
  | _, negation _ e => e.rest?
  | _, _ => none

end Phrase

/-- An expression that starts with a path, whose name can be called. -/
structure Callable where
  whole : Phrase .expr
  name : Sign .id
  index : Phrase .index
  selectors : Phrase .selectors
  starts : whole.head? = some (name, index, selectors)

/-- What is given to a callee. An argument that is itself a call stands alone. -/
inductive Given where
  | list (p : Parens) (l : Phrase .arguments)
  | call (p : Parens) (e : Callable) (inner : Given)

namespace Given

def tokens : Given → List Token
  | list p l => p.around l.tokens
  | call p e inner => p.around (e.whole.tokens ++ inner.tokens)

def tree : Given → List Expr
  | list _ l => l.tree
  | call _ e inner => [Expr.withFirst e.whole.tree (.call e.name (some inner.tree))]

end Given

/-- A further call behind a returned one. Its name may be any token. -/
structure Further where
  op : Operator
  name : Token
  given : Option Given

namespace Further

def tokens (f : Further) : List Token := f.op :: f.name :: (f.given.elim [] Given.tokens)

def tree (f : Further) : Expr := .operand (.call f.name (f.given.map Given.tree))

def trees (e : Expr) : List Further → Expr
  | [] => e
  | f :: l => trees (.mk e.negated e.first (some f.op) (some f.tree)) l

end Further

/-- An expression behind which arguments may follow. -/
inductive Late where
  | plain (e : Phrase .expr)
  | call (e : Callable) (g : Given)
  | calls (e : Callable) (alone : e.whole.rest? = none) (g : Given) (more : List Further)
  | last (e : Phrase .expr) (r : Callable) (h : e.rest? = some r.whole) (g : Given)

namespace Late

def tokens : Late → List Token
  | plain e => e.tokens
  | call e g => e.whole.tokens ++ g.tokens
  | calls e _ g more => e.whole.tokens ++ (g.tokens ++ more.flatMap Further.tokens)
  | last e _ _ g => e.tokens ++ g.tokens

def tree : Late → Expr
  | plain e => e.tree
  | call e g => Expr.withFirst e.whole.tree (.call e.name (some g.tree))
  | calls e _ g more =>
    Further.trees (Expr.withFirst e.whole.tree (.call e.name (some g.tree))) more
  | last e r _ g => Expr.withRest e.tree (.operand (.call r.name (some g.tree)))

end Late

inductive Typed where
  | plain (t : TypeName)
  | array (sign : Sign .arrayKw) (t : TypeName)

namespace Typed

def tokens : Typed → List Token
  | plain t => [t.val]
  | array sign t => [sign.val, t.val]

def tree : Typed → DataType
  | plain t => ⟨false, some t⟩
  | array _ t => ⟨true, some t⟩

end Typed

/-- What a declaration names: a variable with its type, one without, or nothing. -/
inductive Var where
  | typed (type : Typed) (name : Sign .id)
  | untyped (name : Sign .id)
  | nothing

namespace Var

def tokens : Var → List Token
  | typed type name => type.tokens ++ [name.val]
  | untyped name => [name.val]
  | nothing => []

def tree (named : Option Token) : Var → VarDef
  | typed type name => ⟨some type.tree, some name⟩
  | untyped name => ⟨some ⟨false, named⟩, some name⟩
  | nothing => ⟨none, none⟩

end Var

structure Declaration where
  var : Var
  init : Option (Sign .assign × Late)

namespace Declaration

def tokens (d : Declaration) : List Token :=
  d.var.tokens ++ d.init.elim [] fun i => i.1.val :: i.2.tokens

def tree (named : Option Token) (d : Declaration) : VarDecl :=
  ⟨d.var.tree named, d.init.map (·.2.tree)⟩

end Declaration

/-- What stands behind the name that is assigned to. -/
structure Setting where
  index : Phrase .index
  selectors : Phrase .selectors
  sign : Sign .assign
  value : Phrase .expr

namespace Setting

def tokens (s : Setting) : List Token :=
  s.index.tokens ++ (s.selectors.tokens ++ s.sign.val :: s.value.tokens)

def tree (name : Token) (s : Setting) : Assign :=
  ⟨.mk name s.index.tree :: s.selectors.tree, s.value.tree⟩

end Setting

inductive Sentence : Clause → Type
  | decl (d : Declaration) (stop : Sign .semicolon) : Sentence .stmt
  | named (name : Sign .id) (d : Declaration) (stop : Sign .semicolon) : Sentence .stmt
  | assign (name : Sign .id) (s : Setting) (stop : Sign .semicolon) : Sentence .stmt
  | call (name : Sign .id) (g : Given) (stop : Sign .semicolon) : Sentence .stmt
  | ret (sign : Sign .returnKw) (e : Late) (stop : Sign .semicolon) : Sentence .stmt
  | loop (sign : Sign .whileKw) (p : Parens) (e : Phrase .expr) (b : Braces)
      (body : Sentence .stmts) : Sentence .stmt
  | count (sign : Sign .forKw) (p : Parens) (init : Declaration) (stop : Sign .semicolon) (e : Late)
      (stop' : Sign .semicolon) (name : Token) (step : Setting) (b : Braces)
      (body : Sentence .stmts) : Sentence .stmt
  | choice (sign : Sign .ifKw) (p : Parens) (e : Phrase .expr) (b : Braces) (body : Sentence .stmts)
      (others : Sentence .alternatives) : Sentence .stmt
  | done : Sentence .stmts
  | next (s : Sentence .stmt) (l : Sentence .stmts) : Sentence .stmts
  | neither : Sentence .alternatives
  | elseif (sign : Sign .elseifKw) (p : Parens) (e : Phrase .expr) (b : Braces)
      (body : Sentence .stmts) (others : Sentence .alternatives) : Sentence .alternatives
  | otherwise (sign : Sign .elseKw) (b : Braces) (body : Sentence .stmts) : Sentence .alternatives

abbrev StmtTree : Clause → Type
  | .stmt => Stmt
  | .stmts => List Stmt
  | .alternatives => List Branch × List Stmt

namespace Sentence

def tokens : {clause : Clause} → Sentence clause → List Token
  | _, decl d stop => d.tokens ++ [stop.val]
  | _, named name d stop => name :: (d.tokens ++ [stop.val])
  | _, assign name s stop => name :: (s.tokens ++ [stop.val])
  | _, call name g stop => name :: (g.tokens ++ [stop.val])
  | _, ret sign e stop => sign :: (e.tokens ++ [stop.val])
  | _, loop sign p e b body => sign :: (p.around e.tokens ++ b.around body.tokens)
  | _, count sign p init stop e stop' name step b body =>
    sign :: (p.around (init.tokens ++ stop.val :: (e.tokens ++ stop'.val :: name :: step.tokens)) ++
      b.around body.tokens)
  | _, choice sign p e b body others =>
    sign :: (p.around e.tokens ++ (b.around body.tokens ++ others.tokens))
  | _, done | _, neither => []
  | _, next s l => s.tokens ++ l.tokens
  | _, elseif sign p e b body others =>
    sign :: (p.around e.tokens ++ (b.around body.tokens ++ others.tokens))
  | _, otherwise sign b body => sign :: b.around body.tokens

def tree : {clause : Clause} → Sentence clause → StmtTree clause
  | _, decl d _ => Stmt.decl (d.tree none)
  | _, named name d _ => Stmt.decl (d.tree (some name))
  | _, assign name s _ => Stmt.assign (s.tree name)
  | _, call name g _ => Stmt.call name (some g.tree)
  | _, ret _ e _ => Stmt.ret e.tree
  | _, loop _ _ e _ body => Stmt.loop e.tree body.tree
  | _, count _ _ init _ e _ name step _ body =>
    Stmt.count (init.tree none) e.tree (step.tree name) body.tree
  | _, choice _ _ e _ body others =>
    Stmt.choice (.mk e.tree body.tree) others.tree.1 others.tree.2
  | _, done => []
  | _, next s l => s.tree :: l.tree
  | _, neither => ([], [])
  | _, elseif _ _ e _ body others =>
    (.mk e.tree (List.flatMap Parser.echo body.tree) :: others.tree.1, others.tree.2)
  | _, otherwise _ _ body => ([], List.flatMap Parser.echo body.tree)

def items : {clause : Clause} → Sentence clause → List (Sentence .stmt)
  | _, next s l => s :: l.items
  | _, _ => []

end Sentence

/-- What a block belongs to. -/
inductive Position where
  | function | first | elseif | otherwise | loop | count
  deriving Repr, DecidableEq

structure Block where
  position : Position
  stmts : List (Sentence .stmt)

/-- All blocks in a phrase, from the front. Where an alternative without a condition is missing,
there is an empty block in its place. -/
def Sentence.blocks : {clause : Clause} → Sentence clause → List Block
  | _, decl _ _ | _, named _ _ _ | _, assign _ _ _ | _, call _ _ _ | _, ret _ _ _ | _, done => []
  | _, loop _ _ _ _ body => ⟨.loop, body.items⟩ :: body.blocks
  | _, count _ _ _ _ _ _ _ _ _ body => ⟨.count, body.items⟩ :: body.blocks
  | _, choice _ _ _ _ body others => ⟨.first, body.items⟩ :: (body.blocks ++ others.blocks)
  | _, next s l => s.blocks ++ l.blocks
  | _, neither => [⟨.otherwise, []⟩]
  | _, elseif _ _ _ _ body others => ⟨.elseif, body.items⟩ :: (body.blocks ++ others.blocks)
  | _, otherwise _ _ body => ⟨.otherwise, body.items⟩ :: body.blocks

structure Parameter where
  type : Typed
  name : Sign .id

namespace Parameter

def tokens (p : Parameter) : List Token := p.type.tokens ++ [p.name.val]

def tree (p : Parameter) : VarDef := ⟨some p.type.tree, some p.name⟩

end Parameter

/-- The type of a function's result. -/
inductive Result where
  | value (type : Typed)
  | nothing (sign : Sign .voidType)

namespace Result

def tokens : Result → List Token
  | value type => type.tokens
  | nothing sign => [sign.val]

def tree : Result → DataType
  | value type => type.tree
  | nothing sign => ⟨false, some sign⟩

end Result

structure Struct where
  sign : Sign .structKw
  name : Sign .id
  b : Braces
  fields : List (Parameter × Sign .semicolon)

structure Function where
  result : Result
  name : Sign .id
  p : Parens
  params : Option (Parameter × List (Sign .comma × Parameter))
  b : Braces
  body : Sentence .stmts

namespace Struct

def tokens (d : Struct) : List Token :=
  d.sign :: d.name :: d.b.around (d.fields.flatMap fun f => f.1.tokens ++ [f.2.val])

def tree (d : Struct) : StructDef := ⟨d.name, d.fields.map (·.1.tree)⟩

end Struct

namespace Function

def parameters (d : Function) : List Parameter :=
  d.params.elim [] fun l => l.1 :: l.2.map Prod.snd

def tokens (d : Function) : List Token :=
  d.result.tokens ++ d.name.val :: (d.p.around (d.params.elim [] fun l =>
    l.1.tokens ++ l.2.flatMap fun m => m.1.val :: m.2.tokens) ++ d.b.around d.body.tokens)

def tree (d : Function) : FunDef :=
  ⟨d.result.tree, d.name, d.parameters.map Parameter.tree, d.body.tree⟩

def blocks (d : Function) : List Block := ⟨.function, d.body.items⟩ :: d.body.blocks

end Function

abbrev Definition := Struct ⊕ Function

def Definition.tokens : Definition → List Token := Sum.elim Struct.tokens Function.tokens

abbrev Text := List Definition

namespace Text

def tokens (c : Text) : List Token := c.flatMap Definition.tokens

def structs (c : Text) : List Struct := c.filterMap Sum.getLeft?

def functions (c : Text) : List Function := c.filterMap Sum.getRight?

def tree (c : Text) : Program := ⟨c.structs.map Struct.tree, c.functions.map Function.tree⟩

def blocks (c : Text) : List Block := c.functions.flatMap Function.blocks

end Text

end StackLang.Concrete
