namespace StackLang

namespace Token

inductive Kind where
  | eos | id | comment
  | dot | comma | lparen | rparen | lbracket | rbracket | semicolon | lbrace | rbrace
  | plus | minus | times | divide | assign | andOp | orOp | notOp
  | equal | notEqual | less | lessEq | greater | greaterEq
  | intVal | doubleVal | stringVal | boolVal | nullVal
  | intType | doubleType | stringType | boolType | voidType
  | structKw | arrayKw | forKw | whileKw | ifKw | elseifKw | elseKw | newKw | returnKw
  deriving Repr, DecidableEq, Inhabited

namespace Kind

def name : Kind → String
  | eos => "EOS" | id => "ID" | comment => "COMMENT"
  | dot => "DOT" | comma => "COMMA" | lparen => "LPAREN" | rparen => "RPAREN"
  | lbracket => "LBRACKET" | rbracket => "RBRACKET" | semicolon => "SEMICOLON"
  | lbrace => "LBRACE" | rbrace => "RBRACE"
  | plus => "PLUS" | minus => "MINUS" | times => "TIMES" | divide => "DIVIDE"
  | assign => "ASSIGN" | andOp => "AND" | orOp => "OR" | notOp => "NOT"
  | equal => "EQUAL" | notEqual => "NOT_EQUAL" | less => "LESS" | lessEq => "LESS_EQ"
  | greater => "GREATER" | greaterEq => "GREATER_EQ"
  | intVal => "INT_VAL" | doubleVal => "DOUBLE_VAL" | stringVal => "STRING_VAL"
  | boolVal => "BOOL_VAL" | nullVal => "NULL_VAL"
  | intType => "INT_TYPE" | doubleType => "DOUBLE_TYPE" | stringType => "STRING_TYPE"
  | boolType => "BOOL_TYPE" | voidType => "VOID_TYPE"
  | structKw => "STRUCT" | arrayKw => "ARRAY" | forKw => "FOR" | whileKw => "WHILE"
  | ifKw => "IF" | elseifKw => "ELSEIF" | elseKw => "ELSE" | newKw => "NEW"
  | returnKw => "RETURN"

def all : List Kind :=
  [eos, id, comment, dot, comma, lparen, rparen, lbracket, rbracket, semicolon, lbrace, rbrace,
    plus, minus, times, divide, assign, andOp, orOp, notOp, equal, notEqual, less, lessEq,
    greater, greaterEq, intVal, doubleVal, stringVal, boolVal, nullVal, intType, doubleType,
    stringType, boolType, voidType, structKw, arrayKw, forKw, whileKw, ifKw, elseifKw, elseKw,
    newKw, returnKw]

def ofName? (s : String) : Option Kind := all.find? fun k => k.name == s

end Kind
end Token

structure Token where
  kind : Token.Kind
  lexeme : String
  line : Nat
  column : Nat
  deriving Repr, DecidableEq, Inhabited

namespace Token

/-- The words at which scanning a word stops, with the kind of token they make. The name of the
entry function is one of them, though it is an identifier like any other. -/
def reserved? : String → Option Kind
  | "int" => some .intType
  | "double" => some .doubleType
  | "string" => some .stringType
  | "bool" => some .boolType
  | "void" => some .voidType
  | "and" => some .andOp
  | "or" => some .orOp
  | "not" => some .notOp
  | "if" => some .ifKw
  | "elseif" => some .elseifKw
  | "else" => some .elseKw
  | "while" => some .whileKw
  | "for" => some .forKw
  | "null" => some .nullVal
  | "true" => some .boolVal
  | "false" => some .boolVal
  | "return" => some .returnKw
  | "struct" => some .structKw
  | "array" => some .arrayKw
  | "new" => some .newKw
  | "main" => some .id
  | _ => none

/-- The line by which a token is shown, in listings and in messages. -/
def render (t : Token) : String :=
  s!"{t.line}, {t.column}: {t.kind.name} \"{t.lexeme}\""

end Token
end StackLang
