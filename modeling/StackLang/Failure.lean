import StackLang.Token

namespace StackLang

inductive LexError where
  | leadingZero
  | digitExpected
  | strayInNumeral (c : Char) (position : Nat)
  | strayBang
  | strayHash
  | located (what : String) (line column : Int)
  deriving Repr, DecidableEq

namespace LexError

def message : LexError → String
  | leadingZero => "leading zeros are not allowed"
  | digitExpected => "digit expected after dot in a decimal number"
  | strayInNumeral c position => s!"contains invalid character '{c}' at position {position}"
  | strayBang => "Invalid character"
  | strayHash => "contains invalid character"
  | located what line column => s!"{what} at line {line}, column {column}"

/-- What is written to the output just before the error is reported. -/
def notice : LexError → String
  | leadingZero => "in error\n"
  | _ => ""

end LexError

/-- What a parser wanted to see. -/
inductive Expectation where
  | token (kind : Token.Kind)
  | callEnd
  | groupEnd
  | definition
  | parametersEnd
  | bodyEnd
  | ifBefore
  | statement
  | ifCondition
  | whileCondition
  | expression
  | operand
  deriving Repr, DecidableEq

namespace Expectation

def message : Expectation → String
  | token kind => s!"expecting {kind.name} token type"
  | callEnd => "Expecting RPAREN token type"
  | groupEnd => "Expecting )"
  | definition => "invalid token type"
  | parametersEnd => "missing closing parenthesis for function parameters"
  | bodyEnd => "missing closing brace for function body"
  | ifBefore => "missing IF keyword before ELSEIF statement"
  | statement => "invalid stmt token type"
  | ifCondition => "must have expression in IF statement"
  | whileCondition => "must have expression in WHILE loop statement"
  | expression => "must have an expression"
  | operand => "Improper expression syntax"

end Expectation

structure ParseError where
  wanted : Expectation
  found : Token
  deriving Repr, DecidableEq

def ParseError.message (e : ParseError) : String :=
  s!"{e.wanted.message} found \"{e.found.lexeme}\" at line {e.found.line}, column {e.found.column}"

inductive StaticError where
  | duplicate (name : String) (place : Token)
  | redefinesBuiltIn (place : Token)
  | mainNotVoid (place : Token)
  | mainWithParameters (place : Token)
  | missingMain
  | invalidType (name : String) (place : Token)
  | unknownStruct (name : String)
  | alreadyDefined (name : String)
  | badReturn (function type : String)
  | badInitializer (type : String)
  | arrayNotCreated
  | typesDiffer (name : Token) (type source sourceType : String)
  | badPath
  | argumentCount (function count : String)
  | argumentType (function type : String)
  | getFromArray
  | getFirstArgument
  | getSecondArgument
  deriving Repr, DecidableEq

namespace StaticError

def placed (what : String) (t : Token) : String :=
  s!"{what} near line {t.line}, column {t.column}"

def message : StaticError → String
  | duplicate name t => placed s!"duplicate {name} definition" t
  | redefinesBuiltIn t => placed "redefining built-in function" t
  | mainNotVoid t => placed "main without void type" t
  | mainWithParameters t => placed "main function with parameters" t
  | missingMain => "missing main function"
  | invalidType name t => placed s!"invalid type \"{name}\"" t
  | unknownStruct name => s!"Struct {name} does not exist"
  | alreadyDefined name => s!"{name} is already currently defined in file"
  | badReturn function type => s!"{function}() requires a {type} return"
  | badInitializer type => s!"Var Decl type must be an {type}"
  | arrayNotCreated => "Type is currently an array. Definition must be a NewRValue."
  | typesDiffer t type source sourceType =>
    s!"{t.render} is a {type} type but {source} is a {sourceType} type"
  | badPath => "Bad rvalue path assignment"
  | argumentCount function count => s!"{function}() requires {count}"
  | argumentType function type => s!"{function}() argument requires a {type} type"
  | getFromArray => "get() argument must not have an array type"
  | getFirstArgument => "get() first argument requires a int type"
  | getSecondArgument => "get() second argument requires a string type"

end StaticError

inductive MachineError where
  | noMain
  | unsupported (instruction : String)
  | operandsAbsent
  | divisionByZero
  | operandAbsent
  | lengthOfAbsent
  | characterOfAbsent
  | characterOutOfRange
  | conversionOfAbsent
  | notWholeNumber
  | notNumber
  | fieldValueAbsent
  | fieldOwnerAbsent
  | fieldOfAbsent
  | badArrayLength
  | setItemAbsent
  | setItemOutOfRange
  | getItemAbsent
  | getItemOutOfRange
  | reported (text : String)
  deriving Repr, DecidableEq

namespace MachineError

def message : MachineError → String
  | noMain => "No \"main\" function"
  | unsupported instruction => s!"unsupported operation {instruction}"
  | operandsAbsent => "Stack must contain two valid ints or doubles"
  | divisionByZero => "Division by 0 error"
  | operandAbsent => "Cannot contain None type"
  | lengthOfAbsent => "Cannot get length of None type"
  | characterOfAbsent => "Cannot be None type"
  | characterOutOfRange => "Index too large for string"
  | conversionOfAbsent => "Cannot be a None type"
  | notWholeNumber => "TOINT opcode requires a string, int, or double"
  | notNumber => "String must just contain a int or double"
  | fieldValueAbsent => "value is None. You cannot have any None types"
  | fieldOwnerAbsent => "oid is None. You cannot have any None types"
  | fieldOfAbsent => "oid cannot be None type"
  | badArrayLength => "Array length cannot be None type or less than 0"
  | setItemAbsent => "Index cannot be None Type"
  | setItemOutOfRange => "Index is too large for allocated array"
  | getItemAbsent => "Index or oid cannot be None"
  | getItemOutOfRange => "Index too large for allocated array"
  | reported text => text

end MachineError

inductive Diagnosis where
  | lexical (e : LexError)
  | syntactic (e : ParseError)
  | static (e : StaticError)
  | machine (e : MachineError)
  deriving Repr, DecidableEq

def Diagnosis.message : Diagnosis → String
  | lexical e => "Lexer Error: " ++ e.message
  | syntactic e => "Parser Error: " ++ e.message
  | static e => "Static Error: " ++ e.message
  | machine e => "VM Error: " ++ e.message

inductive Crash where
  | missingPart
  /-- The operation is not defined on values of this kind. -/
  | wrongKind
  | outOfRange
  | unknownKey
  /-- A text is no numeral, or a value no number that can be taken. -/
  | badNumeral
  /-- A number is too large for the place that is to hold it. -/
  | tooLarge
  | noPendingJump
  | endOfInput
  | undecodable
  | closed
  | exhausted
  deriving Repr, DecidableEq

inductive Failure where
  | diagnosis (d : Diagnosis)
  | crash (c : Crash)
  deriving Repr, DecidableEq

namespace Failure

def lexical (e : LexError) : Failure := .diagnosis (.lexical e)

def syntactic (e : ParseError) : Failure := .diagnosis (.syntactic e)

def static (e : StaticError) : Failure := .diagnosis (.static e)

def machine (e : MachineError) : Failure := .diagnosis (.machine e)

/-- What is written to the output just before the failure is reported. -/
def notice : Failure → String
  | .diagnosis (.lexical e) => e.notice
  | _ => ""

end Failure

/-- A part of a tree that has to be there. -/
def need {α σ : Type} : Option α → EStateM Failure σ α
  | some a => pure a
  | none => throw (.crash .missingPart)

end StackLang
