import ErbLayout.Grammar.Table
import ErbLayout.Ruby.Token
/-!
The phrases of Ruby, and how the rules for them are written.
-/

namespace ErbLayout.Ruby

inductive Phrase where
  -- statements
  | program | statements | statement | atBegin | atEnd | undefStatement | aliasStatement
  | ifModifier | unlessModifier | whileModifier | untilModifier | rescueModifier | emptyStatement
  | terminator | ifThen | unlessThen | elsifThen | thenBranch | elseBranch | whileLoop
  | untilLoop | forLoop | iterated | loopBody | caseOf | whenClause | alternative | caseIn
  | inClause | guard | ifGuard | unlessGuard | beginBody | bodyEnd | body | rescueClause
  | exceptions | exceptionVariable | ensureClause | parenthesized
  -- definitions
  | method | singletonMethod | methodRest | shortBody | methodName | setter | operatorName
  | parameters | bareParameters | blockParameters | parameter | plainParameter | splatParameter
  | hashSplatParameter | noKeywords | forwardParameter | blockParameter | keywordParameter
  | optionalParameter | classDefinition | superclass | singletonClass | moduleDefinition
  | doBlock | braceBlock | blockBody | lambda
  -- expressions
  | expression | commandBinary | commandUnary | commandAssignment | commandUpdate
  | rescuedExpression | commandCall | commandCallWithBlock | chainedCommandCall
  | commandArguments | returnCommand | yieldCommand | breakCommand | nextCommand | matchPattern
  | testPattern
  -- operands
  | operand | conditional | range | binary | unary | negatedPower | power | primary
  | parenthesizedUnary | returnJump | yieldCall | breakJump | nextJump | redoJump | retryJump
  | variableName | nonlocalVariable | scopedName | array | hash | pair
  -- assignments
  | assignment | update | rescuedOperand | target | values | targets | targetList | nestedTargets
  | restTarget
  -- calls
  | call | memberCall | functionCall | functionName | callOperator | subscript | arguments
  | argumentsAndComma | argument | splatArgument | hashSplatArgument | forwardArgument
  | blockArgument
  -- literals
  | literal | numeric | unsignedNumber | signedNumber | realNumber | rational | complex
  | trueValue | falseValue | nilValue | delimitedSymbol | string | adjacentStrings | subshell
  | regex | stringArray | symbolArray | contents | interpolation | hereDocBody
  -- patterns
  | topPattern | pattern | namedPattern | patternChoice | alternativePattern | simplePattern
  | parenthesizedPattern | openArrayPattern | arrayPatternBody | arrayPattern | findPatternBody
  | findPattern | hashPatternBody | hashPatternRest | hashPattern | keyPattern | patternValue
  | patternRange | patternPrimitive | patternLambda | patternLiteral | keywordVariable
  | pinnedVariable | pinnedExpression | patternConstant | scopedPatternConstant
  deriving DecidableEq, Repr

namespace Phrase

def number (p : Phrase) : Nat := p.ctorIdx

def count : Nat := number .scopedPatternConstant + 1

end Phrase

namespace Rules

abbrev Form := Grammar.Form Token Phrase

abbrev Rule := Grammar.Rule Token Phrase

instance : Coe Phrase Form := ⟨.phrase⟩

instance : Coe Token Form := ⟨.token⟩

/-!
How tightly operators hold their operands, from the loosest on. A rank that stands as a number only
orders rules that meet in one place.
-/

namespace Rank

def negation : Int := 5

def definedness : Int := 10

def assignment : Int := 15

def modifier : Int := 16

def conditional : Int := 20

def range : Int := 25

def disjunction : Int := 30

def conjunction : Int := 35

def equality : Int := 40

def comparison : Int := 45

def bitOr : Int := 50

def bitAnd : Int := 55

def shift : Int := 60

def sum : Int := 65

def product : Int := 70

def sign : Int := 75

def power : Int := 80

def complement : Int := 85

/-- A pattern after an operand takes all of it. -/
def pattern : Int := 100

end Rank

open ErbLayout.Grammar.Form Phrase Token

/-- A part and more of it after commas. -/
def listed (part : Form) : Form := all [part, many (all [comma, part])]

def rangeSign : Form := any [dotDot, dotDotDot]

def updateSign : Form :=
  any [
    plusAssign, minusAssign, starAssign, starStarAssign, slashAssign, orOrAssign, barAssign,
    andAndAssign, ampersandAssign, percentAssign, shiftRightAssign, shiftLeftAssign, caretAssign]

/-- What arguments may follow. -/
def callee : Form := any [memberCall, variableName, functionName]

/-- The name of a method after a dot. -/
def memberName : Form := any [identifier, functionName, operatorName, constant]

end Rules

end ErbLayout.Ruby
