import ErbLayout.Ruby.Rules.Basic
/-!
Operands of Ruby: what operators join, what may stand between them, and what they may be assigned
to.
-/

namespace ErbLayout.Ruby.Rules

open ErbLayout.Grammar.Form Phrase Token

def jump : Form := any [returnJump, yieldCall, breakJump, nextJump, redoJump, retryJump]

def definition : Form :=
  any [method, singletonMethod, classDefinition, singletonClass, moduleDefinition]

/-- What holds statements up to an ending of its own. -/
def compound : Form :=
  any [
    parenthesized, beginBody, whileLoop, untilLoop, ifThen, unlessThen, forLoop, caseOf, caseIn]

def value : Form :=
  any [
    array, stringArray, symbolArray, hash, subshell, literal, string, character, adjacentStrings,
    regex, hereDocStart, lambda]

def infixed (sign : Form) : Form := all [operand, sign, operand]

def operandRules : List Rule := [
  (operand, any [negatedPower, primary, assignment, update, conditional, range, binary, unary]),
  (conditional, right Rank.conditional (all [operand, question, operand, colon, operand])),
  (range,
    right Rank.range
      (any [infixed rangeSign, all [rangeSign, operand], all [operand, rangeSign]])),
  (binary,
    any [
      left Rank.conjunction (infixed andAnd),
      left Rank.disjunction (infixed orOr),
      left Rank.shift (infixed (any [shiftLeft, shiftRight])),
      left Rank.comparison (infixed (any [less, lessEqual, greater, greaterEqual])),
      left Rank.bitAnd (infixed ampersand),
      left Rank.bitOr (infixed (any [caret, bar])),
      left Rank.sum (infixed (any [plus, binaryMinus])),
      left Rank.product (infixed (any [slash, percent, binaryStar])),
      right Rank.equality
        (infixed (any [equal, notEqual, caseEqual, spaceship, matchSign, noMatchSign])),
      right Rank.power (infixed binaryStars)]),
  (unary,
    any [
      strong Rank.definedness (all [kwDefined, operand]),
      right Rank.negation (all [kwNot, operand]),
      right Rank.sign (all [any [unaryMinus, plus], operand]),
      right Rank.complement (all [any [bang, tilde], operand])]),
  (negatedPower, all [numberMinus, power]),
  (power, right Rank.power (all [unsignedNumber, binaryStars, operand])),
  (primary,
    any [target, functionCall, call, parenthesizedUnary, value, compound, definition, jump]),
  (parenthesizedUnary, strong Rank.definedness (all [any [kwDefined, kwNot], parenthesized])),
  (returnJump, left 0 (all [kwReturn, opt arguments])),
  (yieldCall, left 0 (all [kwYield, opt arguments])),
  (breakJump, left 0 (all [kwBreak, opt arguments])),
  (nextJump, left 0 (all [kwNext, opt arguments])),
  (redoJump, left 0 (all [kwRedo, opt arguments])),
  (retryJump, left 0 (all [kwRetry, opt arguments])),
  (variableName, right 0 (any [kwSelf, kwSuper, nonlocalVariable, identifier, constant])),
  (nonlocalVariable, any [instanceVariable, classVariable, globalVariable]),
  (scopedName, left 1 (all [any [colonColon, all [primary, attachedColons]], constant])),
  (array, all [openBracket, opt argumentsAndComma, closeBracket]),
  (hash,
    all [openBrace, opt (all [listed (any [pair, hashSplatArgument]), opt comma]), closeBrace]),
  (pair,
    right 0
      (any [
        all [operand, fatArrow, operand],
        all [any [hashKey, string], attachedColon, any [opt operand, noLineBreak]]]))]

def assignmentRules : List Rule := [
  (assignment,
    right Rank.assignment
      (all [
        any [target, targets], assign, any [operand, splatArgument, values, rescuedOperand]])),
  (update, right Rank.assignment (all [target, updateSign, any [operand, rescuedOperand]])),
  (rescuedOperand, strong Rank.modifier (all [operand, kwRescue, operand])),
  (target,
    left 0
      (any [variableName, trueValue, falseValue, nilValue, scopedName, subscript, memberCall])),
  (values, strong (-1) (listed (any [operand, splatArgument, rescuedOperand]))),
  (targets, targetList),
  (targetList, left (-1) (all [listed (any [target, restTarget, nestedTargets]), opt comma])),
  (nestedTargets, strong (-1) (all [openParen, targetList, closeParen])),
  (restTarget, strong (-1) (all [star, opt target]))]

end ErbLayout.Ruby.Rules
