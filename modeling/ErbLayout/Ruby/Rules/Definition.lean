import ErbLayout.Ruby.Rules.Basic
/-!
Definitions of Ruby: methods with their parameters, classes, modules, blocks and lambdas.
-/

namespace ErbLayout.Ruby.Rules

open ErbLayout.Grammar.Form Phrase Token

/-- What a singleton method belongs to. -/
def methodOwner : Form := any [variableName, all [openParen, operand, closeParen]]

def operatorSign : Form :=
  any [
    dotDot, bar, caret, ampersand, spaceship, equal, caseEqual, matchSign, greater, greaterEqual,
    less, lessEqual, plus, minus, star, percent, bang, noMatchSign, starStar, shiftLeft]

def otherOperatorSign : Form :=
  any [
    shiftRight, tilde, plusAt, minusAt, tildeAt, brackets, bracketsAssign, backquote, notEqual,
    slash]

def definitionRules : List Rule := [
  (method, all [kwDef, methodRest]),
  (singletonMethod, all [kwDef, methodOwner, any [dot, attachedColons], methodRest]),
  (methodRest,
    any [
      all [methodName, shortBody],
      all [methodName, parameters, shortBody],
      all [methodName, parameters, opt terminator, bodyEnd],
      all [methodName, opt bareParameters, terminator, bodyEnd]]),
  (shortBody, all [assign, any [operand, rescuedOperand]]),
  (methodName,
    any [
      identifier, functionName, constant, setter, plainSymbol, delimitedSymbol, operatorName,
      nonlocalVariable]),
  (setter, all [identifier, attachedAssign]),
  (operatorName, any [operatorSign, otherOperatorSign]),
  (parameters, strong 1 (all [openParen, opt (listed parameter), closeParen])),
  (bareParameters, strong (-1) (all [plainParameter, many (all [comma, parameter])])),
  (blockParameters,
    all [bar, opt (listed parameter), opt comma, opt (all [semicolon, listed identifier]), bar]),
  (parameter, any [plainParameter, parameters]),
  (plainParameter,
    any [
      identifier, splatParameter, hashSplatParameter, noKeywords, forwardParameter,
      blockParameter, keywordParameter, optionalParameter]),
  (splatParameter, right (-2) (all [star, opt identifier])),
  (hashSplatParameter, right (-2) (all [starStar, opt identifier])),
  (noKeywords, all [starStar, kwNil]),
  (forwardParameter, dotDotDot),
  (blockParameter, all [ampersand, opt identifier]),
  (keywordParameter, right (Rank.bitOr + 1) (all [identifier, attachedColon, opt operand])),
  (optionalParameter, strong (Rank.bitOr + 1) (all [identifier, assign, operand])),
  (classDefinition,
    all [
      kwClass, any [constant, scopedName], any [all [superclass, terminator], opt terminator],
      bodyEnd]),
  (superclass, all [less, expression]),
  (singletonClass, all [kwClass, singletonSign, operand, terminator, bodyEnd]),
  (moduleDefinition, all [kwModule, any [constant, scopedName], opt terminator, bodyEnd]),
  (doBlock, all [kwDo, opt terminator, opt (all [blockParameters, opt terminator]), bodyEnd]),
  (braceBlock, strong 1 (all [openBrace, opt blockParameters, opt blockBody, closeBrace])),
  (blockBody, statements),
  (lambda, all [thinArrow, opt (any [parameters, bareParameters]), any [braceBlock, doBlock]])]

end ErbLayout.Ruby.Rules
