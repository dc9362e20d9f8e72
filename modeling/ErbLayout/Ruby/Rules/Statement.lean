import ErbLayout.Ruby.Rules.Basic
/-!
The statements of Ruby, and what holds statements.
-/

namespace ErbLayout.Ruby.Rules

open ErbLayout.Grammar.Form Phrase Token

/-- A statement that another one may follow. -/
def endedStatement : Form := any [all [statement, terminator], emptyStatement]

/-- What stands between a condition and the end of its branch. -/
def consequence : Form := any [terminator, thenBranch]

def otherBranch : Form := any [elseBranch, elsifThen]

def clause : Form := any [rescueClause, elseBranch, ensureClause]

def statementRules : List Rule := [
  (program, all [opt statements, opt (any [endMark, kwDataEnd])]),
  (statements, any [all [several endedStatement, opt statement], statement]),
  (statement,
    any [
      undefStatement, aliasStatement, ifModifier, unlessModifier, whileModifier, untilModifier,
      rescueModifier, atBegin, atEnd, expression]),
  (atBegin, all [kwAtBegin, openBrace, opt statements, closeBrace]),
  (atEnd, all [kwAtEnd, openBrace, opt statements, closeBrace]),
  (undefStatement, all [kwUndef, listed methodName]),
  (aliasStatement, all [kwAlias, methodName, methodName]),
  (ifModifier, strong Rank.modifier (all [statement, kwIf, expression])),
  (unlessModifier, strong Rank.modifier (all [statement, kwUnless, expression])),
  (whileModifier, strong Rank.modifier (all [statement, kwWhile, expression])),
  (untilModifier, strong Rank.modifier (all [statement, kwUntil, expression])),
  (rescueModifier, strong Rank.modifier (all [statement, kwRescue, expression])),
  (emptyStatement, strong (-1) semicolon),
  (terminator, any [lineBreak, semicolon]),
  (ifThen, all [kwIf, statement, consequence, opt otherBranch, kwEnd]),
  (unlessThen, all [kwUnless, statement, consequence, opt otherBranch, kwEnd]),
  (elsifThen, all [kwElsif, statement, consequence, opt otherBranch]),
  (thenBranch, any [all [terminator, statements], all [opt terminator, kwThen, opt statements]]),
  (elseBranch, all [kwElse, opt terminator, opt statements]),
  (whileLoop, all [kwWhile, statement, loopBody]),
  (untilLoop, all [kwUntil, statement, loopBody]),
  (forLoop, all [kwFor, any [target, targets], iterated, loopBody]),
  (iterated, all [kwIn, operand]),
  (loopBody, all [any [kwDo, terminator], opt statements, kwEnd]),
  (caseOf, all [kwCase, opt statement, opt terminator, many whenClause, opt elseBranch, kwEnd]),
  (whenClause, all [kwWhen, listed alternative, consequence]),
  (alternative, any [operand, splatArgument]),
  (caseIn, all [kwCase, statement, opt terminator, several inClause, opt elseBranch, kwEnd]),
  (inClause, all [kwIn, topPattern, opt guard, consequence]),
  (guard, any [ifGuard, unlessGuard]),
  (ifGuard, all [kwIf, expression]),
  (unlessGuard, all [kwUnless, expression]),
  (beginBody, all [kwBegin, opt terminator, bodyEnd]),
  (bodyEnd, all [opt body, kwEnd]),
  (body, any [all [statements, many clause], several clause]),
  (rescueClause, all [kwRescue, opt exceptions, opt exceptionVariable, consequence]),
  (exceptions, listed (any [operand, splatArgument])),
  (exceptionVariable, all [fatArrow, target]),
  (ensureClause, all [kwEnsure, opt statements]),
  (parenthesized, all [openParen, opt statements, closeParen])]

end ErbLayout.Ruby.Rules
