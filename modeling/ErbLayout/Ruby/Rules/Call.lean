import ErbLayout.Ruby.Rules.Basic
/-!
Calls of methods in Ruby, and their arguments. Those without parentheses stand in expressions only.
-/

namespace ErbLayout.Ruby.Rules

open ErbLayout.Grammar.Form Phrase Token

def calledWithArguments : Form :=
  any [all [callee, arguments], left 1 (all [primary, callOperator, arguments])]

def callRules : List Rule := [
  (call,
    any [
      calledWithArguments,
      strong 1 (all [calledWithArguments, braceBlock]),
      strong (-1) (all [calledWithArguments, doBlock]),
      strong 1 (all [callee, braceBlock]),
      strong (-1) (all [callee, doBlock])]),
  (memberCall,
    left 0
      (any [all [primary, callOperator, memberName], all [primary, attachedColons, constant]])),
  (functionCall, left 0 functionName),
  (functionName, any [suffixedIdentifier, suffixedConstant]),
  (callOperator, any [dot, safeDot, attachedColons]),
  (subscript,
    left 1
      (all [
        primary, subscriptBracket, opt argumentsAndComma, closeBracket,
        opt (any [braceBlock, doBlock])])),
  (arguments, right 0 (all [attachedParen, opt argumentsAndComma, closeParen])),
  (argumentsAndComma, right 0 (all [listed argument, opt comma])),
  (argument,
    left 0
      (any [
        expression, splatArgument, hashSplatArgument, forwardArgument, blockArgument, pair])),
  (splatArgument, right 0 (all [splatStar, opt operand])),
  (hashSplatArgument, right 0 (all [hashSplatStars, opt operand])),
  (forwardArgument, dotDotDot),
  (blockArgument, right 0 (all [blockAmpersand, opt operand]))]

def commandRules : List Rule := [
  (expression,
    any [
      commandBinary, commandUnary, commandAssignment, commandUpdate, commandCall,
      commandCallWithBlock, left 0 chainedCommandCall, returnCommand, yieldCommand, breakCommand,
      nextCommand, matchPattern, testPattern, operand]),
  (commandBinary, left 0 (all [expression, any [kwOr, kwAnd], expression])),
  (commandUnary,
    any [
      strong Rank.definedness (all [kwDefined, expression]),
      right Rank.negation (all [kwNot, expression]),
      right Rank.sign (all [any [unaryMinus, plus], expression]),
      right Rank.complement (all [any [bang, tilde], expression])]),
  (commandAssignment,
    right Rank.assignment
      (all [any [target, targets], assign, any [expression, rescuedExpression]])),
  (commandUpdate,
    right Rank.assignment (all [target, updateSign, any [expression, rescuedExpression]])),
  (rescuedExpression, strong Rank.modifier (all [expression, kwRescue, expression])),
  (commandCall, all [any [callee, chainedCommandCall], commandArguments]),
  (commandCallWithBlock,
    any [
      all [callee, strong 1 (all [commandArguments, braceBlock])],
      all [callee, strong (-1) (all [commandArguments, doBlock])]]),
  (chainedCommandCall, all [commandCallWithBlock, callOperator, memberName]),
  (commandArguments, right 0 (listed argument)),
  (returnCommand, left 0 (all [kwReturn, commandArguments])),
  (yieldCommand, left 0 (all [kwYield, commandArguments])),
  (breakCommand, left 0 (all [kwBreak, commandArguments])),
  (nextCommand, left 0 (all [kwNext, commandArguments])),
  (matchPattern, strong Rank.pattern (all [operand, fatArrow, topPattern])),
  (testPattern, strong Rank.pattern (all [operand, kwIn, topPattern]))]

end ErbLayout.Ruby.Rules
