import ErbLayout.Ruby.Rules.Basic
/-!
Patterns of Ruby.
-/

namespace ErbLayout.Ruby.Rules

open ErbLayout.Grammar.Form Phrase Token

/-- A pattern in brackets, or in the brackets or parentheses after a constant. -/
def deconstructed (inner : Form) : Form :=
  any [
    all [patternConstant, attachedBracket, inner, closeBracket],
    all [patternConstant, attachedParen, inner, closeParen]]

def patternRules : List Rule := [
  (topPattern, strong (-1) (any [pattern, openArrayPattern, findPatternBody, hashPatternBody])),
  (pattern, any [namedPattern, patternChoice]),
  (namedPattern, all [pattern, fatArrow, identifier]),
  (patternChoice, any [alternativePattern, simplePattern]),
  (alternativePattern, all [simplePattern, several (all [bar, simplePattern])]),
  (simplePattern,
    right (-1)
      (any [
        patternValue, identifier, arrayPattern, findPattern, hashPattern, parenthesizedPattern])),
  (parenthesizedPattern, all [openParen, pattern, closeParen]),
  (openArrayPattern,
    right 0
      (any [
        all [pattern, comma],
        all [pattern, comma, any [pattern, openArrayPattern]],
        all [splatParameter, many (all [comma, pattern])]])),
  (arrayPatternBody, any [pattern, openArrayPattern]),
  (arrayPattern,
    right (-1)
      (any [
        all [openBracket, opt arrayPatternBody, closeBracket],
        deconstructed (opt arrayPatternBody)])),
  (findPatternBody, all [splatParameter, several (all [comma, pattern]), comma, splatParameter]),
  (findPattern,
    any [all [openBracket, findPatternBody, closeBracket], deconstructed findPatternBody]),
  (hashPatternBody,
    right 0
      (any [
        all [listed keyPattern, opt comma],
        all [listed keyPattern, comma, hashPatternRest],
        hashPatternRest])),
  (hashPatternRest, any [hashSplatParameter, noKeywords]),
  (hashPattern,
    right (-1)
      (any [
        all [openBrace, opt hashPatternBody, closeBrace], deconstructed hashPatternBody])),
  (keyPattern, right (-1) (all [any [hashKey, string], attachedColon, opt pattern])),
  (patternValue,
    any [patternPrimitive, patternRange, pinnedVariable, pinnedExpression, patternConstant]),
  (patternRange,
    any [
      all [patternPrimitive, rangeSign, patternPrimitive],
      all [rangeSign, patternPrimitive],
      all [patternPrimitive, rangeSign]]),
  (patternPrimitive, any [patternLiteral, patternLambda]),
  (patternLambda, right (-1) lambda),
  (patternLiteral,
    right (-1)
      (any [
        literal, string, subshell, hereDocStart, regex, stringArray, symbolArray,
        keywordVariable])),
  (keywordVariable,
    right (-1) (any [nilValue, kwSelf, trueValue, falseValue, kwLine, kwFile, kwEncoding])),
  (pinnedVariable, all [caret, any [identifier, nonlocalVariable]]),
  (pinnedExpression, all [caret, openParen, expression, closeParen]),
  (patternConstant, right (-1) (any [constant, scopedPatternConstant])),
  (scopedPatternConstant,
    right (-1) (all [any [colonColon, all [patternConstant, attachedColons]], constant]))]

end ErbLayout.Ruby.Rules
