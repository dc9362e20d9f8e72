import ErbLayout.Ruby.Rules.Basic
/-!
Literals of Ruby.
-/

namespace ErbLayout.Ruby.Rules

open ErbLayout.Grammar.Form Phrase Token

def literalRules : List Rule := [
  (literal, any [plainSymbol, delimitedSymbol, numeric]),
  (numeric, any [unsignedNumber, signedNumber]),
  (unsignedNumber, any [integer, float, complex, rational]),
  (signedNumber, right Rank.sign (all [any [numberMinus, plus], unsignedNumber])),
  (realNumber, any [integer, float]),
  (rational, all [realNumber, suffixR]),
  (complex, any [all [realNumber, suffixI], all [realNumber, suffixRi]]),
  (trueValue, any [kwTrue, kwUpperTrue]),
  (falseValue, any [kwFalse, kwUpperFalse]),
  (nilValue, any [kwNil, kwUpperNil]),
  (delimitedSymbol, all [symbolStart, opt contents, stringEnd]),
  (string, all [stringStart, opt contents, stringEnd]),
  (adjacentStrings, all [string, several string]),
  (subshell, all [subshellStart, opt contents, stringEnd]),
  (regex, all [regexStart, opt contents, stringEnd]),
  (stringArray, all [stringArrayStart, opt contents, stringEnd]),
  (symbolArray, all [symbolArrayStart, opt contents, stringEnd]),
  (contents, several (any [stringContent, interpolation, escapeSequence])),
  (interpolation,
    any [all [codeStart, opt statements, closeBrace], all [shortInterpolation, nonlocalVariable]]),
  (hereDocBody,
    all [
      hereDocBodyStart, many (any [hereDocContent, interpolation, escapeSequence]), hereDocEnd])]

end ErbLayout.Ruby.Rules
