import ErbLayout.Ruby.Rules.Call
import ErbLayout.Ruby.Rules.Definition
import ErbLayout.Ruby.Rules.Literal
import ErbLayout.Ruby.Rules.Operand
import ErbLayout.Ruby.Rules.Pattern
import ErbLayout.Ruby.Rules.Statement
/-!
The grammar of Ruby: one rule for each phrase, in the order of the phrases.
-/

namespace ErbLayout.Ruby

/-- The rules of all phrases, each at the number of its phrase. -/
def rules : List Rules.Rule :=
  Rules.statementRules ++ Rules.definitionRules ++ Rules.commandRules ++ Rules.operandRules ++
    Rules.assignmentRules ++ Rules.callRules ++ Rules.literalRules ++ Rules.patternRules

def table : Grammar.Table := .ofRules Token.number Token.count Phrase.number rules

theorem numbers_rules : rules.map (·.1.number) = List.range Phrase.count := by decide +kernel

end ErbLayout.Ruby
