import PhpStyle.Ruleset
import PhpStyle.Standard.ArrayComma
import PhpStyle.Standard.ClassComment
import PhpStyle.Standard.FunctionComment
import PhpStyle.Standard.MethodOrder
import PhpStyle.Standard.PropertyOrder

/-!
# The coding standard

The rules of the standard, in the order in which they are applied.
-/

namespace PhpStyle.Standard

/-- The rules of the standard, in order. -/
def rules : List Rule :=
  [ClassComment.rule, FunctionComment.rule, MethodOrder.rule, PropertyOrder.rule, ArrayComma.rule]

/-- The names of the rules, in order. -/
def ruleNames : List String :=
  rules.map fun rule => rule.name

/-- The ruleset of the enabled rules. -/
def ruleset (isEnabled : String → Bool) : Ruleset :=
  .ofRules (rules.filter fun rule => isEnabled rule.name)

end PhpStyle.Standard
