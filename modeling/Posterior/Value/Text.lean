import Posterior.Text.Quoted
import Posterior.Value.Basic

/-!
# The text of a value

Texts are quoted, floats are written plainly, and the items of a list stand between square brackets
with a comma and a space between them.

## Main definitions

* `Value.text` — the text of a value
-/

namespace Posterior.Value

mutual

/-- The text of a value. -/
def text : Value → String
  | unit => "()"
  | bool b => if b then "true" else "false"
  | int i => i.toInt.repr
  | float x => Decimal.write Decimal.plain x
  | str s => Text.quoted s
  | list items => "[" ++ itemsText items ++ "]"

/-- The texts of a list's items, each but the first after a comma and a space. -/
def itemsText : List Value → String
  | [] => ""
  | [v] => text v
  | v :: w :: vs => text v ++ ", " ++ itemsText (w :: vs)

end

end Posterior.Value
