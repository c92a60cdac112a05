import LeastRecent.Datum.Basic
import LeastRecent.Text.Quoted

/-!
# Text of data

Null is written `()`, booleans and integers as usual, strings in quotes, and the items of an array in brackets.
-/

namespace LeastRecent.Datum

mutual
/-- The text of a datum. -/
def text : Datum → String
  | .null => "()"
  | .bool true => "true"
  | .bool false => "false"
  | .int n => toString n
  | .string s => Text.quoted s
  | .array items => Text.bracketed (texts items)

/-- The texts of the items of an array. -/
def texts : List Datum → List String
  | [] => []
  | d :: ds => text d :: texts ds
end

instance : ToString Datum := ⟨text⟩

end LeastRecent.Datum
