/-!
# Data

Keys and values are data: null, booleans, integers, strings and arrays of data. Equality is structural and decided by
`same` (`same_iff`); data of different kinds are never equal.
-/

namespace LeastRecent

/-- A key or value. -/
inductive Datum
  | null
  | bool (b : Bool)
  | int (n : Int)
  | string (s : String)
  | array (items : List Datum)

namespace Datum

mutual
/-- Structural equality. -/
def same : Datum → Datum → Bool
  | .null, .null => true
  | .bool a, .bool b => a == b
  | .int a, .int b => a == b
  | .string a, .string b => a == b
  | .array as, .array bs => sameAll as bs
  | _, _ => false

/-- Structural equality of the items of two arrays. -/
def sameAll : List Datum → List Datum → Bool
  | [], [] => true
  | a :: as, b :: bs => same a b && sameAll as bs
  | _, _ => false
end

mutual
theorem same_iff : ∀ a b : Datum, same a b = true ↔ a = b
  | .null, b => by cases b <;> simp [same]
  | .bool _, b => by cases b <;> simp [same]
  | .int _, b => by cases b <;> simp [same]
  | .string _, b => by cases b <;> simp [same]
  | .array as, b => by
    cases b with
    | array bs => simp [same, sameAll_iff as bs]
    | _ => simp [same]

theorem sameAll_iff : ∀ as bs : List Datum, sameAll as bs = true ↔ as = bs
  | [], bs => by cases bs <;> simp [sameAll]
  | a :: as, bs => by
    cases bs with
    | nil => simp [sameAll]
    | cons b bs => simp [sameAll, same_iff a b, sameAll_iff as bs]
end

instance : DecidableEq Datum := fun a b => decidable_of_iff _ (same_iff a b)

end Datum
end LeastRecent
