/-!
# Entries

An entry is a key with its value, stored once and shared by all who hold it; its label tells it from every other entry,
also from one with the same key and value.
-/

namespace LeastRecent

/-- A stored key and value under a label. -/
structure Entry (ι κ ν : Type) where
  label : ι
  key : κ
  value : ν

variable {ι κ ν : Type}

/-- The key, an equals sign and the value. -/
def Entry.text [ToString κ] [ToString ν] (e : Entry ι κ ν) : String :=
  toString e.key ++ "=" ++ toString e.value

instance [ToString κ] [ToString ν] : ToString (Entry ι κ ν) := ⟨Entry.text⟩

end LeastRecent
