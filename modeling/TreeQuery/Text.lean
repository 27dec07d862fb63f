/-! Readable text of values, as displays, traces and messages show it. -/

namespace TreeQuery

class HasText (α : Type) where
  text : α → String

instance : HasText String := ⟨id⟩

end TreeQuery
