import TreeQuery.Env
import TreeQuery.Pattern.Basic

/-! The host gives a meaning to the functions that patterns refer to by handles. -/

namespace TreeQuery

/-- A test answers whether a datum passes. A generator makes a pattern from the bindings so far,
possibly one that contains the same handle again. An error ends the enumeration that asked. -/
structure Host (D K H : Type) where
  test : H → D → Except MatchError Bool
  generate : H → Env D → Except MatchError (Pattern D K H)

inductive Call (D H : Type) where
  | test (handle : H) (datum : D)
  | generate (handle : H) (env : Env D)

end TreeQuery
