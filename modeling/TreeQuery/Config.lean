import TreeQuery.Logger

/-! Options of an enumeration. -/

namespace TreeQuery

/-- By default an unbound template variable is a failure to match, and a path whose step marks
nothing ends there; each strict option makes an error of it. -/
structure MatchConfig where
  strictTemplates : Bool := false
  strictPaths : Bool := false
  logger : Logger := {}
  deriving DecidableEq

instance : HasText MatchConfig where
  text config :=
    "MatchConfig \x7b strict_templates: " ++ toString config.strictTemplates ++
      ", strict_paths: " ++ toString config.strictPaths ++
      ", logger: " ++ HasText.text config.logger ++ " \x7d"

end TreeQuery
