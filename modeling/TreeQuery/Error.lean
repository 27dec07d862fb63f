import TreeQuery.Text

/-! Errors that end an enumeration or a conversion. A pattern that fails to match is no error. -/

namespace TreeQuery

inductive MatchError where
  | host (cause : String)
  | unboundTemplate (name : String)
  | danglingPath (step remaining : Nat)
  | duplicateCapture (name : String)
  | custom (summary : String) (detail : Option String)
  deriving DecidableEq

namespace MatchError

def description : MatchError → String
  | host _ => "A host function failed during matching"
  | unboundTemplate _ => "Template variable refers to an unbound name"
  | danglingPath _ _ => "Path step selected no continuation"
  | duplicateCapture _ => "A capture name is bound more than once"
  | custom summary _ => summary

def message : MatchError → String
  | host cause => cause
  | unboundTemplate name => "No capture named " ++ name ++ " precedes the template"
  | danglingPath step remaining =>
    "Step " ++ toString step ++ " has no path markers but " ++ toString remaining ++
      " more step(s) follow"
  | duplicateCapture name => name ++ " appears more than once in the environment"
  | custom summary detail => detail.getD summary

def display (e : MatchError) : String := e.description ++ ": " ++ e.message

instance : HasText MatchError := ⟨fun e => "MatchError(" ++ e.display ++ ")"⟩

/-- Errors agree if they are of one sort with the same data. A host's own error is opaque and
agrees with none. -/
def agrees : MatchError → MatchError → Bool
  | custom _ _, _ => false
  | a, b => a == b

end MatchError

end TreeQuery
