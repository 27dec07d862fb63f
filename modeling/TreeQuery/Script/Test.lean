import TreeQuery.Datum.Basic
import TreeQuery.Error
import TreeQuery.Tree

/-! Tests of a datum that can be written down. -/

namespace TreeQuery

class HasInt (D : Type) where
  int? : D → Option Int

instance : HasInt Tree where
  int?
    | .int value => some value
    | _ => none

def plainFailure : MatchError := .custom "plain failure" none

/-- Under `failIf` a test that holds is an error; `log` leaves a record each time it is asked. -/
inductive Test (D K : Type) where
  | const (answer : Bool)
  | even
  | lessThan (bound : Int)
  | hasKind (kind : K)
  | equals (value : D)
  | arity (count : Nat)
  | not (test : Test D K)
  | fail (message : String)
  | plain
  | failIf (test : Test D K) (message : String)
  | log (tag : String) (test : Test D K)

namespace Test

variable {D K : Type} [TreeLike D K] [BEq D] [BEq K] [HasInt D]

def run (datum : D) : Test D K → Except MatchError Bool
  | const answer => .ok answer
  | even => .ok ((HasInt.int? datum).any (· % 2 == 0))
  | lessThan bound => .ok ((HasInt.int? datum).any (· < bound))
  | hasKind kind => .ok (TreeLike.kind datum == kind)
  | equals value => .ok (datum == value)
  | arity count => .ok (TreeLike.arity datum == count)
  | not test => (test.run datum).map (!·)
  | fail message => .error (.host message)
  | plain => .error plainFailure
  | failIf test message => do
    if ← test.run datum then .error (.host message) else .ok true
  | log _ test => test.run datum

def tags : Test D K → List String
  | not test | failIf test _ => test.tags
  | log tag test => tag :: test.tags
  | _ => []

end Test

end TreeQuery
