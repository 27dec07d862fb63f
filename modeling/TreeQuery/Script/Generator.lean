import TreeQuery.Env
import TreeQuery.Pattern.Basic
import TreeQuery.Script.Test

/-! Generators of patterns that can be written down. -/

namespace TreeQuery

inductive Handle where
  | site (index : Nat)
  | never
  | isInt (value : Int)
  deriving DecidableEq

/-- Most generators go by the binding of a name, `count` by the number of bindings; `log` leaves a
record each time it is asked. -/
inductive Generator (D K : Type) where
  | constant (pattern : Pattern D K Handle)
  | definition (index : Nat)
  | same (name : String)
  | successor (name : String)
  | kindOf (name : String)
  | reversed (name : String)
  | ifBound (name : String) (bound unbound : Pattern D K Handle)
  | count (patterns : List (Pattern D K Handle))
  | fail (message : String)
  | plain
  | log (tag : String) (generator : Generator D K)

namespace Generator

variable {D K : Type} [TreeLike D K] [HasInt D]

def afterInt (value : Int) : Pattern D K Handle :=
  if value < Tree.maxInt then .test (.isInt (value + 1)) else .test .never

/-- Generators that go by a name make a pattern that never matches if it is unbound, `successor`
one that always does. -/
def run (definitions : Array (Pattern D K Handle)) (env : Env D) :
    Generator D K → Except MatchError (Pattern D K Handle)
  | constant pattern => .ok pattern
  | definition index => .ok (definitions[index]?.getD (.test .never))
  | same name => .ok ((env.get? name).elim (.test .never) .atom)
  | successor name => .ok (((env.get? name).bind HasInt.int?).elim .wild afterInt)
  | kindOf name => .ok ((env.get? name).elim (.test .never) fun d => .ofKind (TreeLike.kind d))
  | reversed name =>
    .ok ((env.get? name).elim (.test .never) fun d =>
      .node (TreeLike.kind d) ((TreeLike.children d).reverse.map .atom))
  | ifBound name bound unbound => .ok (if (env.get? name).isSome then bound else unbound)
  | count patterns =>
    .ok (patterns[min env.size (patterns.length - 1)]?.getD (.test .never))
  | fail message => .error (.host message)
  | plain => .error plainFailure
  | log _ generator => generator.run definitions env

def tags : Generator D K → List String
  | log tag generator => tag :: generator.tags
  | _ => []

end Generator

end TreeQuery
